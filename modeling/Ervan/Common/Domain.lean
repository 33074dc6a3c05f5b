import Ervan.Common.Holds
import Ervan.Library.Grammar

/-!
# What `domain` accepts

`parse::domain` reads labels of letters, digits and hyphens with dots between them. It asks for
a label when a byte is left, and not when the span is at its end; and it looks for a hyphen
behind a label where there can be none.
-/

namespace Ervan.Parse

open Grammar

def isLabelChar (c : UInt8) : Bool := isalnum c || c == 45

def isDomainChar (c : UInt8) : Bool := isLabelChar c || c == 46

/-- Labels of letters, digits and hyphens, joined by dots. -/
def Domain (bs : Bytes) : Prop := SepBy 46 (Stretch isLabelChar) bs

/-- A label that starts and ends with a letter or a digit. -/
structure Ldh (x : Bytes) : Prop extends Stretch isLabelChar x where
  first : ∀ c ∈ x.head?, isalnum c = true
  last : ∀ c ∈ x.getLast?, isalnum c = true

/-- The domains of RFC 5321. -/
def RfcDomain (bs : Bytes) : Prop := SepBy 46 Ldh bs

/-- What `domain` takes for a domain, in front of the rest of the span: at the end of the span
the last label may be missing. -/
inductive DomainRead : Bytes → Bytes → Prop
  | last {x y : Bytes} (label : Stretch isLabelChar x) (ends : Until isDomainChar y) :
      DomainRead x y
  | missing : DomainRead [] []
  | dot {x p y : Bytes} (label : Stretch isLabelChar x) (rest : DomainRead p y) :
      DomainRead (x ++ 46 :: p) y

/-- Where a label should start stands another byte. -/
inductive NoLabel : Bytes → Prop
  | here {c : UInt8} {y : Bytes} (h : isLabelChar c = false) : NoLabel (c :: y)
  | dot {x y : Bytes} (label : Stretch isLabelChar x) (rest : NoLabel y) : NoLabel (x ++ 46 :: y)

section Reads

variable {x p y : Bytes}

theorem isDomainChar_of_label {c : UInt8} (h : isLabelChar c = true) : isDomainChar c = true := by
  rw [isDomainChar, h, Bool.true_or]

theorem DomainRead.each (h : DomainRead p y) : Each isDomainChar p := by
  induction h with
  | last label ends => exact label.each.mono fun c hc => isDomainChar_of_label hc
  | missing => exact .nil
  | dot label rest ih =>
      exact each_append.mpr ⟨label.each.mono fun c hc => isDomainChar_of_label hc,
        each_cons.mpr ⟨rfl, ih⟩⟩

theorem DomainRead.until (h : DomainRead p y) : Until isDomainChar y := by
  induction h with
  | last label ends => exact ends
  | missing => exact until_nil
  | dot label rest ih => exact ih

/-- A domain that something else ends. -/
theorem Domain.read (h : Domain p) (ends : Until isDomainChar y) : DomainRead p y := by
  induction h with
  | one label => exact .last label ends
  | more label rest ih => exact .dot label ih

/-- With something behind it, what is read is a domain. -/
theorem DomainRead.domain (h : DomainRead p y) (hy : y ≠ []) : Domain p := by
  induction h with
  | last label ends => exact .one label
  | missing => exact absurd rfl hy
  | dot label rest ih => exact .more label (ih hy)

/-- Either a domain is read or a label is missing. -/
theorem read_or_noLabel (bs : Bytes) : (∃ p y, bs = p ++ y ∧ DomainRead p y) ∨ NoLabel bs := by
  induction hn : bs.length using Nat.strongRecOn generalizing bs with
  | ind n ih =>
      subst hn
      obtain ⟨x, y, rfl, each, ends⟩ := exists_each isLabelChar bs
      cases y with
      | nil =>
          rw [List.append_nil]
          by_cases hx : x = []
          · subst hx
            exact Or.inl ⟨[], [], rfl, .missing⟩
          · exact Or.inl ⟨x, [], (List.append_nil x).symm, .last ⟨hx, each⟩ until_nil⟩
      | cons c y =>
          have hc := until_cons.mp ends
          by_cases hx : x = []
          · subst hx
            exact Or.inr (.here hc)
          · have label : Stretch isLabelChar x := ⟨hx, each⟩
            by_cases hdot : c = 46
            · subst hdot
              rcases ih y.length (by simp; omega) y rfl with ⟨p, y', rfl, hread⟩ | hmissing
              · exact Or.inl ⟨x ++ 46 :: p, y', by simp, .dot label hread⟩
              · exact Or.inr (.dot label hmissing)
            · have hother : isDomainChar c = false := by simp [isDomainChar, hc, hdot]
              exact Or.inl ⟨x, c :: y, rfl, .last label (until_cons.mpr hother)⟩

end Reads

section Loops

variable {m : Mem} {a : Nat} {u x y : Bytes}

theorem label_goes_on {c : UInt8} (hc : isLabelChar c = true) :
    (!isalnum c && c != 45) = false := by
  rw [isLabelChar] at hc
  cases hcase : isalnum c <;> simp [hcase, bne] at hc ⊢
  exact hc

theorem label_stops {c : UInt8} (hc : isLabelChar c = false) : (!isalnum c && c != 45) = true := by
  rw [isLabelChar, Bool.or_eq_false_iff] at hc
  simp [hc.1, hc.2, bne]

/-- The loop takes a character of the label. -/
theorem domainLabel_step {c : UInt8} {fuel : Nat} (h : m.Holds a (u ++ c :: y))
    (hc : isLabelChar c = true) (required : Bool) :
    domainLabel m ⟨a, (u ++ c :: y).length⟩ (fuel + 1) u.length required =
      domainLabel m ⟨a, (u ++ c :: y).length⟩ fuel (u.length + 1) false := by
  have hin : u.length < (u ++ c :: y).length := by simp
  simp only [domainLabel, if_pos hin, h.next, label_goes_on hc, Bool.false_eq_true, if_false]

/-- It ends at another one. -/
theorem domainLabel_stop {c : UInt8} {fuel : Nat} (h : m.Holds a (u ++ c :: y))
    (hc : isLabelChar c = false) (required : Bool) :
    domainLabel m ⟨a, (u ++ c :: y).length⟩ (fuel + 1) u.length required =
      if required then none else some (u.length, required) := by
  have hin : u.length < (u ++ c :: y).length := by simp
  simp only [domainLabel, if_pos hin, h.next, label_stops hc, if_true]

/-- The loop over a label takes all of it. -/
theorem domainLabel_stretch (h : m.Holds a (u ++ x ++ y)) (each : Each isLabelChar x)
    (ends : Until isLabelChar y) (required : Bool) (hreq : x = [] → required = true → y = []) :
    ∃ required', domainLabel m ⟨a, (u ++ x ++ y).length⟩ (x ++ y).length u.length required =
      some ((u ++ x).length, required') := by
  induction x generalizing u required with
  | nil =>
      rw [List.append_nil] at h ⊢
      cases y with
      | nil => exact ⟨required, rfl⟩
      | cons c y =>
          have hoptional : required = false := by
            cases required with
            | false => rfl
            | true => exact absurd (hreq rfl rfl) (List.cons_ne_nil c y)
          refine ⟨required, ?_⟩
          rw [List.nil_append, List.length_cons, domainLabel_stop h (until_cons.mp ends), hoptional]
          rfl
  | cons c x ih =>
      obtain ⟨hc, each⟩ := each_cons.mp each
      have hassoc : u ++ c :: x ++ y = u ++ c :: (x ++ y) := by simp
      have hassoc' : u ++ c :: (x ++ y) = u ++ [c] ++ x ++ y := by simp
      have hlength : (u ++ [c]).length = u.length + 1 := List.length_append
      rw [hassoc] at h ⊢
      rw [List.cons_append, List.length_cons, domainLabel_step h hc]
      rw [hassoc'] at h ⊢
      obtain ⟨required', heq⟩ := ih h each false (fun _ hf => by cases hf)
      rw [hlength] at heq
      refine ⟨required', heq.trans ?_⟩
      simp

theorem domainLabel_missing {c : UInt8} (h : m.Holds a (u ++ c :: y))
    (hc : isLabelChar c = false) :
    domainLabel m ⟨a, (u ++ c :: y).length⟩ (c :: y).length u.length true = none :=
  domainLabel_stop h hc true

/-- One turn of the loop over the labels. -/
theorem domainLoop_turn (h : m.Holds a (u ++ x ++ y)) (each : Each isLabelChar x)
    (ends : Until isLabelChar y) (hlabel : x = [] → y = []) (fuel : Nat) :
    domainLoop m ⟨a, (u ++ x ++ y).length⟩ (fuel + 1) u.length true =
      if y.head? = some 46 then
        domainLoop m ⟨a, (u ++ x ++ y).length⟩ fuel ((u ++ x).length + 1) true
      else some (u ++ x).length := by
  obtain ⟨required, heq⟩ := domainLabel_stretch h each ends true fun hx _ => hlabel hx
  have hlen : (u ++ x ++ y).length - u.length = (x ++ y).length := by
    rw [List.append_assoc, List.length_append, Nat.add_sub_cancel_left]
  rw [domainLoop]
  simp only [hlen, heq]
  cases y with
  | nil => simp
  | cons c y =>
      have hbyte : m (a + (u ++ x).length) = c := h.next
      have hhyphen : c ≠ 45 := by
        rintro rfl
        exact absurd (until_cons.mp ends) (by decide)
      rw [hbyte]
      by_cases hdot : c = 46
      · simp [hdot]
      · simp [hdot, hhyphen]

theorem domainLoop_read (read : DomainRead x y) (h : m.Holds a (u ++ x ++ y)) {fuel : Nat}
    (hfuel : x.length < fuel) :
    domainLoop m ⟨a, (u ++ x ++ y).length⟩ fuel u.length true = some (u ++ x).length := by
  induction read generalizing u fuel with
  | @last x y label ends =>
      obtain ⟨fuel, rfl⟩ := Nat.exists_eq_succ_of_ne_zero (Nat.ne_zero_of_lt hfuel)
      have hstop := ends.mono fun c hc => isDomainChar_of_label hc
      rw [domainLoop_turn h label.each hstop fun hx => absurd hx label.ne, if_neg]
      intro hhead
      exact absurd (ends 46 hhead) (by decide)
  | missing =>
      obtain ⟨fuel, rfl⟩ := Nat.exists_eq_succ_of_ne_zero (Nat.ne_zero_of_lt hfuel)
      rw [domainLoop_turn h .nil until_nil fun _ => rfl, if_neg (by simp)]
  | @dot x p y label rest ih =>
      obtain ⟨fuel, rfl⟩ := Nat.exists_eq_succ_of_ne_zero (Nat.ne_zero_of_lt hfuel)
      have hassoc : u ++ (x ++ 46 :: p) ++ y = u ++ x ++ 46 :: (p ++ y) := by simp
      have hassoc' : u ++ x ++ 46 :: (p ++ y) = u ++ x ++ [46] ++ p ++ y := by simp
      have hlength : (u ++ x ++ [46]).length = (u ++ x).length + 1 := List.length_append
      have hne : 0 < x.length := List.length_pos_iff.mpr label.ne
      rw [List.length_append, List.length_cons] at hfuel
      rw [hassoc] at h ⊢
      rw [domainLoop_turn h label.each (until_cons.mpr rfl) fun hx => absurd hx label.ne,
        if_pos List.head?_cons]
      rw [hassoc'] at h ⊢
      have hrest := ih h (show p.length < fuel by omega)
      rw [hlength] at hrest
      refine hrest.trans ?_
      simp

theorem domainLoop_noLabel (missing : NoLabel y) (h : m.Holds a (u ++ y)) {fuel : Nat}
    (hfuel : y.length < fuel) : domainLoop m ⟨a, (u ++ y).length⟩ fuel u.length true = none := by
  induction missing generalizing u fuel with
  | @here c y hc =>
      obtain ⟨fuel, rfl⟩ := Nat.exists_eq_succ_of_ne_zero (Nat.ne_zero_of_lt hfuel)
      have hlen : (u ++ c :: y).length - u.length = (c :: y).length := by
        rw [List.length_append, Nat.add_sub_cancel_left]
      simp only [domainLoop, hlen, domainLabel_missing h hc]
  | @dot x y label rest ih =>
      obtain ⟨fuel, rfl⟩ := Nat.exists_eq_succ_of_ne_zero (Nat.ne_zero_of_lt hfuel)
      have hassoc : u ++ x ++ 46 :: y = u ++ x ++ [46] ++ y := by simp
      have hlength : (u ++ x ++ [46]).length = (u ++ x).length + 1 := List.length_append
      rw [List.length_append, List.length_cons] at hfuel
      rw [← List.append_assoc] at h ⊢
      rw [domainLoop_turn h label.each (until_cons.mpr rfl) fun hx => absurd hx label.ne,
        if_pos List.head?_cons]
      rw [hassoc] at h ⊢
      have hrest := ih h (show y.length < fuel by omega)
      rw [hlength] at hrest
      exact hrest

end Loops

section Spec

variable {m : Mem} {a : Nat} {bs p y : Bytes}

/-- The result for a domain of these bytes, with so many left. -/
def domainResult (a : Nat) (p : Bytes) (left : Nat) : BufferedResult :=
  ⟨⟨⟨a, p.length⟩, ⟨a + p.length, left⟩⟩, p⟩

theorem domainLoop_start (h : m.Holds a (p ++ y)) (read : DomainRead p y) :
    domainLoop m ⟨a, (p ++ y).length⟩ ((p ++ y).length + 1) 0 true = some p.length := by
  have hfuel : p.length < (p ++ y).length + 1 := by
    rw [List.length_append]
    omega
  exact domainLoop_read read (u := []) h hfuel

theorem domain_read (h : m.Holds a (p ++ y)) (read : DomainRead p y)
    (hsize : p.length ≤ domainMaxSize) :
    domain m ⟨a, (p ++ y).length⟩ = some (domainResult a p y.length) := by
  simp only [domain, domainLoop_start h read, sized,
    if_neg (show ¬ domainMaxSize + 1 ≤ p.length by omega), Span.advance_append h,
    h.append.1.read, domainResult]

theorem domain_long (h : m.Holds a (p ++ y)) (read : DomainRead p y)
    (hsize : domainMaxSize < p.length) : domain m ⟨a, (p ++ y).length⟩ = none := by
  simp only [domain, domainLoop_start h read, sized,
    if_pos (show domainMaxSize + 1 ≤ p.length by omega)]

theorem domainLoop_stop (h : m.Holds a bs) (missing : NoLabel bs) :
    domainLoop m ⟨a, bs.length⟩ (bs.length + 1) 0 true = none :=
  domainLoop_noLabel missing (u := []) h (Nat.lt_succ_self bs.length)

theorem domain_noLabel (h : m.Holds a bs) (missing : NoLabel bs) :
    domain m ⟨a, bs.length⟩ = none := by
  simp only [domain, domainLoop_stop h missing]

/-- `domain` succeeds on a domain of at most 255 bytes and stops behind it. -/
theorem domain_eq_some (h : m.Holds a bs) {r : BufferedResult} :
    domain m ⟨a, bs.length⟩ = some r ↔ ∃ p y, bs = p ++ y ∧ DomainRead p y ∧
      p.length ≤ domainMaxSize ∧ r = domainResult a p y.length := by
  constructor
  · intro hr
    rcases read_or_noLabel bs with ⟨p, y, rfl, read⟩ | missing
    · by_cases hsize : p.length ≤ domainMaxSize
      · rw [domain_read h read hsize] at hr
        exact ⟨p, y, rfl, read, hsize, (Option.some.inj hr).symm⟩
      · rw [domain_long h read (Nat.lt_of_not_le hsize)] at hr
        cases hr
    · rw [domain_noLabel h missing] at hr
      cases hr
  · rintro ⟨p, y, rfl, read, hsize, rfl⟩
    exact domain_read h read hsize

/-- Nothing is both. -/
theorem DomainRead.label (h : m.Holds a (p ++ y)) (read : DomainRead p y) :
    ¬ NoLabel (p ++ y) := by
  intro missing
  have hread := domainLoop_start h read
  rw [domainLoop_stop h missing] at hread
  cases hread

end Spec

section Rfc

variable {m : Mem} {sp : Span} {p y : Bytes}

theorem RfcDomain.domain (h : RfcDomain p) : Domain p := SepBy.mono h fun _ label => label.toStretch

theorem RfcDomain.first (h : RfcDomain p) : ∃ c p', p = c :: p' ∧ isalnum c = true := by
  refine SepBy.head h fun x label => ?_
  obtain ⟨c, x', rfl⟩ := List.exists_cons_of_ne_nil label.ne
  exact ⟨c, x', rfl, label.first c rfl⟩

/-- `domain` accepts the span exactly when its longest stretch of domain characters is a domain
of RFC 5321 with at most 255 bytes, and takes that stretch. -/
def ExactDomain (m : Mem) (sp : Span) : Prop :=
  ((domain m sp).isSome = true ↔ RfcDomain ((sp.bytes m).takeWhile isDomainChar) ∧
      ((sp.bytes m).takeWhile isDomainChar).length ≤ 255) ∧
    ∀ r, domain m sp = some r → r = domainResult sp.start ((sp.bytes m).takeWhile isDomainChar)
      ((sp.bytes m).dropWhile isDomainChar).length

/-- It does unless a label is missing at the end of the span or starts or ends with a hyphen, in
a stretch that is not too long and has all its other labels. -/
theorem domain_exact (m : Mem) (sp : Span) (hsmall : sp.start + sp.len < 2 ^ 64) :
    ExactDomain m sp ↔ 255 < ((sp.bytes m).takeWhile isDomainChar).length ∨
      NoLabel (sp.bytes m) ∨ RfcDomain ((sp.bytes m).takeWhile isDomainChar) := by
  have h : m.Holds sp.start (sp.bytes m) := .of_span hsmall
  have hsp := Span.eq_bytes m sp
  unfold ExactDomain
  generalize sp.bytes m = bs at h hsp ⊢
  generalize sp.start = a at h hsp ⊢
  subst hsp
  rcases read_or_noLabel bs with ⟨p, y, rfl, read⟩ | missing
  · rw [takeWhile_append read.each read.until, dropWhile_append read.each read.until]
    have hlabel := read.label h
    by_cases hsize : p.length ≤ 255
    · have hdomain := domain_read h read hsize
      simp only [hdomain, Option.isSome_some, Option.some.injEq, forall_eq', and_true, true_iff,
        hsize, hlabel, false_or, Nat.not_lt.mpr hsize]
    · have hdomain := domain_long h read (Nat.lt_of_not_le hsize)
      simp only [hdomain]
      simp [hsize, Nat.lt_of_not_le hsize]
  · have hdomain := domain_noLabel h missing
    have hnot : ¬ RfcDomain (bs.takeWhile isDomainChar) := by
      intro hrfc
      obtain ⟨x, y, rfl, each, ends⟩ := exists_each isDomainChar bs
      rw [takeWhile_append each ends] at hrfc
      exact (hrfc.domain.read ends).label h missing
    simp [hdomain, missing, hnot]

/-- A name with a hyphen at its start is accepted. -/
theorem not_domain_exact_hyphen :
    ¬ ∀ (m : Mem) (sp : Span), sp.start + sp.len < 2 ^ 64 → ExactDomain m sp := by
  intro h
  have hexact := h (Mem.ofBytes (text "-a")) ⟨0, 2⟩ (by decide)
  obtain ⟨hrfc, -⟩ := hexact.1.mp (by decide)
  obtain ⟨c, p', hcons, hc⟩ := hrfc.first
  have hhead : c = 45 := (List.cons.inj (hcons.symm.trans (show _ = [45, 97] by decide))).1
  rw [hhead] at hc
  exact absurd hc (by decide)

/-- On a name that is followed by a blank it is as RFC 5321 has it. -/
theorem domain_exact_name : ExactDomain (Mem.ofBytes (text "a-b.c d")) ⟨0, 7⟩ := by
  refine (domain_exact _ _ (by decide)).mpr (Or.inr (Or.inr ?_))
  have hstretch : ((Span.mk 0 7).bytes (Mem.ofBytes (text "a-b.c d"))).takeWhile isDomainChar =
      text "a-b" ++ 46 :: text "c" := by decide
  rw [hstretch]
  have hlabel {x : Bytes} {c d : UInt8} (hhead : x.head? = some c) (hlast : x.getLast? = some d)
      (hall : x.all isLabelChar = true) (hends : isalnum c = true ∧ isalnum d = true) : Ldh x := by
    refine ⟨⟨?_, .of_all hall⟩, ?_, ?_⟩
    · rintro rfl
      cases hhead
    · rw [hhead]
      rintro _ ⟨⟩
      exact hends.1
    · rw [hlast]
      rintro _ ⟨⟩
      exact hends.2
  exact .more (hlabel rfl rfl (by decide) (by decide)) (.one (hlabel rfl rfl (by decide) (by decide)))

end Rfc

end Ervan.Parse
