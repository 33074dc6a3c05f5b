import Ervan.Common.Inside

/-!
# Indices past the range of an `int`

`domain`, `esmtp_keyword` and `esmtp_value` count the bytes they have looked at and take the
count for an index. `operator[]` has an `int` there, so that the byte behind the first 2^31 is
looked for in front of the span. They stay inside every span where they stop before.
-/

namespace Ervan.Parse

open Grammar

/-- Behind `n` bytes others follow, like these, up to the index 2^31 and a byte there. -/
def PastInt (P : Bytes → Prop) (n : Nat) (bs : Bytes) : Prop :=
  ∃ v y, bs = v ++ y ∧ n + v.length = 2 ^ 31 ∧ y ≠ [] ∧ P v

/-- A byte of one class and 2^31 - 1 bytes of a second one, and more bytes. -/
def RunOverrun (p q : UInt8 → Bool) (bs : Bytes) : Prop :=
  ∃ c bs', bs = c :: bs' ∧ p c = true ∧ PastInt (Each q) 1 bs'

def ValueOverrun (bs : Bytes) : Prop :=
  RunOverrun (isestmpvalue <| schar ·) (isestmpvalue <| schar ·) bs

/-- The value of a parameter. -/
def ValueBehind (bs : Bytes) : Prop :=
  ∃ c x bs', bs = c :: x ++ 61 :: bs' ∧ isalnum c = true ∧ Each isKeywordChar x ∧ ValueOverrun bs'

def ParamOverrun (bs : Bytes) : Prop := RunOverrun isalnum isKeywordChar bs ∨ ValueBehind bs

/-- Labels that are not empty, and the beginning of one more. -/
inductive Labels : Bytes → Prop
  | last {x : Bytes} (each : Each isLabelChar x) : Labels x
  | dot {x v : Bytes} (label : Stretch isLabelChar x) (rest : Labels v) : Labels (x ++ 46 :: v)

def DomainOverrun (bs : Bytes) : Prop := PastInt Labels 0 bs

section Counts

variable {P : Bytes → Prop} {n : Nat} {bs x : Bytes} {q : UInt8 → Bool} {c : UInt8}

theorem PastInt.length (h : PastInt P n bs) : 2 ^ 31 < n + bs.length := by
  obtain ⟨v, y, rfl, hcount, hne, -⟩ := h
  have hpos := List.length_pos_iff.mpr hne
  rw [List.length_append]
  omega

/-- The bytes go on as far as the index 2^31. -/
theorem PastInt.of_take (hn : n ≤ 2 ^ 31) (hx : 2 ^ 31 ≤ n + x.length)
    (hlen : 2 ^ 31 < n + (x ++ bs).length) (h : P (x.take (2 ^ 31 - n))) :
    PastInt P n (x ++ bs) := by
  have htake : (x.take (2 ^ 31 - n)).length = 2 ^ 31 - n := List.length_take_of_le (by omega)
  refine ⟨_, (x ++ bs).drop (2 ^ 31 - n), ?_, ?_, ?_, h⟩
  · rw [← List.take_append_of_le_length (by omega), List.take_append_drop]
  · rw [htake]
    omega
  · rw [ne_eq, List.drop_eq_nil_iff]
    omega

/-- The first of the bytes behind. -/
theorem pastInt_cons (hn : n < 2 ^ 31) : PastInt P n (c :: bs) ↔
    PastInt (fun v => P (c :: v)) (n + 1) bs := by
  constructor
  · rintro ⟨v, y, heq, hcount, hne, h⟩
    cases v with
    | nil => exact absurd hcount (Nat.ne_of_lt hn)
    | cons d v =>
        obtain ⟨rfl, rfl⟩ := List.cons.inj heq
        exact ⟨v, y, rfl, by rw [← hcount, List.length_cons]; omega, hne, h⟩
  · rintro ⟨v, y, rfl, hcount, hne, h⟩
    exact ⟨c :: v, y, rfl, by rw [← hcount, List.length_cons]; omega, hne, h⟩

theorem pastInt_append (hn : n + x.length < 2 ^ 31) : PastInt P n (x ++ bs) ↔
    PastInt (fun v => P (x ++ v)) (n + x.length) bs := by
  induction x generalizing n P with
  | nil => rfl
  | cons c x ih =>
      rw [List.length_cons] at hn
      rw [List.cons_append, pastInt_cons (by omega), ih (by omega), List.length_cons]
      simp only [List.cons_append, Nat.add_assoc, Nat.add_comm 1]

theorem PastInt.congr {Q : Bytes → Prop} (h : ∀ v, P v ↔ Q v) :
    PastInt P n bs ↔ PastInt Q n bs := by
  simp only [PastInt, h]

theorem pastInt_and {A : Prop} : PastInt (fun v => A ∧ P v) n bs ↔ A ∧ PastInt P n bs := by
  simp only [PastInt]
  constructor
  · rintro ⟨v, y, heq, hcount, hne, ha, h⟩
    exact ⟨ha, v, y, heq, hcount, hne, h⟩
  · rintro ⟨ha, v, y, heq, hcount, hne, h⟩
    exact ⟨v, y, heq, hcount, hne, ha, h⟩

theorem not_leads_nil : ¬ ∃ bs', [] = c :: bs' ∧ P bs' := by
  rintro ⟨bs', heq, -⟩
  cases heq

/-- Bytes that a character leads. -/
theorem leads_cons {d : UInt8} : (∃ bs', d :: bs = c :: bs' ∧ P bs') ↔ d = c ∧ P bs := by
  constructor
  · rintro ⟨bs', heq, h⟩
    obtain ⟨rfl, rfl⟩ := List.cons.inj heq
    exact ⟨rfl, h⟩
  · rintro ⟨rfl, h⟩
    exact ⟨bs, rfl, h⟩

/-- A character that stops the run. -/
theorem pastInt_each_cons (hn : n < 2 ^ 31) :
    PastInt (Each q) n (c :: bs) ↔ q c = true ∧ PastInt (Each q) (n + 1) bs := by
  rw [pastInt_cons hn, PastInt.congr fun v => each_cons, pastInt_and]

end Counts

section Runs

variable {m m' : Mem} {a fuel : Nat} {u bs : Bytes} {p q : UInt8 → Bool}

/-- A byte of the span by its index. -/
theorem Seen.byte {c : UInt8} (h : m.Holds a (u ++ c :: bs))
    (seen : Seen m m' ⟨a, (u ++ c :: bs).length⟩) (hu : u.length < 2 ^ 31) :
    Guarded.get m ⟨a, (u ++ c :: bs).length⟩ u.length = some c := by
  rw [seen.get (by simp) hu, (seen.holds h).next]

theorem Guarded.get_past {sp : Span} {i : Nat} (hi : i = 2 ^ 31) : Guarded.get m sp i = none := by
  have hindex : int32 i = -2 ^ 31 := by
    subst hi
    rfl
  rw [Guarded.get, hindex]
  exact if_neg fun hlo => absurd hlo.1 (by decide)

theorem sizeWhile_guarded (h : m.Holds a (u ++ bs)) (seen : Seen m m' ⟨a, (u ++ bs).length⟩)
    (hu : u.length ≤ 2 ^ 31) (hfuel : bs.length ≤ fuel) :
    (PastInt (Each q) u.length bs →
      Guarded.sizeWhile m q ⟨a, (u ++ bs).length⟩ fuel u.length = none) ∧
    (¬ PastInt (Each q) u.length bs →
      ∃ n, Guarded.sizeWhile m q ⟨a, (u ++ bs).length⟩ fuel u.length = some n ∧
        n ≤ (u ++ bs).length ∧ (Span.mk a (u ++ bs).length).advance n =
          skipWhile m' q fuel ⟨a + u.length, bs.length⟩) := by
  induction bs generalizing u fuel with
  | nil =>
      refine ⟨fun hpast => absurd hpast.length (by simpa using hu), fun _ => ⟨u.length, ?_⟩⟩
      refine ⟨?_, by simp, ?_⟩
      · cases fuel with
        | zero => rfl
        | succ fuel => simp [Guarded.sizeWhile, Guarded.test]
      · rw [Span.advance_append h]
        cases fuel <;> rfl
  | cons c bs ih =>
      obtain ⟨fuel, rfl⟩ := Nat.exists_eq_succ_of_ne_zero (Nat.ne_zero_of_lt hfuel)
      have hin : u.length < (u ++ c :: bs).length := by simp
      rcases Nat.lt_or_eq_of_le hu with hlt | heq
      · have hassoc : u ++ c :: bs = u ++ [c] ++ bs := by simp
        have hlength : (u ++ [c]).length = u.length + 1 := List.length_append
        have hrest := (seen.holds h).append.2
        simp only [Guarded.sizeWhile, Guarded.test, if_pos hin, seen.byte h hlt, skipWhile,
          starts_cons hrest, Span.advance_cons hrest, Option.map_some, Option.bind_eq_bind,
          Option.bind_some, pastInt_each_cons hlt]
        cases hc : q c with
        | false =>
            refine ⟨fun hpast => absurd hpast.1 (by decide), fun _ => ?_⟩
            exact ⟨u.length, rfl, Nat.le_of_lt hin, Span.advance_append h⟩
        | true =>
            simp only [true_and, if_true]
            rw [hassoc] at h seen ⊢
            obtain ⟨hpast, hstop⟩ := ih h seen (by omega) (Nat.le_of_succ_le_succ hfuel)
            rw [hlength] at hpast hstop
            exact ⟨hpast, hstop⟩
      · refine ⟨fun _ => ?_, fun hno => absurd ⟨[], _, rfl, heq, List.cons_ne_nil c bs, .nil⟩ hno⟩
        simp only [Guarded.sizeWhile, Guarded.test, if_pos hin, Guarded.get_past heq,
          Option.map_none, Option.bind_eq_bind, Option.bind_none]

/-- A first character of one class and any number of a second one. -/
theorem run_guarded (h : m.Holds a bs) (seen : Seen m m' ⟨a, bs.length⟩) (p q : UInt8 → Bool) :
    Unless (RunOverrun p q bs) ⟨a, bs.length⟩ Result.rest
      (do
        if !(← Guarded.starts m ⟨a, bs.length⟩ p) then return none
        else
          let rest ← Guarded.advance ⟨a, bs.length⟩
            (← Guarded.sizeWhile m q ⟨a, bs.length⟩ bs.length 1)
          return some ⟨(Span.mk a bs.length).upTo rest, rest⟩)
      (if !starts m' ⟨a, bs.length⟩ p then none
        else
          let rest := skipWhile m' q bs.length ((Span.mk a bs.length).advance 1)
          some ⟨(Span.mk a bs.length).upTo rest, rest⟩) := by
  cases bs with
  | nil =>
      refine .of_not ?_ (.malformed _)
      rintro ⟨c, bs', heq, -⟩
      cases heq
  | cons c bs =>
      have h' := seen.holds h
      have hiff : RunOverrun p q (c :: bs) ↔ p c = true ∧ PastInt (Each q) 1 bs := by
        constructor
        · rintro ⟨d, bs', heq, hd, hpast⟩
          obtain ⟨rfl, rfl⟩ := List.cons.inj heq
          exact ⟨hd, hpast⟩
        · rintro ⟨hc, hpast⟩
          exact ⟨c, bs, rfl, hc, hpast⟩
      refine .of_iff hiff ?_
      simp only [seen.starts, starts_cons h', Span.advance_cons h', Option.bind_eq_bind,
        Option.bind_some]
      cases hc : p c with
      | false => exact .of_not (fun hpast => absurd hpast.1 (by decide)) (.malformed _)
      | true =>
          have hsize := sizeWhile_guarded (u := [c]) (q := q) h seen
            (show 1 ≤ 2 ^ 31 by decide) (show bs.length ≤ (c :: bs).length from Nat.le_succ _)
          simp only [List.length_singleton, List.singleton_append] at hsize
          refine .of_iff (and_iff_right rfl) ⟨fun hpast => ?_, fun hno => ?_⟩
          · simp only [hsize.1 hpast, Bool.not_true, Bool.false_eq_true, if_false,
              Option.bind_none]
          · obtain ⟨n, hn, hle, heq⟩ := hsize.2 hno
            have hadvance : Guarded.advance ⟨a, (c :: bs).length⟩ n = _ := Guarded.advance_eq hle
            simp only [Bool.not_true, Bool.false_eq_true, if_false, hn, Option.bind_some,
              hadvance, ← heq]
            exact .ended (.advance seen.len hle)

theorem esmtpKeyword_guarded (h : m.Holds a bs) (seen : Seen m m' ⟨a, bs.length⟩) :
    Unless (RunOverrun isalnum isKeywordChar bs) ⟨a, bs.length⟩ Result.rest
      (Guarded.esmtpKeyword m ⟨a, bs.length⟩) (esmtpKeyword m' ⟨a, bs.length⟩) :=
  run_guarded h seen _ _

theorem esmtpValue_guarded (h : m.Holds a bs) (seen : Seen m m' ⟨a, bs.length⟩) :
    Unless (ValueOverrun bs) ⟨a, bs.length⟩ Result.rest (Guarded.esmtpValue m ⟨a, bs.length⟩)
      (esmtpValue m' ⟨a, bs.length⟩) := run_guarded h seen _ _

theorem valueBehind_append {c : UInt8} {x y : Bytes} (hc : isalnum c = true)
    (each : Each isKeywordChar x) (ends : Until isKeywordChar y) :
    ValueBehind (c :: x ++ y) ↔ ∃ bs', y = 61 :: bs' ∧ ValueOverrun bs' := by
  constructor
  · rintro ⟨c', x', bs', heq, -, each', hvalue⟩
    have ends' : Until isKeywordChar (61 :: bs') := until_cons.mpr (by decide)
    exact ⟨bs', (each_unique each ends each' ends' (List.cons.inj heq).2).2, hvalue⟩
  · rintro ⟨bs', rfl, hvalue⟩
    exact ⟨c, x, bs', rfl, hc, each, hvalue⟩

theorem esmtpParam_guarded (h : m.Holds a bs) (seen : Seen m m' ⟨a, bs.length⟩) :
    Unless (ParamOverrun bs) ⟨a, bs.length⟩ (·.rest) (Guarded.esmtpParam m ⟨a, bs.length⟩)
      (esmtpParam m' ⟨a, bs.length⟩) := by
  have h' := seen.holds h
  have hkeyword := esmtpKeyword_guarded h seen
  by_cases hkey : RunOverrun isalnum isKeywordChar bs
  · refine ⟨fun _ => ?_, fun hno => absurd (Or.inl hkey) hno⟩
    simp only [Guarded.esmtpParam, hkeyword.1 hkey, Option.bind_eq_bind, Option.bind_none]
  · obtain ⟨hrun, hsuffix⟩ := hkeyword.2 hkey
    refine .of_iff (or_iff_right hkey) ?_
    simp only [Guarded.esmtpParam, esmtpParam, hrun, Option.bind_eq_bind, Option.bind_some]
    cases hparsed : esmtpKeyword m' ⟨a, bs.length⟩ with
    | none =>
        refine .of_not ?_ (.malformed _)
        rintro ⟨c, x, bs', rfl, hc, each, -⟩
        have hsome : esmtpKeyword m' ⟨a, (c :: x ++ 61 :: bs').length⟩ = some _ :=
          run_each h' hc each (until_cons.mpr (by decide))
        rw [hsome] at hparsed
        cases hparsed
    | some key =>
        have hrest : SuffixOf _ _ := hsuffix key hparsed
        obtain ⟨c, x, y, rfl, hc, each, ends, rfl⟩ := (run_eq_some h').mp hparsed
        have seen₁ := seen.suffix hrest
        refine .of_iff (valueBehind_append hc each ends) ?_
        simp only [seen₁.starts, Option.bind_some]
        cases y with
        | nil => exact .of_not not_leads_nil (.malformed _)
        | cons d y =>
            have hd := h'.append.2
            refine .of_iff leads_cons ?_
            rw [starts_cons hd]
            by_cases heq : d = 61
            · subst heq
              obtain ⟨seen₂, hnext⟩ := seen₁.tail h.append.2
              have hvalue := esmtpValue_guarded h.append.2.cons.2 seen₂
              refine .of_iff (and_iff_right rfl) ⟨fun hover => ?_, fun hno => ?_⟩
              · simp only [beq_self_eq_true, Bool.not_true, Bool.false_eq_true, if_false,
                  (seen₁.cons h.append.2).2, hvalue.1 hover, Option.bind_some, Option.bind_none]
              · obtain ⟨hrun', hlast⟩ := hvalue.2 hno
                simp only [beq_self_eq_true, Bool.not_true, Bool.false_eq_true, if_false,
                  (seen₁.cons h.append.2).2, hrun', Option.bind_some, Span.advance_cons hd]
                cases hparsed' : esmtpValue m' ⟨a + (c :: x).length + 1, y.length⟩ with
                | none => exact .malformed _
                | some value => exact .ended ((hrest.trans hnext).trans (hlast value hparsed'))
            · simp only [beq_eq_false_iff_ne.mpr heq, Bool.not_false, if_true]
              exact .of_not (fun hover => heq hover.1) (.malformed _)

end Runs

section Domains

variable {m m' : Mem} {a fuel : Nat} {u x bs : Bytes} {n : Nat} {c : UInt8}

/-- Behind a label comes a dot or nothing. -/
theorem labels_stop (each : Each isLabelChar x) (hc : isLabelChar c = false) (v : Bytes) :
    Labels (x ++ c :: v) ↔ (x ≠ [] ∧ c = 46) ∧ Labels v := by
  constructor
  · intro h
    generalize heq : x ++ c :: v = w at h
    cases h with
    | last each' =>
        rw [← heq] at each'
        rw [(each_cons.mp (each_append.mp each').2).1] at hc
        cases hc
    | dot label rest =>
        obtain ⟨rfl, htail⟩ := each_unique each (until_cons.mpr hc) label.each
          (until_cons.mpr (by decide)) heq
        obtain ⟨rfl, rfl⟩ := List.cons.inj htail
        exact ⟨⟨label.ne, rfl⟩, rest⟩
  · rintro ⟨⟨hne, rfl⟩, rest⟩
    exact .dot ⟨hne, each⟩ rest

theorem pastInt_labels (each : Each isLabelChar x) (hc : isLabelChar c = false)
    (hn : n + x.length < 2 ^ 31) : PastInt Labels n (x ++ c :: bs) ↔
      (x ≠ [] ∧ c = 46) ∧ PastInt Labels (n + x.length + 1) bs := by
  rw [pastInt_append hn, pastInt_cons hn, PastInt.congr (labels_stop each hc), pastInt_and]

theorem Guarded.domainLabel_step (h : m.Holds a (u ++ c :: bs))
    (seen : Seen m m' ⟨a, (u ++ c :: bs).length⟩) (hu : u.length < 2 ^ 31)
    (hc : isLabelChar c = true) (required : Bool) :
    Guarded.domainLabel m ⟨a, (u ++ c :: bs).length⟩ (fuel + 1) u.length required =
      Guarded.domainLabel m ⟨a, (u ++ c :: bs).length⟩ fuel (u.length + 1) false := by
  have hin : u.length < (u ++ c :: bs).length := by simp
  simp only [Guarded.domainLabel, if_pos hin, seen.byte h hu, label_goes_on hc,
    Bool.false_eq_true, if_false, Option.bind_eq_bind, Option.bind_some]

/-- The loop over a label that ends in front of the index 2^31. -/
theorem domainLabel_inside (h : m.Holds a (u ++ (x ++ bs)))
    (seen : Seen m m' ⟨a, (u ++ (x ++ bs)).length⟩) (each : Each isLabelChar x)
    (ends : Until isLabelChar bs) (hlen : u.length + x.length ≤ 2 ^ 31)
    (hlt : bs = [] ∨ u.length + x.length < 2 ^ 31) (required : Bool) :
    Guarded.domainLabel m ⟨a, (u ++ (x ++ bs)).length⟩ (x ++ bs).length u.length required =
      some (domainLabel m' ⟨a, (u ++ (x ++ bs)).length⟩ (x ++ bs).length u.length required) := by
  induction x generalizing u required with
  | nil =>
      cases bs with
      | nil => rfl
      | cons c bs =>
          have hin : u.length < (u ++ c :: bs).length := by simp
          have hu : u.length < 2 ^ 31 := hlt.resolve_left (List.cons_ne_nil c bs)
          simp only [List.nil_append] at h seen ⊢
          simp only [List.length_cons, Guarded.domainLabel, domainLabel, if_pos hin,
            seen.byte h hu, (seen.holds h).next, label_stops (until_cons.mp ends), if_true,
            Option.bind_eq_bind, Option.bind_some]
          rfl
  | cons c x ih =>
      obtain ⟨hc, each⟩ := each_cons.mp each
      have hlength : (u ++ [c]).length = u.length + 1 := List.length_append
      have hassoc : u ++ c :: (x ++ bs) = u ++ [c] ++ (x ++ bs) := by simp
      rw [List.length_cons] at hlen hlt
      simp only [List.cons_append] at h seen ⊢
      rw [List.length_cons, Guarded.domainLabel_step h seen (by omega) hc,
        domainLabel_step (seen.holds h) hc]
      rw [hassoc] at h seen ⊢
      have hrest := ih h seen each (by omega) (hlt.imp_right fun hlt => by omega) false
      rw [hlength] at hrest
      exact hrest

/-- The loop over a label that goes on as far as the index 2^31. -/
theorem domainLabel_past (h : m.Holds a (u ++ (x ++ bs)))
    (seen : Seen m m' ⟨a, (u ++ (x ++ bs)).length⟩) (each : Each isLabelChar x)
    (hu : u.length ≤ 2 ^ 31) (hx : 2 ^ 31 ≤ u.length + x.length)
    (hlen : 2 ^ 31 < (u ++ (x ++ bs)).length) (required : Bool) :
    Guarded.domainLabel m ⟨a, (u ++ (x ++ bs)).length⟩ (x ++ bs).length u.length required =
      none := by
  induction x generalizing u required with
  | nil =>
      have heq : u.length = 2 ^ 31 := Nat.le_antisymm hu hx
      cases bs with
      | nil => simp [heq] at hlen
      | cons c bs =>
          have hin : u.length < (u ++ c :: bs).length := by simp
          simp only [List.nil_append, List.length_cons, Guarded.domainLabel, if_pos hin,
            Guarded.get_past heq, Option.bind_eq_bind, Option.bind_none]
  | cons c x ih =>
      obtain ⟨hc, each⟩ := each_cons.mp each
      have hlength : (u ++ [c]).length = u.length + 1 := List.length_append
      have hassoc : u ++ c :: (x ++ bs) = u ++ [c] ++ (x ++ bs) := by simp
      rw [List.length_cons] at hx
      simp only [List.cons_append] at h seen hlen ⊢
      rcases Nat.lt_or_eq_of_le hu with hlt | heq
      · rw [List.length_cons, Guarded.domainLabel_step h seen hlt hc]
        rw [hassoc] at h seen hlen ⊢
        have hrest := ih h seen each (by omega) (by omega) hlen false
        rw [hlength] at hrest
        exact hrest
      · have hin : u.length < (u ++ c :: (x ++ bs)).length := by simp
        simp only [List.length_cons, Guarded.domainLabel, if_pos hin, Guarded.get_past heq,
          Option.bind_eq_bind, Option.bind_none]

/-- One turn of the loop over the labels, in front of the index 2^31. -/
theorem Guarded.domainLoop_turn (h : m.Holds a (u ++ x ++ bs))
    (seen : Seen m m' ⟨a, (u ++ x ++ bs).length⟩) (each : Each isLabelChar x)
    (ends : Until isLabelChar bs) (hlabel : x = [] → bs = [])
    (hlen : u.length + x.length ≤ 2 ^ 31) (hlt : bs = [] ∨ u.length + x.length < 2 ^ 31)
    (fuel : Nat) :
    Guarded.domainLoop m ⟨a, (u ++ x ++ bs).length⟩ (fuel + 1) u.length true =
      if bs.head? = some 46 then
        Guarded.domainLoop m ⟨a, (u ++ x ++ bs).length⟩ fuel ((u ++ x).length + 1) true
      else some (some (u ++ x).length) := by
  have hassoc : u ++ x ++ bs = u ++ (x ++ bs) := List.append_assoc u x bs
  have hsize : (u ++ x ++ bs).length - u.length = (x ++ bs).length := by
    rw [hassoc, List.length_append, Nat.add_sub_cancel_left]
  obtain ⟨required, hstretch⟩ :=
    domainLabel_stretch (seen.holds h) each ends true fun hx _ => hlabel hx
  have hinside := domainLabel_inside (hassoc ▸ h) (hassoc ▸ seen) each ends hlen hlt true
  rw [← hassoc, hstretch] at hinside
  simp only [Guarded.domainLoop, hsize, hinside, Option.bind_eq_bind, Option.bind_some]
  cases bs with
  | nil => simp [Guarded.test]
  | cons c bs =>
      have hin : (u ++ x).length < (u ++ x ++ c :: bs).length := by simp
      have hget := seen.byte h (by
        rw [List.length_append]
        exact hlt.resolve_left (List.cons_ne_nil c bs))
      have hhyphen : (c == 45) = false := by
        refine beq_eq_false_iff_ne.mpr ?_
        rintro rfl
        exact absurd (until_cons.mp ends) (by decide)
      simp only [Guarded.test, if_pos hin, hget, Option.map_some, hhyphen, Option.bind_some,
        Bool.false_eq_true, if_false, beq_eq_false_iff_ne.mpr (Nat.ne_of_lt hin), List.head?_cons,
        Option.some.injEq]
      by_cases hdot : c = 46
      · simp [hdot]
      · simp [hdot]

/-- A turn that does not come to the end of its label. -/
theorem Guarded.domainLoop_past (h : m.Holds a (u ++ (x ++ bs)))
    (seen : Seen m m' ⟨a, (u ++ (x ++ bs)).length⟩) (each : Each isLabelChar x)
    (hu : u.length ≤ 2 ^ 31) (hx : 2 ^ 31 ≤ u.length + x.length)
    (hlen : 2 ^ 31 < (u ++ (x ++ bs)).length) (fuel : Nat) :
    PastInt Labels u.length (x ++ bs) ∧
      Guarded.domainLoop m ⟨a, (u ++ (x ++ bs)).length⟩ (fuel + 1) u.length true = none := by
  have hsize : (u ++ (x ++ bs)).length - u.length = (x ++ bs).length := by
    rw [List.length_append, Nat.add_sub_cancel_left]
  constructor
  · exact .of_take hu hx (by rw [← List.length_append]; exact hlen)
      (.last fun c hc => each c (List.mem_of_mem_take hc))
  · simp only [Guarded.domainLoop, hsize, domainLabel_past h seen each hu hx hlen,
      Option.bind_eq_bind, Option.bind_none]

/-- A turn that does not find its label. -/
theorem domainLoop_missing (h : m.Holds a (u ++ c :: bs))
    (seen : Seen m m' ⟨a, (u ++ c :: bs).length⟩) (hc : isLabelChar c = false)
    (hu : u.length < 2 ^ 31) (fuel : Nat) :
    ¬ PastInt Labels u.length (c :: bs) ∧
      Guarded.domainLoop m ⟨a, (u ++ c :: bs).length⟩ (fuel + 1) u.length true = some none ∧
      domainLoop m' ⟨a, (u ++ c :: bs).length⟩ (fuel + 1) u.length true = none := by
  have hsize : (u ++ c :: bs).length - u.length = (c :: bs).length := by
    rw [List.length_append, Nat.add_sub_cancel_left]
  have hnone := domainLabel_missing (seen.holds h) hc
  have hinside := domainLabel_inside (x := []) h seen .nil (until_cons.mpr hc)
    (Nat.le_of_lt hu) (.inr hu) true
  rw [List.nil_append, hnone] at hinside
  refine ⟨fun hpast => ?_, ?_, ?_⟩
  · have hstop := (pastInt_labels (x := []) .nil hc hu).mp hpast
    exact absurd rfl hstop.1.1
  · simp only [Guarded.domainLoop, hsize, hinside, Option.bind_eq_bind, Option.bind_some]
    rfl
  · simp only [domainLoop, hsize, hnone]

theorem domainLoop_guarded (h : m.Holds a (u ++ bs)) (seen : Seen m m' ⟨a, (u ++ bs).length⟩)
    (hu : u.length ≤ 2 ^ 31) (hfuel : bs.length < fuel) :
    (PastInt Labels u.length bs →
      Guarded.domainLoop m ⟨a, (u ++ bs).length⟩ fuel u.length true = none) ∧
    (¬ PastInt Labels u.length bs →
      Guarded.domainLoop m ⟨a, (u ++ bs).length⟩ fuel u.length true =
        some (domainLoop m' ⟨a, (u ++ bs).length⟩ fuel u.length true) ∧
      ∀ n, domainLoop m' ⟨a, (u ++ bs).length⟩ fuel u.length true = some n →
        n ≤ (u ++ bs).length) := by
  induction fuel generalizing u bs with
  | zero => exact absurd hfuel (Nat.not_lt_zero _)
  | succ fuel ih =>
      obtain ⟨x, z, rfl, each, ends⟩ := exists_each isLabelChar bs
      have htotal : (u ++ (x ++ z)).length = u.length + x.length + z.length := by
        simp only [List.length_append]
        omega
      by_cases hfar : 2 ^ 31 ≤ u.length + x.length ∧ 2 ^ 31 < (u ++ (x ++ z)).length
      · obtain ⟨hpast, hnone⟩ := Guarded.domainLoop_past h seen each hu hfar.1 hfar.2 fuel
        exact ⟨fun _ => hnone, fun hno => absurd hpast hno⟩
      · have hnear : u.length + x.length ≤ 2 ^ 31 := by
          omega
        have hlt : z = [] ∨ u.length + x.length < 2 ^ 31 := by
          refine or_iff_not_imp_left.mpr fun hz => ?_
          have hpos := List.length_pos_iff.mpr hz
          omega
        by_cases hmissing : x = [] ∧ z ≠ []
        · obtain ⟨rfl, hz⟩ := hmissing
          obtain ⟨c, z, rfl⟩ := List.exists_cons_of_ne_nil hz
          obtain ⟨hno, hrun, hparsed⟩ := domainLoop_missing h seen (until_cons.mp ends)
            (hlt.resolve_left hz) fuel
          refine ⟨fun hpast => absurd hpast hno, fun _ => ⟨?_, fun n hn => ?_⟩⟩
          · exact hrun.trans (congrArg some hparsed.symm)
          · cases hparsed.symm.trans hn
        · have hlabel : x = [] → z = [] := fun hx => by_contra fun hz => hmissing ⟨hx, hz⟩
          have hassoc : u ++ (x ++ z) = u ++ x ++ z := (List.append_assoc u x z).symm
          rw [hassoc] at h seen ⊢
          rw [Guarded.domainLoop_turn h seen each ends hlabel hnear hlt fuel,
            domainLoop_turn (seen.holds h) each ends hlabel fuel]
          cases z with
          | nil =>
              refine ⟨fun hpast => absurd hpast.length ?_, fun _ => ?_⟩
              · simp only [List.append_nil]
                omega
              · exact ⟨rfl, fun n hn => Option.some.inj hn ▸ by simp⟩
          | cons c z =>
              have hnext := hlt.resolve_left (List.cons_ne_nil c z)
              have hstop : PastInt Labels u.length (x ++ c :: z) ↔ _ :=
                pastInt_labels each (until_cons.mp ends) hnext
              have hne : x ≠ [] := fun hx => List.cons_ne_nil c z (hlabel hx)
              simp only [hstop, hne, ne_eq, not_false_eq_true, true_and, List.head?_cons,
                Option.some.injEq]
              by_cases hdot : c = 46
              · subst hdot
                have hbehind : (u ++ x).length = u.length + x.length := List.length_append
                have hlength : (u ++ x ++ [46]).length = (u ++ x).length + 1 := List.length_append
                have hdot : u ++ x ++ 46 :: z = u ++ x ++ [46] ++ z := by simp
                rw [List.length_append, List.length_cons] at hfuel
                rw [hdot] at h seen ⊢
                have hrest := ih h seen (by omega) (show z.length < fuel by omega)
                rw [hlength, hbehind] at hrest
                simp only [if_true, true_and, hbehind]
                exact hrest
              · simp only [hdot, false_and, if_false]
                exact ⟨fun hpast => hpast.elim, fun _ => ⟨trivial, fun n hn =>
                  Option.some.inj hn ▸ by simp⟩⟩

theorem domain_guarded (h : m.Holds a bs) (seen : Seen m m' ⟨a, bs.length⟩) :
    Unless (DomainOverrun bs) ⟨a, bs.length⟩ (·.rest) (Guarded.domain m ⟨a, bs.length⟩)
      (domain m' ⟨a, bs.length⟩) := by
  obtain ⟨hpast, hstop⟩ := domainLoop_guarded (u := []) h seen (Nat.zero_le _)
    (Nat.lt_succ_self bs.length)
  refine ⟨fun hover => ?_, fun hno => ?_⟩
  · have hnone : Guarded.domainLoop m ⟨a, bs.length⟩ (bs.length + 1) 0 true = none := hpast hover
    simp only [Guarded.domain, hnone, Option.bind_eq_bind, Option.bind_none]
  · obtain ⟨heq, hsize⟩ := hstop hno
    simp only [List.nil_append, List.length_nil] at heq hsize
    simp only [Guarded.domain, domain, heq, Option.bind_eq_bind, Option.bind_some]
    cases hloop : domainLoop m' ⟨a, bs.length⟩ (bs.length + 1) 0 true with
    | none => exact .malformed _
    | some size => exact sized_inside seen (hsize size hloop) domainMaxSize

end Domains

/-- One of the domains of a source route is too long. -/
inductive RouteOverrun : Bytes → Prop
  | here {bs : Bytes} (domain : DomainOverrun bs) : RouteOverrun (64 :: bs)
  | later {d bs : Bytes} (domain : Domain d) (size : d.length ≤ domainMaxSize)
      (rest : RouteOverrun bs) : RouteOverrun (64 :: (d ++ 44 :: bs))

/-- The first one, behind its `@`. -/
def AtOverrun (bs : Bytes) : Prop := ∃ bs', bs = 64 :: bs' ∧ DomainOverrun bs'

/-- One of the further ones. -/
def MoreOverrun (bs : Bytes) : Prop := ∃ bs', bs = 44 :: bs' ∧ RouteOverrun bs'

section Routes

variable {m m' : Mem} {a fuel : Nat} {bs p y : Bytes}

theorem atDomain_guarded (h : m.Holds a bs) (seen : Seen m m' ⟨a, bs.length⟩) :
    Unless (AtOverrun bs) ⟨a, bs.length⟩ (·.rest) (Guarded.atDomain m ⟨a, bs.length⟩)
      (atDomain m' ⟨a, bs.length⟩) := by
  have h' := seen.holds h
  cases bs with
  | nil => exact .of_not not_leads_nil (.malformed _)
  | cons c bs =>
      refine .of_iff leads_cons ?_
      simp only [Guarded.atDomain, atDomain, seen.starts, starts_cons h', Span.advance_cons h',
        Option.bind_eq_bind, Option.bind_some]
      by_cases hat : c = 64
      · subst hat
        obtain ⟨seen₁, hnext⟩ := seen.tail h
        simp only [beq_self_eq_true, Bool.not_true, Bool.false_eq_true, if_false,
          (seen.cons h).2, Option.bind_some, true_and]
        exact .later hnext (domain_guarded h.cons.2 seen₁)
      · simp only [beq_eq_false_iff_ne.mpr hat, Bool.not_false, if_true]
        exact .of_not (fun hover => hat hover.1) (.malformed _)

theorem not_routeOverrun (h : m.Holds a bs) (hno : ¬ AtOverrun bs)
    (hnone : atDomain m ⟨a, bs.length⟩ = none) : ¬ RouteOverrun bs := by
  intro hover
  cases hover with
  | here hdomain => exact hno ⟨_, rfl, hdomain⟩
  | @later d bs hd size rest =>
      have hread : DomainRead d (44 :: bs) := hd.read (until_cons.mpr (by decide))
      rw [(atDomain_eq_some h).mpr ⟨d, _, rfl, hread, size, rfl⟩] at hnone
      cases hnone

theorem routeOverrun_read (hread : DomainRead p y) (size : p.length ≤ domainMaxSize)
    (hno : ¬ AtOverrun (64 :: (p ++ y))) : RouteOverrun (64 :: (p ++ y)) ↔ MoreOverrun y := by
  constructor
  · intro hover
    generalize heq : 64 :: (p ++ y) = bs at hover hno
    cases hover with
    | here hdomain => exact absurd ⟨_, rfl, hdomain⟩ hno
    | @later d bs hd size' rest =>
        have hread' : DomainRead d (44 :: bs) := hd.read (until_cons.mpr (by decide))
        obtain ⟨rfl, rfl⟩ := each_unique hread.each hread.until hread'.each hread'.until
          (List.cons.inj heq).2
        exact ⟨bs, rfl, rest⟩
  · rintro ⟨bs, rfl, hover⟩
    exact .later (hread.domain (List.cons_ne_nil 44 bs)) size hover

/-- What follows the first domain of a route. -/
theorem aDLLoop_guarded (h : m.Holds a bs) (seen : Seen m m' ⟨a, bs.length⟩)
    (hfuel : bs.length ≤ fuel) :
    Unless (MoreOverrun bs) ⟨a, bs.length⟩ id (Guarded.aDLLoop m fuel ⟨a, bs.length⟩)
      (aDLLoop m' fuel ⟨a, bs.length⟩) := by
  induction fuel generalizing a bs with
  | zero =>
      obtain rfl := List.length_eq_zero_iff.mp (Nat.le_zero.mp hfuel)
      exact .of_not not_leads_nil (.ended (.refl _))
  | succ fuel ih =>
      have h' := seen.holds h
      cases bs with
      | nil => exact .of_not not_leads_nil (.ended (.refl _))
      | cons c bs =>
          refine .of_iff leads_cons ?_
          simp only [Guarded.aDLLoop, aDLLoop, seen.starts, starts_cons h', Span.advance_cons h',
            Option.bind_eq_bind, Option.bind_some]
          by_cases hcomma : c = 44
          · subst hcomma
            obtain ⟨seen₁, hnext⟩ := seen.tail h
            have hfirst := atDomain_guarded h.cons.2 seen₁
            simp only [beq_self_eq_true, if_true, (seen.cons h).2, Option.bind_some, true_and]
            by_cases hat : AtOverrun bs
            · obtain ⟨bs', rfl, hdomain⟩ := id hat
              refine ⟨fun _ => ?_, fun hno => absurd (.here hdomain) hno⟩
              rw [hfirst.1 hat, Option.bind_none]
            · obtain ⟨hrun, hsuffix⟩ := hfirst.2 hat
              rw [hrun, Option.bind_some]
              cases hparsed : atDomain m' ⟨a + 1, bs.length⟩ with
              | none => exact .of_not (not_routeOverrun h'.cons.2 hat hparsed) (.malformed _)
              | some r =>
                  have hrest : SuffixOf _ _ := hnext.trans (hsuffix r hparsed)
                  obtain ⟨p, y, rfl, hread, size, rfl⟩ := (atDomain_eq_some h'.cons.2).mp hparsed
                  have hleft : y.length ≤ fuel := by
                    simp only [List.length_cons, List.length_append] at hfuel
                    omega
                  refine .of_iff (routeOverrun_read hread size hat) (.later hrest ?_)
                  exact ih h.cons.2.cons.2.append.2 (seen.suffix hrest) hleft
          · simp only [beq_eq_false_iff_ne.mpr hcomma, Bool.false_eq_true, if_false]
            exact .of_not (fun hover => hcomma hover.1) (.ended (.refl _))

theorem aDL_guarded (h : m.Holds a bs) (seen : Seen m m' ⟨a, bs.length⟩) :
    Unless (RouteOverrun bs) ⟨a, bs.length⟩ Result.rest (Guarded.aDL m ⟨a, bs.length⟩)
      (aDL m' ⟨a, bs.length⟩) := by
  have h' := seen.holds h
  have hfirst := atDomain_guarded h seen
  by_cases hat : AtOverrun bs
  · obtain ⟨bs', rfl, hdomain⟩ := id hat
    refine ⟨fun _ => ?_, fun hno => absurd (.here hdomain) hno⟩
    simp only [Guarded.aDL, hfirst.1 hat, Option.bind_eq_bind, Option.bind_none]
  · obtain ⟨hrun, hsuffix⟩ := hfirst.2 hat
    simp only [Guarded.aDL, aDL, hrun, Option.bind_eq_bind, Option.bind_some]
    cases hparsed : atDomain m' ⟨a, bs.length⟩ with
    | none => exact .of_not (not_routeOverrun h' hat hparsed) (.ended (.refl _))
    | some r =>
        have hrest : SuffixOf _ _ := hsuffix r hparsed
        obtain ⟨p, y, rfl, hread, size, rfl⟩ := (atDomain_eq_some h').mp hparsed
        have hleft : y.length ≤ (64 :: (p ++ y)).length := by
          simp only [List.length_cons, List.length_append]
          omega
        have hloop := aDLLoop_guarded h.cons.2.append.2 (seen.suffix hrest) hleft
        refine .of_iff (routeOverrun_read hread size hat) ⟨fun hover => ?_, fun hno => ?_⟩
        · simp only [domainResult, hloop.1 hover, Option.bind_none]
        · obtain ⟨hrun', hmore⟩ := hloop.2 hno
          simp only [domainResult, hrun', Option.bind_some]
          cases hparsed' : aDLLoop m' (64 :: (p ++ y)).length ⟨a + 1 + p.length, y.length⟩ with
          | none => exact .malformed _
          | some last =>
              have hlast : SuffixOf ⟨a, (64 :: (p ++ y)).length⟩ last :=
                hrest.trans (hmore last hparsed')
              have seen₁ := seen.suffix hlast
              simp only [seen₁.starts, Option.bind_some]
              cases hs : starts m' last (· == 58) with
              | false => exact .malformed _
              | true =>
                  obtain ⟨hadvance, hnext⟩ := seen₁.next hs
                  simp only [Bool.not_true, Bool.false_eq_true, if_false, hadvance,
                    Option.bind_some]
                  exact .ended (hlast.trans hnext)

end Routes

end Ervan.Parse
