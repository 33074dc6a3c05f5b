import Ervan.Common.Domain

/-!
# What `path` accepts

The paths of RFC 5321 as `parse::path` reads them: a source route that may be missing, a local
part that is a dot-string or a quoted string, and a domain. Every parser takes the longest
prefix it can, and `path` succeeds on exactly the spans that start with a path.
-/

namespace Ervan.Parse

open Grammar

/-- What stands between the quotes, and what it means. -/
inductive QuotedText : Bytes → Bytes → Prop
  | nil : QuotedText [] []
  | text {c : UInt8} {w v : Bytes} (h : isqtextSMTP (schar c) = true) (rest : QuotedText w v) :
      QuotedText (c :: w) (c :: v)
  | pair {c : UInt8} {w v : Bytes} (h : 32 ≤ c ∧ c ≤ 126) (rest : QuotedText w v) :
      QuotedText (92 :: c :: w) (c :: v)

/-- Atoms joined by dots. -/
def DotString (x : Bytes) : Prop := SepBy 46 (Stretch isatext) x

/-- A local part as it is written, and what it means. -/
inductive LocalPart : Bytes → Bytes → Prop
  | dotString {x : Bytes} (h : DotString x) : LocalPart x x
  | quoted {w v : Bytes} (h : QuotedText w v) : LocalPart (34 :: (w ++ [34])) v

def AtDomain (x : Bytes) : Prop := ∃ d, x = 64 :: d ∧ Domain d ∧ d.length ≤ domainMaxSize

/-- A source route: domains with `@` before each and commas between them, and a colon. -/
def Route (x : Bytes) : Prop := x = [] ∨ ∃ ds, SepBy 44 AtDomain ds ∧ x = ds ++ [58]

/-- The parts of a mailbox. -/
structure Mailbox (route loc value dom : Bytes) : Prop where
  route : Route route
  local_part : LocalPart loc value
  local_size : loc.length ≤ localPartMaxSize
  domain : Domain dom
  domain_size : dom.length ≤ domainMaxSize

section Scanners

variable {m : Mem} {a fuel : Nat} {bs x y : Bytes} {p q : UInt8 → Bool}

theorem skipWhile_each (h : m.Holds a (x ++ y)) (each : Each p x) (ends : Until p y)
    (hfuel : x.length ≤ fuel) :
    skipWhile m p fuel ⟨a, (x ++ y).length⟩ = ⟨a + x.length, y.length⟩ := by
  induction x generalizing a fuel with
  | nil =>
      cases fuel with
      | zero => rfl
      | succ fuel =>
          cases y with
          | nil => rfl
          | cons c y =>
              rw [List.nil_append] at h ⊢
              rw [skipWhile, starts_cons h, until_cons.mp ends]
              rfl
  | cons c x ih =>
      obtain ⟨hc, each⟩ := each_cons.mp each
      obtain ⟨fuel, rfl⟩ := Nat.exists_eq_succ_of_ne_zero (Nat.ne_zero_of_lt hfuel)
      rw [List.cons_append] at h ⊢
      rw [skipWhile, starts_cons h, hc, if_pos rfl, Span.advance_cons h,
        ih h.cons.2 each (Nat.le_of_succ_le_succ hfuel), List.length_cons]
      congr 1
      omega

/-- A character of one class and a stretch of another that contains it. -/
theorem run_each {c : UInt8} (h : m.Holds a (c :: x ++ y)) (hc : p c = true) (each : Each q x)
    (ends : Until q y) :
    (if !starts m ⟨a, (c :: x ++ y).length⟩ p then none
      else
        let rest := skipWhile m q (c :: x ++ y).length ((Span.mk a (c :: x ++ y).length).advance 1)
        some (Result.mk ((Span.mk a (c :: x ++ y).length).upTo rest) rest)) =
      some ⟨⟨a, (c :: x).length⟩, ⟨a + (c :: x).length, y.length⟩⟩ := by
  have hassoc : a + 1 + x.length = a + (c :: x).length := by
    rw [List.length_cons]
    omega
  rw [List.cons_append] at h
  have hskip := skipWhile_each h.cons.2 each ends (show x.length ≤ (c :: (x ++ y)).length by
    simp; omega)
  rw [List.cons_append, starts_cons h, hc]
  simp only [Bool.not_true, Bool.false_eq_true, if_false, Span.advance_cons h, hskip, hassoc]
  have hupTo := Span.upTo_append (x := c :: x) (y := y) h (c :: (x ++ y)).length y.length
  rw [hupTo]

/-- A run of characters that is taken as far as it goes. -/
theorem run_eq_some (h : m.Holds a bs) {r : Result} :
    (if !starts m ⟨a, bs.length⟩ p then none
      else
        let rest := skipWhile m q bs.length ((Span.mk a bs.length).advance 1)
        some (Result.mk ((Span.mk a bs.length).upTo rest) rest)) = some r ↔
      ∃ c x y, bs = c :: x ++ y ∧ p c = true ∧ Each q x ∧ Until q y ∧
        r = ⟨⟨a, (c :: x).length⟩, ⟨a + (c :: x).length, y.length⟩⟩ := by
  constructor
  · intro hr
    cases bs with
    | nil => cases hr
    | cons c bs =>
        obtain ⟨x, y, rfl, each, ends⟩ := exists_each q bs
        by_cases hc : p c = true
        · rw [← List.cons_append, run_each h hc each ends] at hr
          exact ⟨c, x, y, rfl, hc, each, ends, (Option.some.inj hr).symm⟩
        · rw [starts_cons h] at hr
          simp [hc] at hr
  · rintro ⟨c, x, y, rfl, hc, each, ends, rfl⟩
    exact run_each h hc each ends

theorem starts_until (h : m.Holds a bs) (ends : Until p bs) :
    starts m ⟨a, bs.length⟩ p = false := by
  cases bs with
  | nil => rfl
  | cons c bs => rw [starts_cons h, until_cons.mp ends]

theorem atom_stretch (h : m.Holds a (x ++ y)) (stretch : Stretch isatext x)
    (ends : Until isatext y) :
    atom m ⟨a, (x ++ y).length⟩ = some ⟨⟨a, x.length⟩, ⟨a + x.length, y.length⟩⟩ := by
  obtain ⟨c, x, rfl⟩ := List.exists_cons_of_ne_nil stretch.ne
  obtain ⟨hc, each⟩ := each_cons.mp stretch.each
  exact run_each h hc each ends

theorem atom_until (h : m.Holds a bs) (ends : Until isatext bs) :
    atom m ⟨a, bs.length⟩ = none := by
  rw [atom, starts_until h ends]
  rfl

end Scanners

section DotStrings

variable {m : Mem} {a fuel : Nat} {bs x y : Bytes}

/-- The characters that a dot-string goes on with. -/
def isDotAtext (c : UInt8) : Bool := isatext c || c == 46

theorem dotString_read (hx : DotString x) (h : m.Holds a (x ++ y)) (ends : Until isDotAtext y)
    (hfuel : x.length < fuel) :
    dotString m fuel ⟨a, (x ++ y).length⟩ = some ⟨a + x.length, y.length⟩ := by
  induction hx generalizing a fuel with
  | @one x stretch =>
      obtain ⟨fuel, rfl⟩ := Nat.exists_eq_succ_of_ne_zero (Nat.ne_zero_of_lt hfuel)
      have hatext : Until isatext y := ends.mono fun c hc => by simp [isDotAtext, hc]
      have hdot : Until (· == 46) y := ends.mono fun c hc => by
        rw [isDotAtext, hc, Bool.or_true]
      simp only [dotString, atom_stretch h stretch hatext, starts_until h.append.2 hdot,
        Bool.not_false, if_true]
  | @more x xs stretch rest ih =>
      obtain ⟨fuel, rfl⟩ := Nat.exists_eq_succ_of_ne_zero (Nat.ne_zero_of_lt hfuel)
      have hassoc : x ++ 46 :: xs ++ y = x ++ 46 :: (xs ++ y) := by simp
      have hne : 0 < x.length := List.length_pos_iff.mpr stretch.ne
      rw [List.length_append, List.length_cons] at hfuel
      rw [hassoc] at h ⊢
      have hrest := h.append.2
      have hend : a + x.length + 1 + xs.length = a + (x ++ 46 :: xs).length := by
        rw [List.length_append, List.length_cons]
        omega
      simp only [dotString, atom_stretch h stretch (until_cons.mpr (by decide)),
        starts_cons hrest, beq_self_eq_true, Bool.not_true, Bool.false_eq_true, if_false,
        Span.advance_cons hrest]
      rw [ih hrest.cons.2 (by omega), hend]

theorem dotString_eq_some (h : m.Holds a bs) (hfuel : bs.length < fuel) {rest : Span} :
    dotString m fuel ⟨a, bs.length⟩ = some rest ↔ ∃ x y, bs = x ++ y ∧ DotString x ∧
      Until isDotAtext y ∧ rest = ⟨a + x.length, y.length⟩ := by
  constructor
  · intro hrest
    induction fuel generalizing a bs with
    | zero => exact absurd hfuel (Nat.not_lt_zero _)
    | succ fuel ih =>
        obtain ⟨x, y, rfl, each, ends⟩ := exists_each isatext bs
        by_cases hx : x = []
        · subst hx
          rw [dotString, atom_until h ends] at hrest
          cases hrest
        · have stretch : Stretch isatext x := ⟨hx, each⟩
          have hatom := atom_stretch h stretch ends
          simp only [dotString, hatom] at hrest
          cases y with
          | nil =>
              cases hrest
              exact ⟨x, [], rfl, .one stretch, until_nil, rfl⟩
          | cons c y =>
              rw [starts_cons h.append.2] at hrest
              by_cases hdot : c = 46
              · subst hdot
                simp only [beq_self_eq_true, Bool.not_true, Bool.false_eq_true, if_false,
                  Span.advance_cons h.append.2] at hrest
                rw [List.length_append, List.length_cons] at hfuel
                obtain ⟨x', y', rfl, hdots, hends, rfl⟩ :=
                  ih h.append.2.cons.2 (by omega) hrest
                refine ⟨x ++ 46 :: x', y', by simp, .more stretch hdots, hends, ?_⟩
                rw [List.length_append, List.length_cons]
                congr 1
                omega
              · have hother : (c == 46) = false := by simpa using hdot
                simp only [hother, Bool.not_false, if_true, Option.some.injEq] at hrest
                refine ⟨x, c :: y, rfl, .one stretch, ?_, hrest.symm⟩
                rw [until_cons, isDotAtext, until_cons.mp ends, hother]
                rfl
  · rintro ⟨x, y, rfl, hx, ends, rfl⟩
    rw [List.length_append] at hfuel
    exact dotString_read hx h ends (by omega)

end DotStrings

section QuotedStrings

variable {m : Mem} {a fuel : Nat} {bs w v x y : Bytes}

theorem quotable {c : UInt8} (h : 32 ≤ c ∧ c ≤ 126) :
    (decide (schar c < 32) || decide (schar c > 126)) = false :=
  (forall_byte (p := fun c => 32 ≤ c ∧ c ≤ 126 →
    (decide (schar c < 32) || decide (schar c > 126)) = false) (by decide +kernel) c) h

theorem quotable_of {c : UInt8} (h : (decide (schar c < 32) || decide (schar c > 126)) = false) :
    32 ≤ c ∧ c ≤ 126 :=
  (forall_byte (p := fun c => (decide (schar c < 32) || decide (schar c > 126)) = false →
    32 ≤ c ∧ c ≤ 126) (by decide +kernel) c) h

theorem qtext_ne {c : UInt8} (h : isqtextSMTP (schar c) = true) : c ≠ 34 ∧ c ≠ 92 := by
  constructor
  · rintro rfl
    exact absurd h (by decide)
  · rintro rfl
    exact absurd h (by decide)

theorem quotedLoop_read (text : QuotedText w v) (h : m.Holds a (w ++ y))
    (ends : Until (· != 34) y) (hfuel : w.length ≤ fuel) :
    quotedLoop m fuel ⟨a, (w ++ y).length⟩ = some ⟨a + w.length, y.length⟩ := by
  induction text generalizing a fuel with
  | nil =>
      cases fuel with
      | zero => rfl
      | succ fuel =>
          rw [List.nil_append] at h ⊢
          rw [quotedLoop, starts_until h ends]
          rfl
  | @text c w v hc rest ih =>
      obtain ⟨fuel, rfl⟩ := Nat.exists_eq_succ_of_ne_zero (Nat.ne_zero_of_lt hfuel)
      obtain ⟨hquote, hescape⟩ := qtext_ne hc
      have hbyte : m a = c := Mem.Holds.next (x := []) h
      rw [List.cons_append] at h ⊢
      have hrest := ih h.cons.2 (Nat.le_of_succ_le_succ hfuel)
      have hend : a + 1 + w.length = a + (c :: w).length := by
        rw [List.length_cons]
        omega
      simp only [quotedLoop, starts_cons h, hbyte, Span.advance_cons h, hrest, hend]
      simp [hquote, hescape, hc]
  | @pair c w v hc rest ih =>
      obtain ⟨fuel, rfl⟩ := Nat.exists_eq_succ_of_ne_zero (Nat.ne_zero_of_lt hfuel)
      rw [List.cons_append, List.cons_append] at h ⊢
      have hbyte := h.cons.2.cons.1
      have hfuel' : w.length ≤ fuel := by
        simp only [List.length_cons] at hfuel
        omega
      have hrest := ih h.cons.2.cons.2 hfuel'
      have hend : a + 1 + 1 + w.length = a + (92 :: c :: w).length := by
        simp only [List.length_cons]
        omega
      simp only [quotedLoop, starts_cons h, h.cons.1, Span.advance_cons h, hbyte, quotable hc,
        Span.advance_cons h.cons.2, hrest, hend]
      rfl

/-- The NUL behind the span stops the loop when its last byte is a backslash. -/
theorem quotedLoop_eq_some (h : m.Holds a bs) (hnul : m (a + bs.length) = nul)
    (hfuel : bs.length ≤ fuel) {rest : Span} :
    quotedLoop m fuel ⟨a, bs.length⟩ = some rest ↔ ∃ w v y, bs = w ++ y ∧ QuotedText w v ∧
      Until (· != 34) y ∧ rest = ⟨a + w.length, y.length⟩ := by
  constructor
  · intro hrest
    induction hn : bs.length using Nat.strongRecOn generalizing a bs fuel with
    | ind n ih =>
        subst hn
        cases bs with
        | nil =>
            refine ⟨[], [], [], rfl, .nil, until_nil, ?_⟩
            cases fuel <;> exact (Option.some.inj hrest).symm
        | cons c bs =>
            obtain ⟨fuel, rfl⟩ :=
              Nat.exists_eq_succ_of_ne_zero (Nat.ne_zero_of_lt hfuel)
            have hfuel' : bs.length ≤ fuel := Nat.le_of_succ_le_succ hfuel
            have hnul' : m (a + 1 + bs.length) = nul := by
              rw [← hnul, List.length_cons]
              congr 1
              omega
            simp only [quotedLoop, starts_cons h, h.cons.1, Span.advance_cons h] at hrest
            by_cases hquote : c = 34
            · subst hquote
              cases hrest
              exact ⟨[], [], 34 :: bs, rfl, .nil, until_cons.mpr rfl, rfl⟩
            · simp only [bne_iff_ne.mpr hquote, if_true] at hrest
              by_cases hescape : c = 92
              · subst hescape
                simp only [beq_self_eq_true, if_true] at hrest
                cases bs with
                | nil =>
                    rw [List.length_nil, Nat.add_zero] at hnul'
                    rw [hnul'] at hrest
                    cases hrest
                | cons d bs =>
                    rw [h.cons.2.cons.1] at hrest
                    by_cases hd : (decide (schar d < 32) || decide (schar d > 126)) = true
                    · rw [if_pos hd] at hrest
                      cases hrest
                    · rw [if_neg hd, Span.advance_cons h.cons.2] at hrest
                      have hnul'' : m (a + 1 + 1 + bs.length) = nul := by
                        rw [← hnul', List.length_cons]
                        congr 1
                        omega
                      have hless : bs.length < (92 :: d :: bs).length := by
                        simp only [List.length_cons]
                        omega
                      obtain ⟨w, v, y, rfl, text, ends, rfl⟩ := ih bs.length hless
                        h.cons.2.cons.2 hnul'' (Nat.le_of_succ_le hfuel') hrest rfl
                      refine ⟨92 :: d :: w, d :: v, y, rfl,
                        .pair (quotable_of (Bool.eq_false_of_not_eq_true hd)) text, ends, ?_⟩
                      simp only [List.length_cons]
                      congr 1
                      omega
              · simp only [beq_eq_false_iff_ne.mpr hescape, Bool.false_eq_true, if_false] at hrest
                by_cases hc : isqtextSMTP (schar c) = true
                · simp only [hc, Bool.not_true, Bool.false_eq_true, if_false] at hrest
                  obtain ⟨w, v, y, rfl, text, ends, rfl⟩ := ih bs.length
                    (by simp) h.cons.2 hnul' hfuel' hrest rfl
                  refine ⟨c :: w, c :: v, y, rfl, .text hc text, ends, ?_⟩
                  simp only [List.length_cons]
                  congr 1
                  omega
                · simp [hc] at hrest
  · rintro ⟨w, v, y, rfl, text, ends, rfl⟩
    rw [List.length_append] at hfuel
    exact quotedLoop_read text h ends (by omega)

theorem quotedStringFuel_read (h : m.Holds a (34 :: (w ++ 34 :: y))) (text : QuotedText w v)
    (hfuel : w.length ≤ fuel) :
    quotedStringFuel m fuel ⟨a, (34 :: (w ++ 34 :: y)).length⟩ =
      some ⟨⟨a, w.length + 2⟩, ⟨a + (w.length + 2), y.length⟩⟩ := by
  have hloop := quotedLoop_read text h.cons.2 (until_cons.mpr rfl) hfuel
  have hclose := h.cons.2.append.2
  have hassoc : 34 :: (w ++ 34 :: y) = (34 :: (w ++ [34])) ++ y := by simp
  have hlength : (34 :: (w ++ [34])).length = w.length + 2 := by simp
  have hend : a + 1 + w.length + 1 = a + (34 :: (w ++ [34])).length := by
    rw [hlength]
    omega
  simp only [quotedStringFuel, starts_cons h, beq_self_eq_true, Bool.not_true, Bool.false_eq_true,
    if_false, Span.advance_cons h, hloop, starts_cons hclose, Span.advance_cons hclose, hend]
  rw [hassoc] at h
  rw [Span.upTo_append h, hlength]

theorem quotedStringFuel_eq_some (h : m.Holds a bs) (hnul : m (a + bs.length) = nul)
    (hfuel : bs.length ≤ fuel) {r : Result} :
    quotedStringFuel m fuel ⟨a, bs.length⟩ = some r ↔ ∃ w v y, bs = 34 :: (w ++ 34 :: y) ∧
      QuotedText w v ∧ r = ⟨⟨a, w.length + 2⟩, ⟨a + (w.length + 2), y.length⟩⟩ := by
  constructor
  · intro hr
    obtain ⟨w, v, y, rfl, text⟩ : ∃ w v y, bs = 34 :: (w ++ 34 :: y) ∧ QuotedText w v := by
      cases bs with
      | nil => cases hr
      | cons c bs =>
          have hnul' : m (a + 1 + bs.length) = nul := by
            rw [← hnul, List.length_cons]
            congr 1
            omega
          rw [quotedStringFuel, starts_cons h, Span.advance_cons h] at hr
          by_cases hopen : c = 34
          · subst hopen
            simp only [beq_self_eq_true, Bool.not_true, Bool.false_eq_true, if_false] at hr
            cases hloop : quotedLoop m fuel ⟨a + 1, bs.length⟩ with
            | none =>
                rw [hloop] at hr
                cases hr
            | some rest =>
                obtain ⟨w, v, y, rfl, text, ends, rfl⟩ :=
                  (quotedLoop_eq_some h.cons.2 hnul' (Nat.le_of_succ_le hfuel)).mp hloop
                rw [hloop] at hr
                cases y with
                | nil => cases hr
                | cons d y =>
                    have hd : d = 34 := by simpa using until_cons.mp ends
                    exact ⟨w, v, y, by rw [hd], text⟩
          · simp [hopen] at hr
    have hw : w.length ≤ fuel := by
      simp at hfuel
      omega
    rw [quotedStringFuel_read h text hw] at hr
    exact ⟨w, v, y, rfl, text, (Option.some.inj hr).symm⟩
  · rintro ⟨w, v, y, rfl, text, rfl⟩
    have hw : w.length ≤ fuel := by
      simp at hfuel
      omega
    exact quotedStringFuel_read h text hw

/-- `quoted_string` succeeds on a quoted string and stops behind its closing quote. -/
theorem quotedString_eq_some (h : m.Holds a bs) (hnul : m (a + bs.length) = nul) {r : Result} :
    quotedString m ⟨a, bs.length⟩ = some r ↔ ∃ w v y, bs = 34 :: (w ++ 34 :: y) ∧
      QuotedText w v ∧ r = ⟨⟨a, w.length + 2⟩, ⟨a + (w.length + 2), y.length⟩⟩ := by
  have hfuel : bs.length ≤ bs.length + 2 ^ 64 := Nat.le_add_right _ _
  unfold quotedString
  dsimp only
  generalize bs.length + 2 ^ 64 = fuel at hfuel ⊢
  exact quotedStringFuel_eq_some h hnul hfuel

end QuotedStrings

section LocalParts

variable {m : Mem} {a : Nat} {bs w v x y : Bytes}

/-- What `local_part` takes, in front of the rest of the span. -/
inductive LocalRead : Bytes → Bytes → Bytes → Prop
  | dotString {x y : Bytes} (h : DotString x) (ends : Until isDotAtext y) : LocalRead x x y
  | quoted {w v y : Bytes} (h : QuotedText w v) : LocalRead (34 :: (w ++ [34])) v y

theorem LocalRead.localPart (h : LocalRead x v y) : LocalPart x v := by
  cases h with
  | dotString h ends => exact .dotString h
  | quoted h => exact .quoted h

/-- A local part that an `@` ends. -/
theorem LocalPart.read (h : LocalPart x v) (ends : Until isDotAtext y) : LocalRead x v y := by
  cases h with
  | dotString h => exact .dotString h ends
  | quoted h => exact .quoted h

/-- Every second byte of a quoted pair is copied, and every other byte that is not a quote. -/
theorem unquote_text (text : QuotedText w v) : unquote (w ++ [34]) = v := by
  induction text with
  | nil => rfl
  | @text c w v hc rest ih =>
      obtain ⟨d, tail, htail⟩ := List.exists_cons_of_ne_nil
        (show w ++ [34] ≠ [] from List.append_ne_nil_of_right_ne_nil _ (by simp))
      have hescape : (c == 92) = false := beq_eq_false_iff_ne.mpr (qtext_ne hc).2
      rw [List.cons_append, htail, unquote, hescape, if_neg (by simp), ← htail, ih]
  | @pair c w v hc rest ih =>
      rw [List.cons_append, List.cons_append, unquote, if_pos (by rfl), ih]

theorem dotString_head (h : DotString x) : ∃ c x', x = c :: x' ∧ isatext c = true := by
  refine SepBy.head h fun x stretch => ?_
  obtain ⟨c, x', rfl⟩ := List.exists_cons_of_ne_nil stretch.ne
  exact ⟨c, x', rfl, (each_cons.mp stretch.each).1⟩

/-- The result for a local part of these bytes with this meaning, with so many left. -/
def localResult (a : Nat) (x v : Bytes) (left : Nat) : BufferedResult :=
  ⟨⟨⟨a, x.length⟩, ⟨a + x.length, left⟩⟩, v⟩

theorem quotedLocalPart_eq (h : m.Holds a (34 :: (w ++ [34]) ++ y)) (text : QuotedText w v) :
    quotedLocalPart m ⟨⟨a, w.length + 2⟩, ⟨a + (w.length + 2), y.length⟩⟩ =
      if localPartMaxSize < w.length + 2 then none
      else some (localResult a (34 :: (w ++ [34])) v y.length) := by
  have hlength : (34 :: (w ++ [34])).length = w.length + 2 := by simp
  have hupTo := Span.upTo_append h (w.length + 2) y.length
  have hread := h.append.1.read
  rw [hlength] at hupTo hread
  simp only [quotedLocalPart, hupTo, hread, List.drop_succ_cons, List.drop_zero,
    unquote_text text, localResult, hlength]
  rfl

theorem localPart_quoted (h : m.Holds a (34 :: (w ++ [34]) ++ y)) (text : QuotedText w v)
    (hnul : m (a + (34 :: (w ++ [34]) ++ y).length) = nul) :
    localPart m ⟨a, (34 :: (w ++ [34]) ++ y).length⟩ =
      if localPartMaxSize < w.length + 2 then none
      else some (localResult a (34 :: (w ++ [34])) v y.length) := by
  have hquoted := (quotedString_eq_some h hnul).mpr ⟨w, v, y, by simp, text, rfl⟩
  simp only [localPart, hquoted, quotedLocalPart_eq h text]

/-- A local part that does not start with a quote is a dot-string. -/
theorem localPart_unquoted (h : m.Holds a (x ++ y)) (hnul : m (a + (x ++ y).length) = nul)
    (hx : DotString x) (ends : Until isDotAtext y) :
    localPart m ⟨a, (x ++ y).length⟩ =
      if localPartMaxSize < x.length then none else some (localResult a x x y.length) := by
  have hquoted : quotedString m ⟨a, (x ++ y).length⟩ = none := by
    rw [Option.eq_none_iff_forall_not_mem]
    intro r hr
    obtain ⟨w, v, y', heq, -⟩ := (quotedString_eq_some h hnul).mp hr
    obtain ⟨c, x', rfl, hc⟩ := dotString_head hx
    have hhead : c = 34 := (List.cons.inj heq).1
    rw [hhead] at hc
    exact absurd hc (by decide)
  have hfuel : x.length < (x ++ y).length + 1 := by
    rw [List.length_append]
    omega
  simp only [localPart, hquoted, dotString_read hx h ends hfuel, Span.upTo_append h, sized,
    Span.advance_append h, h.append.1.read, localResult]
  rfl

/-- `local_part` succeeds on a local part of at most 64 bytes. -/
theorem localPart_eq_some (h : m.Holds a bs) (hnul : m (a + bs.length) = nul)
    {r : BufferedResult} :
    localPart m ⟨a, bs.length⟩ = some r ↔ ∃ x v y, bs = x ++ y ∧ LocalRead x v y ∧
      x.length ≤ localPartMaxSize ∧ r = localResult a x v y.length := by
  constructor
  · intro hr
    cases hquoted : quotedString m ⟨a, bs.length⟩ with
    | some quot =>
        obtain ⟨w, v, y, heq, text, rfl⟩ := (quotedString_eq_some h hnul).mp hquoted
        obtain rfl : bs = 34 :: (w ++ [34]) ++ y := by simp [heq]
        rw [localPart_quoted h text hnul] at hr
        split at hr
        · cases hr
        · cases hr
          exact ⟨_, v, y, rfl, .quoted text, by simp; omega, rfl⟩
    | none =>
        cases hdots : dotString m (bs.length + 1) ⟨a, bs.length⟩ with
        | none => simp [localPart, hquoted, hdots] at hr
        | some rest =>
            obtain ⟨x, y, rfl, hx, ends, -⟩ :=
              (dotString_eq_some h (Nat.lt_succ_self _)).mp hdots
            rw [localPart_unquoted h hnul hx ends] at hr
            split at hr
            · cases hr
            · cases hr
              exact ⟨x, x, y, rfl, .dotString hx ends, by omega, rfl⟩
  · rintro ⟨x, v, y, rfl, hread, hsize, rfl⟩
    cases hread with
    | dotString hx ends =>
        rw [localPart_unquoted h hnul hx ends, if_neg (by omega)]
    | @quoted w _ _ text =>
        have hlength : (34 :: (w ++ [34])).length = w.length + 2 := by simp
        rw [localPart_quoted h text hnul, if_neg (by omega)]

end LocalParts

section Routes

variable {m : Mem} {a fuel : Nat} {bs p x y : Bytes}

theorem atDomain_eq_some (h : m.Holds a bs) {r : BufferedResult} :
    atDomain m ⟨a, bs.length⟩ = some r ↔ ∃ p y, bs = 64 :: (p ++ y) ∧ DomainRead p y ∧
      p.length ≤ domainMaxSize ∧ r = domainResult (a + 1) p y.length := by
  cases bs with
  | nil => simp [atDomain]
  | cons c bs =>
      rw [atDomain, starts_cons h, Span.advance_cons h]
      by_cases hat : c = 64
      · subst hat
        simp only [beq_self_eq_true, Bool.not_true, Bool.false_eq_true, if_false,
          domain_eq_some h.cons.2, List.cons.injEq, true_and]
      · simp [hat]

/-- The domains of a route that a colon ends, from the first on. -/
theorem route_read (hx : SepBy 44 AtDomain x) (h : m.Holds a (x ++ 58 :: y)) :
    ∃ first, atDomain m ⟨a, (x ++ 58 :: y).length⟩ = some first ∧ ∀ fuel, x.length ≤ fuel →
      aDLLoop m fuel first.rest = some ⟨a + x.length, (58 :: y).length⟩ := by
  induction hx generalizing a with
  | @one x hx =>
      obtain ⟨d, rfl, hd, hsize⟩ := hx
      have hread : DomainRead d (58 :: y) := hd.read (until_cons.mpr (by decide))
      refine ⟨_, (atDomain_eq_some h).mpr ⟨d, 58 :: y, rfl, hread, hsize, rfl⟩, ?_⟩
      intro fuel _
      have hrest := h.append.2
      have hend : a + 1 + d.length = a + (64 :: d).length := by
        rw [List.length_cons]
        omega
      simp only [domainResult, hend]
      cases fuel with
      | zero => rfl
      | succ fuel =>
          rw [aDLLoop, starts_cons hrest]
          rfl
  | @more x xs hx rest ih =>
      obtain ⟨d, rfl, hd, hsize⟩ := hx
      have hassoc : 64 :: d ++ 44 :: xs ++ 58 :: y = 64 :: d ++ 44 :: (xs ++ 58 :: y) := by simp
      rw [hassoc] at h ⊢
      have hread : DomainRead d (44 :: (xs ++ 58 :: y)) := hd.read (until_cons.mpr (by decide))
      refine ⟨_, (atDomain_eq_some h).mpr ⟨d, _, rfl, hread, hsize, rfl⟩, ?_⟩
      intro fuel hfuel
      have hrest := h.append.2
      have hend : a + 1 + d.length = a + (64 :: d).length := by
        rw [List.length_cons]
        omega
      simp only [List.length_append, List.length_cons] at hfuel
      obtain ⟨fuel, rfl⟩ := Nat.exists_eq_succ_of_ne_zero (show fuel ≠ 0 by omega)
      obtain ⟨first, hfirst, hloop⟩ := ih hrest.cons.2
      simp only [domainResult, hend, aDLLoop, starts_cons hrest, beq_self_eq_true, if_true,
        Span.advance_cons hrest, hfirst, hloop fuel (by omega)]
      congr 2
      simp only [List.length_append, List.length_cons]
      omega

/-- What the loop over the further domains has taken when it stops at a colon. -/
theorem aDLLoop_colon (h : m.Holds a bs) (hfuel : bs.length ≤ fuel) {rest : Span}
    (hrest : aDLLoop m fuel ⟨a, bs.length⟩ = some rest)
    (hcolon : starts m rest (· == 58) = true) :
    ∃ more y, bs = more ++ 58 :: y ∧ (more = [] ∨ ∃ ds, more = 44 :: ds ∧ SepBy 44 AtDomain ds) ∧
      rest = ⟨a + more.length, (58 :: y).length⟩ := by
  induction fuel generalizing a bs with
  | zero =>
      obtain rfl := List.length_eq_zero_iff.mp (Nat.le_zero.mp hfuel)
      cases hrest
      cases hcolon
  | succ fuel ih =>
      cases bs with
      | nil =>
          cases hrest
          cases hcolon
      | cons c bs =>
          rw [aDLLoop, starts_cons h, Span.advance_cons h] at hrest
          by_cases hcomma : c = 44
          · subst hcomma
            simp only [beq_self_eq_true, if_true] at hrest
            cases hdomain : atDomain m ⟨a + 1, bs.length⟩ with
            | none =>
                rw [hdomain] at hrest
                cases hrest
            | some r =>
                obtain ⟨d, y, rfl, hread, hsize, rfl⟩ := (atDomain_eq_some h.cons.2).mp hdomain
                rw [hdomain] at hrest
                have hy : m.Holds (a + 1 + 1 + d.length) y := h.cons.2.cons.2.append.2
                have hfuel' : y.length ≤ fuel := by
                  simp only [List.length_cons, List.length_append] at hfuel
                  omega
                obtain ⟨more, y', rfl, hmore, rfl⟩ := ih hy hfuel' hrest
                have hd : AtDomain (64 :: d) := ⟨d, rfl, hread.domain (by simp), hsize⟩
                refine ⟨44 :: 64 :: d ++ more, y', by simp, Or.inr ⟨64 :: d ++ more, rfl, ?_⟩, ?_⟩
                · rcases hmore with rfl | ⟨ds, rfl, hds⟩
                  · rw [List.append_nil]
                    exact .one hd
                  · exact .more hd hds
                · simp only [List.length_append, List.length_cons]
                  congr 1
                  omega
          · have hother : (c == 44) = false := beq_eq_false_iff_ne.mpr hcomma
            simp only [hother, Bool.false_eq_true, if_false] at hrest
            cases hrest
            rw [starts_cons h] at hcolon
            obtain rfl := beq_iff_eq.mp hcolon
            exact ⟨[], bs, rfl, Or.inl rfl, rfl⟩

/-- `a_d_l` takes a source route, or nothing where no domain follows an `@`. -/
theorem aDL_eq_some (h : m.Holds a bs) {r : Result} :
    aDL m ⟨a, bs.length⟩ = some r ↔
      (atDomain m ⟨a, bs.length⟩ = none ∧ r = ⟨.null, ⟨a, bs.length⟩⟩) ∨
      ∃ ds y, bs = ds ++ 58 :: y ∧ SepBy 44 AtDomain ds ∧
        r = ⟨.null, ⟨a + ds.length + 1, y.length⟩⟩ := by
  constructor
  · intro hr
    unfold aDL at hr
    cases hfirst : atDomain m ⟨a, bs.length⟩ with
    | none =>
        rw [hfirst] at hr
        exact Or.inl ⟨rfl, (Option.some.inj hr).symm⟩
    | some first =>
        obtain ⟨d, y, rfl, hread, hsize, rfl⟩ := (atDomain_eq_some h).mp hfirst
        rw [hfirst] at hr
        dsimp only at hr
        cases hloop : aDLLoop m (64 :: (d ++ y)).length (domainResult (a + 1) d y.length).rest with
        | none =>
            rw [hloop] at hr
            cases hr
        | some rest =>
            rw [hloop] at hr
            dsimp only at hr
            split at hr
            · cases hr
            · rename_i hcolon
              have hy : m.Holds (a + 1 + d.length) y := h.cons.2.append.2
              have hfuel : y.length ≤ (64 :: (d ++ y)).length := by
                simp only [List.length_cons, List.length_append]
                omega
              obtain ⟨more, y', rfl, hmore, rfl⟩ :=
                aDLLoop_colon hy hfuel hloop (by simpa using hcolon)
              have hd : AtDomain (64 :: d) := ⟨d, rfl, hread.domain (by simp), hsize⟩
              have hend : a + 1 + d.length + more.length + 1 =
                  a + (64 :: d ++ more).length + 1 := by
                simp only [List.length_append, List.length_cons]
                omega
              rw [Span.advance_cons hy.append.2, hend] at hr
              refine Or.inr ⟨64 :: d ++ more, y', by simp, ?_, (Option.some.inj hr).symm⟩
              rcases hmore with rfl | ⟨ds, rfl, hds⟩
              · rw [List.append_nil]
                exact .one hd
              · exact .more hd hds
  · rintro (⟨hnone, rfl⟩ | ⟨ds, y, rfl, hds, rfl⟩)
    · rw [aDL, hnone]
    · obtain ⟨first, hfirst, hloop⟩ := route_read hds h
      have hfuel : ds.length ≤ (ds ++ 58 :: y).length := by
        rw [List.length_append]
        omega
      simp only [aDL, hfirst, hloop _ hfuel, starts_cons h.append.2, beq_self_eq_true,
        Bool.not_true, Bool.false_eq_true, if_false, Span.advance_cons h.append.2]

end Routes

end Ervan.Parse
