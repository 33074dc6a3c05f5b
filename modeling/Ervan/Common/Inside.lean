import Ervan.Common.Guarded
import Ervan.Common.Path

/-!
# Parsers and the bytes around their span

A run of a parser that stays inside its span depends on the bytes of the span only, and what it
leaves is a suffix of it. The parsers that look at no byte but the first of what is left to them
stay inside every span, but for one thing: a backslash that is the last byte of the span, in a
quoted string that is open there.
-/

namespace Ervan.Parse

open Grammar

/-- What is left of a span, and its end is the end of the span. -/
structure SuffixOf (sp rest : Span) : Prop where
  start_le : sp.start ≤ rest.start
  total : rest.start + rest.len = sp.start + sp.len

/-- The memories agree on the span, and it is not longer than memory. -/
structure Seen (m m' : Mem) (sp : Span) : Prop where
  same : ∀ i, sp.start ≤ i → i < sp.start + sp.len → m i = m' i
  len : sp.len < 2 ^ 64

/-- The run stays inside the span, it returns what the parser returns, and what it leaves is a
suffix of the span. -/
def Inside {R : Type} (sp : Span) (rest : R → Span) (run : Option (Option R)) (parsed : Option R) :
    Prop :=
  run = some parsed ∧ ∀ r, parsed = some r → SuffixOf sp (rest r)

/-- The run leaves the span in this case and stays inside otherwise. -/
def Unless (bad : Prop) {R : Type} (sp : Span) (rest : R → Span) (run : Option (Option R))
    (parsed : Option R) : Prop :=
  (bad → run = none) ∧ (¬ bad → Inside sp rest run parsed)

section Accesses

variable {m m' : Mem} {sp rest : Span} {p : UInt8 → Bool}

theorem SuffixOf.refl (sp : Span) : SuffixOf sp sp := ⟨Nat.le_refl _, rfl⟩

theorem SuffixOf.trans {mid : Span} (h : SuffixOf sp mid) (h' : SuffixOf mid rest) :
    SuffixOf sp rest := ⟨Nat.le_trans h.start_le h'.start_le, h'.total.trans h.total⟩

theorem Seen.suffix (h : Seen m m' sp) (hrest : SuffixOf sp rest) : Seen m m' rest := by
  have hle := hrest.start_le
  have htotal := hrest.total
  have hlen := h.len
  exact ⟨fun i hlo hhi => h.same i (by omega) (by omega), by omega⟩

theorem SuffixOf.advance (hlen : sp.len < 2 ^ 64) {n : Nat} (hn : n ≤ sp.len) :
    SuffixOf sp (sp.advance n) := by
  have hadvance := Span.advance_len hn (by omega)
  exact ⟨Nat.le_add_right _ _, by rw [Span.advance_start, hadvance]; omega⟩

theorem SuffixOf.upTo_len (h : SuffixOf sp rest) (hlen : sp.len < 2 ^ 64) :
    (sp.upTo rest).len = rest.start - sp.start ∧ rest.start - sp.start ≤ sp.len := by
  have hle := h.start_le
  have htotal := h.total
  refine ⟨?_, by omega⟩
  simp only [Span.upTo]
  rw [← Int.ofNat_sub hle]
  exact sizeT_natCast (by omega)

theorem Guarded.advance_eq {n : Nat} (hn : n ≤ sp.len) :
    Guarded.advance sp n = some (sp.advance n) := if_pos hn

theorem Seen.get (h : Seen m m' sp) {i : Nat} (hi : i < sp.len) (hint : i < 2 ^ 31) :
    Guarded.get m sp i = some (m' (sp.start + i)) := by
  have hindex : int32 i = i := int32_natCast hint
  rw [Guarded.get, hindex, if_pos (by omega), Int.toNat_natCast,
    h.same _ (Nat.le_add_right _ _) (by omega)]

theorem Seen.starts (h : Seen m m' sp) (p : UInt8 → Bool) :
    Guarded.starts m sp p = some (Parse.starts m' sp p) := by
  unfold Guarded.starts Guarded.test Parse.starts
  split
  · rename_i hpos
    rw [h.get hpos (by decide), Option.map_some, decide_eq_true hpos, Bool.true_and, Nat.add_zero]
  · rename_i hpos
    rw [decide_eq_false hpos, Bool.false_and]

theorem pos_of_starts (h : Parse.starts m sp p = true) : 1 ≤ sp.len := by
  simp only [Parse.starts, Bool.and_eq_true, decide_eq_true_eq] at h
  exact h.1

/-- The span behind a byte that has been looked at. -/
theorem Seen.next (h : Seen m m' sp) (hs : Parse.starts m' sp p = true) :
    Guarded.advance sp 1 = some (sp.advance 1) ∧ SuffixOf sp (sp.advance 1) :=
  ⟨Guarded.advance_eq (pos_of_starts hs), .advance h.len (pos_of_starts hs)⟩

variable {R : Type} {run : Option (Option R)} {parsed : Option R} {left : R → Span}

/-- A run that goes on behind the first bytes. -/
theorem Inside.later {mid : Span} (hmid : SuffixOf sp mid) (h : Inside mid left run parsed) :
    Inside sp left run parsed := ⟨h.1, fun r hr => hmid.trans (h.2 r hr)⟩

theorem Inside.malformed (left : R → Span) : Inside sp left (some none) none :=
  ⟨rfl, fun r hr => by cases hr⟩

theorem Inside.ended {r : R} (h : SuffixOf sp (left r)) : Inside sp left (some (some r)) (some r) :=
  ⟨rfl, fun _ hr => Option.some.inj hr ▸ h⟩

theorem Unless.of_not {bad : Prop} (hno : ¬ bad) (h : Inside sp left run parsed) :
    Unless bad sp left run parsed := ⟨fun hbad => absurd hbad hno, fun _ => h⟩

theorem Unless.later {bad : Prop} {mid : Span} (hmid : SuffixOf sp mid)
    (h : Unless bad mid left run parsed) : Unless bad sp left run parsed :=
  ⟨h.1, fun hno => (h.2 hno).later hmid⟩

theorem Unless.of_iff {bad bad' : Prop} (hiff : bad ↔ bad') (h : Unless bad' sp left run parsed) :
    Unless bad sp left run parsed :=
  ⟨fun hbad => h.1 (hiff.mp hbad), fun hno => h.2 (hno ∘ hiff.mpr)⟩

end Accesses

section Atoms

variable {m m' : Mem} {sp rest : Span} {p q : UInt8 → Bool}

theorem skipWhile_inside (h : Seen m m' sp) (p : UInt8 → Bool) (fuel : Nat) :
    Guarded.skipWhile m p fuel sp = some (skipWhile m' p fuel sp) ∧
      SuffixOf sp (skipWhile m' p fuel sp) := by
  induction fuel generalizing sp with
  | zero => exact ⟨rfl, .refl sp⟩
  | succ fuel ih =>
      simp only [Guarded.skipWhile, skipWhile, h.starts, Option.bind_eq_bind, Option.bind_some]
      cases hs : Parse.starts m' sp p with
      | false => exact ⟨rfl, .refl sp⟩
      | true =>
          obtain ⟨hadvance, hnext⟩ := h.next hs
          obtain ⟨heq, hsuffix⟩ := ih (h.suffix hnext)
          simp only [if_true, hadvance, Option.bind_some]
          exact ⟨heq, hnext.trans hsuffix⟩

theorem atom_inside (h : Seen m m' sp) :
    Inside sp Result.rest (Guarded.atom m sp) (atom m' sp) := by
  simp only [Guarded.atom, atom, h.starts, Option.bind_eq_bind, Option.bind_some]
  cases hs : Parse.starts m' sp isatext with
  | false => exact .malformed _
  | true =>
      obtain ⟨hadvance, hnext⟩ := h.next hs
      obtain ⟨heq, hsuffix⟩ := skipWhile_inside (h.suffix hnext) isatext sp.len
      simp only [Bool.not_true, Bool.false_eq_true, if_false, hadvance, heq, Option.bind_some]
      exact .ended (hnext.trans hsuffix)

theorem dotString_inside (h : Seen m m' sp) (fuel : Nat) :
    Inside sp id (Guarded.dotString m fuel sp) (dotString m' fuel sp) := by
  induction fuel generalizing sp with
  | zero => exact .ended (.refl sp)
  | succ fuel ih =>
      obtain ⟨hatom, hsuffix⟩ := atom_inside h
      simp only [Guarded.dotString, dotString, hatom, Option.bind_eq_bind, Option.bind_some]
      cases hr : atom m' sp with
      | none => exact .malformed _
      | some r =>
          have hrest := hsuffix r hr
          simp only [(h.suffix hrest).starts, Option.bind_some]
          cases hs : Parse.starts m' r.rest (· == 46) with
          | false => exact ⟨rfl, fun rest heq => Option.some.inj heq ▸ hrest⟩
          | true =>
              obtain ⟨hadvance, hnext⟩ := (h.suffix hrest).next hs
              obtain ⟨heq, hlater⟩ := ih ((h.suffix hrest).suffix hnext)
              simp only [Bool.not_true, Bool.false_eq_true, if_false, hadvance, Option.bind_some]
              exact ⟨heq, fun rest hsome => (hrest.trans hnext).trans (hlater rest hsome)⟩

theorem sized_inside (h : Seen m m' sp) {size : Nat} (hsize : size ≤ sp.len) (max : Nat) :
    Inside sp (·.rest) (Guarded.sized m sp size max) (sized m' sp size max) := by
  have hread : m.read sp.start size = m'.read sp.start size :=
    Mem.read_congr fun i hlo hhi => h.same i hlo (by omega)
  simp only [Guarded.sized, sized, Guarded.advance_eq hsize, Option.bind_eq_bind, Option.bind_some]
  split
  · exact .malformed _
  · refine ⟨?_, fun r hr => ?_⟩
    · rw [Guarded.copy, if_pos hsize, hread]
      rfl
    · cases hr
      exact .advance h.len hsize

end Atoms

/-- Quoted text, and a backslash that escapes nothing. -/
def Unfinished (bs : Bytes) : Prop := ∃ w v, QuotedText w v ∧ bs = w ++ [92]

/-- A quoted string that is open at its end, behind a backslash. -/
def OpenEscape (bs : Bytes) : Prop := ∃ bs', Unfinished bs' ∧ bs = 34 :: bs'

section Escapes

variable {c d : UInt8} {bs : Bytes}

theorem not_unfinished_nil : ¬ Unfinished [] := by
  rintro ⟨w, v, -, heq⟩
  exact List.append_ne_nil_of_right_ne_nil w (by decide) heq.symm

theorem unfinished_backslash : Unfinished [92] := ⟨[], [], .nil, rfl⟩

theorem not_unfinished_quote : ¬ Unfinished (34 :: bs) := by
  rintro ⟨w, v, text, heq⟩
  cases text with
  | nil => cases heq
  | text h rest =>
      obtain rfl := (List.cons.inj heq).1
      exact absurd h (by decide)
  | pair h rest => cases heq

theorem unfinished_text (hc : isqtextSMTP (schar c) = true) :
    Unfinished (c :: bs) ↔ Unfinished bs := by
  constructor
  · rintro ⟨w, v, text, heq⟩
    cases text with
    | nil =>
        obtain rfl := (List.cons.inj heq).1
        exact absurd hc (by decide)
    | text h rest => exact ⟨_, _, rest, (List.cons.inj heq).2⟩
    | pair h rest =>
        obtain rfl := (List.cons.inj heq).1
        exact absurd hc (by decide)
  · rintro ⟨w, v, text, rfl⟩
    exact ⟨_, _, .text hc text, rfl⟩

theorem not_unfinished_other (hc : isqtextSMTP (schar c) = false) (hne : c ≠ 92) :
    ¬ Unfinished (c :: bs) := by
  rintro ⟨w, v, text, heq⟩
  cases text with
  | nil => exact hne (List.cons.inj heq).1
  | text h rest =>
      obtain rfl := (List.cons.inj heq).1
      rw [hc] at h
      cases h
  | pair h rest => exact hne (List.cons.inj heq).1

theorem unfinished_pair : Unfinished (92 :: d :: bs) ↔ (32 ≤ d ∧ d ≤ 126) ∧ Unfinished bs := by
  constructor
  · rintro ⟨w, v, text, heq⟩
    cases text with
    | nil => cases heq
    | text h rest =>
        obtain rfl := (List.cons.inj heq).1
        exact absurd h (by decide)
    | @pair d' w v h rest =>
        obtain ⟨rfl, htail⟩ := List.cons.inj (List.cons.inj heq).2
        exact ⟨h, w, v, rest, htail⟩
  · rintro ⟨hd, w, v, text, rfl⟩
    exact ⟨_, _, .pair hd text, rfl⟩

end Escapes

section QuotedStrings

variable {m m' : Mem} {a fuel fuel' : Nat} {bs : Bytes}

theorem Seen.holds (h : m.Holds a bs) (seen : Seen m m' ⟨a, bs.length⟩) : m'.Holds a bs := by
  refine ⟨?_, h.small⟩
  rw [← Mem.read_congr fun i hlo hhi => seen.same i hlo hhi]
  exact h.read

theorem Seen.tail {c : UInt8} (h : m.Holds a (c :: bs)) (seen : Seen m m' ⟨a, (c :: bs).length⟩) :
    Seen m m' ⟨a + 1, bs.length⟩ ∧ SuffixOf ⟨a, (c :: bs).length⟩ ⟨a + 1, bs.length⟩ := by
  have hnext := SuffixOf.advance seen.len (n := 1) (by simp)
  rw [Span.advance_cons h] at hnext
  exact ⟨seen.suffix hnext, hnext⟩

/-- The first byte, and the span behind it. -/
theorem Seen.cons {c : UInt8} (h : m.Holds a (c :: bs)) (seen : Seen m m' ⟨a, (c :: bs).length⟩) :
    Guarded.get m ⟨a, (c :: bs).length⟩ 0 = some c ∧
      Guarded.advance ⟨a, (c :: bs).length⟩ 1 = some ⟨a + 1, bs.length⟩ := by
  constructor
  · rw [seen.get (by simp) (by decide), Nat.add_zero, (seen.holds h).cons.1]
  · rw [Guarded.advance_eq (by simp), Span.advance_cons h]

/-- The loop leaves the span when the last byte of the text is a backslash, and not otherwise. -/
theorem quotedLoop_guarded (h : m.Holds a bs) (seen : Seen m m' ⟨a, bs.length⟩)
    (hfuel : bs.length ≤ fuel) (hfuel' : bs.length ≤ fuel') :
    Unless (Unfinished bs) ⟨a, bs.length⟩ id (Guarded.quotedLoop m fuel ⟨a, bs.length⟩)
      (quotedLoop m' fuel' ⟨a, bs.length⟩) := by
  induction hn : bs.length using Nat.strongRecOn generalizing a bs fuel fuel' with
  | ind n ih =>
      subst hn
      cases bs with
      | nil =>
          have hrun : Guarded.quotedLoop m fuel ⟨a, 0⟩ = some (some ⟨a, 0⟩) := by
            cases fuel <;> rfl
          have hparsed : quotedLoop m' fuel' ⟨a, 0⟩ = some ⟨a, 0⟩ := by
            cases fuel' <;> rfl
          rw [List.length_nil, hrun, hparsed]
          exact .of_not not_unfinished_nil (.ended (.refl _))
      | cons c bs =>
          obtain ⟨fuel, rfl⟩ :=
            Nat.exists_eq_succ_of_ne_zero (Nat.ne_zero_of_lt hfuel)
          obtain ⟨fuel', rfl⟩ :=
            Nat.exists_eq_succ_of_ne_zero (Nat.ne_zero_of_lt hfuel')
          have h' := seen.holds h
          obtain ⟨seen₁, hnext⟩ := seen.tail h
          obtain ⟨hget, hadvance⟩ := seen.cons h
          simp only [Guarded.quotedLoop, quotedLoop, seen.starts, starts_cons h', hadvance, hget,
            h'.cons.1, Span.advance_cons h', Option.bind_eq_bind, Option.bind_some]
          by_cases hquote : c = 34
          · subst hquote
            exact .of_not not_unfinished_quote (.ended (.refl _))
          · simp only [bne_iff_ne.mpr hquote, if_true]
            by_cases hescape : c = 92
            · subst hescape
              simp only [beq_self_eq_true, if_true]
              cases bs with
              | nil => exact ⟨fun _ => rfl, fun hclosed => absurd unfinished_backslash hclosed⟩
              | cons d bs =>
                  obtain ⟨seen₂, hnext₂⟩ := seen₁.tail h.cons.2
                  obtain ⟨hget₂, hadvance₂⟩ := seen₁.cons h.cons.2
                  simp only [hget₂, hadvance₂, h'.cons.2.cons.1, Span.advance_cons h'.cons.2,
                    Option.bind_some]
                  refine .of_iff unfinished_pair ?_
                  by_cases hd : (decide (schar d < 32) || decide (schar d > 126)) = true
                  · simp only [if_pos hd]
                    refine .of_not (fun hopen => ?_) (.malformed _)
                    rw [quotable hopen.1] at hd
                    cases hd
                  · have hprintable := quotable_of (Bool.eq_false_of_not_eq_true hd)
                    simp only [if_neg hd, List.length_cons] at hfuel hfuel' ⊢
                    refine .of_iff (and_iff_right hprintable) (.later (hnext.trans hnext₂) ?_)
                    exact ih bs.length (by simp only [List.length_cons]; omega)
                      h.cons.2.cons.2 seen₂
                      (show bs.length ≤ fuel by omega) (show bs.length ≤ fuel' by omega) rfl
            · simp only [beq_eq_false_iff_ne.mpr hescape, Bool.false_eq_true, if_false]
              by_cases hc : isqtextSMTP (schar c) = true
              · simp only [hc, Bool.not_true, Bool.false_eq_true, if_false]
                refine .of_iff (unfinished_text hc) (.later hnext ?_)
                exact ih bs.length (by simp) h.cons.2 seen₁ (Nat.le_of_succ_le_succ hfuel)
                  (Nat.le_of_succ_le_succ hfuel') rfl
              · rw [Bool.not_eq_true] at hc
                simp only [hc, Bool.not_false, if_true]
                exact .of_not (not_unfinished_other hc hescape) (.malformed _)

theorem quotedString_body {sp : Span} {r : Result} (h : quotedString m sp = some r) :
    r.body = sp.upTo r.rest := by
  unfold quotedString at h
  generalize sp.len + 2 ^ 64 = fuel at h
  unfold quotedStringFuel at h
  split at h
  · cases h
  · split at h
    · cases h
    · split at h
      · cases h
      · cases h
        rfl

theorem not_openEscape_nil : ¬ OpenEscape [] := fun ⟨_, _, heq⟩ => List.cons_ne_nil _ _ heq.symm

theorem openEscape_cons {c : UInt8} : OpenEscape (c :: bs) ↔ c = 34 ∧ Unfinished bs := by
  constructor
  · rintro ⟨bs', hopen, heq⟩
    obtain ⟨rfl, rfl⟩ := List.cons.inj heq
    exact ⟨rfl, hopen⟩
  · rintro ⟨rfl, hopen⟩
    exact ⟨bs, hopen, rfl⟩

/-- A quoted string that is open at its end leads out of the span. -/
theorem quotedString_guarded (h : m.Holds a bs) (seen : Seen m m' ⟨a, bs.length⟩) :
    Unless (OpenEscape bs) ⟨a, bs.length⟩ Result.rest (Guarded.quotedString m ⟨a, bs.length⟩)
      (quotedString m' ⟨a, bs.length⟩) := by
  have h' := seen.holds h
  unfold quotedString
  have hfuel : bs.length ≤ bs.length + 2 ^ 64 := Nat.le_add_right _ _
  generalize bs.length + 2 ^ 64 = fuel at hfuel
  cases bs with
  | nil => exact .of_not not_openEscape_nil (.malformed _)
  | cons c bs =>
      simp only [Guarded.quotedString, quotedStringFuel, seen.starts, starts_cons h',
        Option.bind_eq_bind, Option.bind_some]
      refine .of_iff openEscape_cons ?_
      by_cases hquote : c = 34
      · subst hquote
        obtain ⟨seen₁, hnext⟩ := seen.tail h
        have hloop := quotedLoop_guarded h.cons.2 seen₁
          (show bs.length ≤ (34 :: bs).length by simp) (Nat.le_trans (Nat.le_succ _) hfuel)
        simp only [beq_self_eq_true, Bool.not_true, Bool.false_eq_true, if_false,
          (seen.cons h).2, Span.advance_cons h', Option.bind_some]
        refine .of_iff (and_iff_right trivial) ⟨fun hopen => ?_, fun hfinished => ?_⟩
        · rw [hloop.1 hopen]
          rfl
        · obtain ⟨hrun, hsuffix⟩ := hloop.2 hfinished
          rw [hrun, Option.bind_some]
          cases hparsed : quotedLoop m' fuel ⟨a + 1, bs.length⟩ with
          | none => exact .malformed _
          | some rest =>
              have hrest : SuffixOf ⟨a, (34 :: bs).length⟩ rest :=
                hnext.trans (hsuffix rest hparsed)
              have seen₂ := seen.suffix hrest
              simp only [seen₂.starts, Option.bind_some]
              cases hs : starts m' rest (· == 34) with
              | false => exact .malformed _
              | true =>
                  obtain ⟨hadvance₂, hnext₂⟩ := seen₂.next hs
                  simp only [hadvance₂, Option.bind_some]
                  exact .ended (hrest.trans hnext₂)
      · simp only [beq_eq_false_iff_ne.mpr hquote, Bool.not_false, if_true]
        exact .of_not (fun hopen => hquote hopen.1) (.malformed _)

theorem quotedLocalPart_inside {sp : Span} {quot : Result} (seen : Seen m m' sp)
    (hbody : quot.body = sp.upTo quot.rest) (hrest : SuffixOf sp quot.rest) :
    Inside sp (·.rest) (Guarded.quotedLocalPart m quot) (quotedLocalPart m' quot) := by
  obtain ⟨hlen, hle⟩ := hrest.upTo_len seen.len
  have hread : m.read quot.body.start quot.body.len = m'.read quot.body.start quot.body.len := by
    rw [hbody, hlen]
    exact Mem.read_congr fun i hlo hhi => seen.same i hlo (Nat.lt_of_lt_of_le hhi (by
      simp only [Span.upTo]
      omega))
  simp only [Guarded.quotedLocalPart, quotedLocalPart, Guarded.copy, Nat.le_refl, if_true,
    Option.bind_eq_bind, Option.bind_some, hread]
  split
  · exact .malformed _
  · exact .ended hrest

theorem localPart_guarded (h : m.Holds a bs) (seen : Seen m m' ⟨a, bs.length⟩) :
    Unless (OpenEscape bs) ⟨a, bs.length⟩ (·.rest) (Guarded.localPart m ⟨a, bs.length⟩)
      (localPart m' ⟨a, bs.length⟩) := by
  have hstring := quotedString_guarded h seen
  refine ⟨fun hopen => ?_, fun hfinished => ?_⟩
  · simp only [Guarded.localPart, hstring.1 hopen, Option.bind_eq_bind, Option.bind_none]
  · obtain ⟨hrun, hsuffix⟩ := hstring.2 hfinished
    simp only [Guarded.localPart, localPart, hrun, Option.bind_eq_bind, Option.bind_some]
    cases hquot : quotedString m' ⟨a, bs.length⟩ with
    | some quot =>
        exact quotedLocalPart_inside seen (quotedString_body hquot) (hsuffix quot hquot)
    | none =>
        obtain ⟨hdots, hrest⟩ := dotString_inside seen (bs.length + 1)
        simp only [hdots, Option.bind_some]
        cases hloop : dotString m' (bs.length + 1) ⟨a, bs.length⟩ with
        | none => exact .malformed _
        | some rest =>
            have hsuffix : SuffixOf ⟨a, bs.length⟩ rest := hrest rest hloop
            obtain ⟨hlen, hle⟩ := hsuffix.upTo_len seen.len
            exact sized_inside seen (by rw [hlen]; exact hle) localPartMaxSize

end QuotedStrings

end Ervan.Parse
