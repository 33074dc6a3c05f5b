import Ervan.Common.ConfigPair

/-!
# Where a pair lies

The offsets of a pair, and the scan with every access checked. Each of the loops looks at the
byte at its offset before it compares the offset with the length, so that a loop that comes to
the end of the text reads the byte behind it.
-/

namespace Ervan

/-- The offsets of a pair, in their order, and what lies between them. -/
structure Located (buffer : Bytes) (offset : Nat) (pair : ConfigPair) : Prop where
  start_le : offset ≤ pair.keyStart
  key_lt : pair.keyStart < pair.keyEnd
  gap_lt : pair.keyEnd < pair.valueStart
  value_lt : pair.valueStart < pair.valueEnd
  end_le : pair.valueEnd ≤ buffer.length
  space_only : Only isspace (between buffer offset pair.keyStart)
  key_only : Only (! isspace ·) (between buffer pair.keyStart pair.keyEnd)
  gap_only : Only isspace (between buffer pair.keyEnd pair.valueStart)
  value_start : ∃ c, buffer[pair.valueStart]? = some c ∧ isspace c = false
  value_only : Only (! newline ·) (between buffer pair.valueStart pair.valueEnd)
  ended : pair.valueEnd = buffer.length ∨
    ∃ c, buffer[pair.valueEnd]? = some c ∧ newline c = true

namespace Guarded

/-- `while (p(buffer[offset]) && offset < len) offset++`, in a buffer of `len` bytes. There is no
result if a byte is read that the buffer does not have. -/
def skip (p : UInt8 → Bool) (buffer : Bytes) : Nat → Nat → Option Nat
  | 0, offset => some offset
  | fuel + 1, offset => do
      let c ← buffer[offset]?
      if p c && offset < buffer.length then skip p buffer fuel (offset + 1) else some offset

/-- A loop takes as many turns as there are bytes left, and one more. -/
def skipFrom (p : UInt8 → Bool) (buffer : Bytes) (offset : Nat) : Option Nat :=
  skip p buffer (buffer.length - offset + 1) offset

def getConfigPair (buffer : Bytes) (offset : Nat) : Option PairResult := do
  let keyStart ← skipFrom isspace buffer offset
  if keyStart = buffer.length then some .finished
  else
    let keyEnd ← skipFrom (! isspace ·) buffer keyStart
    if keyEnd = buffer.length then some .invalid
    else
      let valueStart ← skipFrom isspace buffer keyEnd
      if valueStart = buffer.length then some .invalid
      else
        let valueEnd ← skipFrom (! newline ·) buffer valueStart
        some (.ok ⟨keyStart, keyEnd, valueStart, valueEnd⟩)

end Guarded

section Offsets

variable {p : UInt8 → Bool} {buffer : Bytes} {offset : Nat} {c : UInt8} {pair : ConfigPair}

theorem le_skip (p : UInt8 → Bool) (buffer : Bytes) (offset : Nat) :
    offset ≤ skip p buffer offset := Nat.le_add_right _ _

theorem skip_pos (h : buffer[offset]? = some c) (hc : p c = true) :
    skip p buffer offset = skip p buffer (offset + 1) := by
  obtain ⟨hlt, rfl⟩ := List.getElem?_eq_some_iff.mp h
  rw [skip, skip, List.drop_eq_getElem_cons hlt, List.takeWhile_cons_of_pos hc, List.length_cons]
  omega

theorem skip_neg (h : buffer[offset]? = some c) (hc : p c = false) :
    skip p buffer offset = offset := by
  obtain ⟨hlt, rfl⟩ := List.getElem?_eq_some_iff.mp h
  rw [skip, List.drop_eq_getElem_cons hlt, List.takeWhile_cons_of_neg (by simp [hc])]
  rfl

theorem skip_lt (h : buffer[offset]? = some c) (hc : p c = true) :
    offset < skip p buffer offset := by
  rw [skip_pos h hc]
  exact le_skip p buffer (offset + 1)

theorem only_skip (p : UInt8 → Bool) (buffer : Bytes) (offset : Nat) :
    Only p (between buffer offset (skip p buffer offset)) := by
  have hsplit : buffer.drop offset =
      (buffer.drop offset).takeWhile p ++ (buffer.drop offset).dropWhile p :=
    List.takeWhile_append_dropWhile.symm
  have hbetween : between buffer offset (skip p buffer offset) = (buffer.drop offset).takeWhile p :=
    between_append hsplit rfl
  rw [hbetween]
  exact only_takeWhile p _

/-- Where a loop stops before the end, there is a byte that stops it. -/
theorem skip_stop (hle : offset ≤ buffer.length) (hne : skip p buffer offset ≠ buffer.length) :
    ∃ c, buffer[skip p buffer offset]? = some c ∧ p c = false := by
  have hlt : skip p buffer offset < buffer.length := Nat.lt_of_le_of_ne (skip_le hle) hne
  refine ⟨buffer[skip p buffer offset], List.getElem?_eq_getElem hlt, ?_⟩
  apply head?_dropWhile p (buffer.drop offset)
  rw [← drop_skip, List.drop_eq_getElem_cons hlt]
  rfl

/-- A pair is found if none of the first three loops comes to the end. -/
theorem getConfigPair_ok : getConfigPair buffer offset = .ok pair ↔
    pair.keyStart = skip isspace buffer offset ∧ pair.keyStart ≠ buffer.length ∧
    pair.keyEnd = skip (! isspace ·) buffer pair.keyStart ∧ pair.keyEnd ≠ buffer.length ∧
    pair.valueStart = skip isspace buffer pair.keyEnd ∧ pair.valueStart ≠ buffer.length ∧
    pair.valueEnd = skip (! newline ·) buffer pair.valueStart := by
  obtain ⟨keyStart, keyEnd, valueStart, valueEnd⟩ := pair
  unfold getConfigPair
  dsimp only
  constructor
  · intro h
    split at h
    · cases h
    · split at h
      · cases h
      · split at h
        · cases h
        · cases h
          exact ⟨rfl, by assumption, rfl, by assumption, rfl, by assumption, rfl⟩
  · rintro ⟨rfl, hkeyStart, rfl, hkeyEnd, rfl, hvalueStart, rfl⟩
    rw [if_neg hkeyStart, if_neg hkeyEnd, if_neg hvalueStart]

/-- Every loop moves the offset, for the byte that stopped the one before it lets it go on. -/
theorem located (hle : offset ≤ buffer.length) (h : getConfigPair buffer offset = .ok pair) :
    Located buffer offset pair := by
  obtain ⟨hkeyStart, hne₁, hkeyEnd, hne₂, hvalueStart, hne₃, hvalueEnd⟩ := getConfigPair_ok.mp h
  have hle₁ : pair.keyStart ≤ buffer.length := hkeyStart ▸ skip_le hle
  have hle₂ : pair.keyEnd ≤ buffer.length := hkeyEnd ▸ skip_le hle₁
  have hle₃ : pair.valueStart ≤ buffer.length := hvalueStart ▸ skip_le hle₂
  obtain ⟨c₁, hget₁, hc₁⟩ := skip_stop hle (hkeyStart ▸ hne₁)
  obtain ⟨c₂, hget₂, hc₂⟩ := skip_stop hle₁ (hkeyEnd ▸ hne₂)
  obtain ⟨c₃, hget₃, hc₃⟩ := skip_stop hle₂ (hvalueStart ▸ hne₃)
  rw [← hkeyStart] at hget₁
  rw [← hkeyEnd] at hget₂
  rw [← hvalueStart] at hget₃
  have hspace : isspace c₂ = true := by simpa using hc₂
  have hbreak : (! newline c₃) = true := by
    by_contra hnewline
    rw [isspace_of_newline (by simpa using hnewline)] at hc₃
    cases hc₃
  refine ⟨?_, ?_, ?_, ?_, ?_, ?_, ?_, ?_, ⟨c₃, hget₃, hc₃⟩, ?_, ?_⟩
  · exact hkeyStart ▸ le_skip isspace buffer offset
  · rw [hkeyEnd]
    exact skip_lt hget₁ (by rw [hc₁]; rfl)
  · rw [hvalueStart]
    exact skip_lt hget₂ hspace
  · rw [hvalueEnd]
    exact skip_lt hget₃ hbreak
  · exact hvalueEnd ▸ skip_le hle₃
  · exact hkeyStart ▸ only_skip isspace buffer offset
  · exact hkeyEnd ▸ only_skip (! isspace ·) buffer pair.keyStart
  · exact hvalueStart ▸ only_skip isspace buffer pair.keyEnd
  · exact hvalueEnd ▸ only_skip (! newline ·) buffer pair.valueStart
  · by_cases hend : pair.valueEnd = buffer.length
    · exact Or.inl hend
    · obtain ⟨c, hget, hc⟩ := skip_stop hle₃ (hvalueEnd ▸ hend)
      rw [← hvalueEnd] at hget
      exact Or.inr ⟨c, hget, by simpa using hc⟩

/-- The checked loop ends well exactly if it stops before the end. -/
theorem guardedSkip_eq {fuel : Nat} (hle : offset ≤ buffer.length)
    (hfuel : buffer.length - offset < fuel) : Guarded.skip p buffer fuel offset =
      if skip p buffer offset < buffer.length then some (skip p buffer offset) else none := by
  induction fuel generalizing offset with
  | zero => exact absurd hfuel (Nat.not_lt_zero _)
  | succ fuel ih =>
      by_cases hlt : offset < buffer.length
      · have hget : buffer[offset]? = some buffer[offset] := List.getElem?_eq_getElem hlt
        rw [Guarded.skip, hget]
        cases hc : p buffer[offset] with
        | true =>
            rw [skip_pos hget hc, ← ih (Nat.succ_le_of_lt hlt) (by omega)]
            simp [hc, hlt]
        | false =>
            rw [skip_neg hget hc, if_pos hlt]
            simp [hc]
      · -- the byte behind the text is read
        have hskip := le_skip p buffer offset
        rw [Guarded.skip, List.getElem?_eq_none (by omega), if_neg (by omega)]
        rfl

theorem skipFrom_eq (hle : offset ≤ buffer.length) : Guarded.skipFrom p buffer offset =
    if skip p buffer offset < buffer.length then some (skip p buffer offset) else none :=
  guardedSkip_eq hle (Nat.lt_succ_self _)

/-- The loops of a scan that ends well stop before the end, all four of them. -/
theorem guarded_some {result : PairResult} (hle : offset ≤ buffer.length)
    (h : Guarded.getConfigPair buffer offset = some result) :
    getConfigPair buffer offset = result ∧
      ∃ pair, result = .ok pair ∧ pair.valueEnd < buffer.length := by
  obtain ⟨keyStart, h₁, h⟩ := Option.bind_eq_some_iff.mp h
  rw [skipFrom_eq hle, Option.ite_none_right_eq_some] at h₁
  obtain ⟨hlt₁, hkeyStart⟩ := h₁
  obtain rfl := Option.some.inj hkeyStart
  rw [if_neg (Nat.ne_of_lt hlt₁)] at h
  obtain ⟨keyEnd, h₂, h⟩ := Option.bind_eq_some_iff.mp h
  rw [skipFrom_eq (Nat.le_of_lt hlt₁), Option.ite_none_right_eq_some] at h₂
  obtain ⟨hlt₂, hkeyEnd⟩ := h₂
  obtain rfl := Option.some.inj hkeyEnd
  rw [if_neg (Nat.ne_of_lt hlt₂)] at h
  obtain ⟨valueStart, h₃, h⟩ := Option.bind_eq_some_iff.mp h
  rw [skipFrom_eq (Nat.le_of_lt hlt₂), Option.ite_none_right_eq_some] at h₃
  obtain ⟨hlt₃, hvalueStart⟩ := h₃
  obtain rfl := Option.some.inj hvalueStart
  rw [if_neg (Nat.ne_of_lt hlt₃)] at h
  obtain ⟨valueEnd, h₄, h⟩ := Option.bind_eq_some_iff.mp h
  rw [skipFrom_eq (Nat.le_of_lt hlt₃), Option.ite_none_right_eq_some] at h₄
  obtain ⟨hlt₄, hvalueEnd⟩ := h₄
  obtain rfl := Option.some.inj hvalueEnd
  obtain rfl := Option.some.inj h
  refine ⟨getConfigPair_ok.mpr ?_, _, rfl, hlt₄⟩
  exact ⟨rfl, Nat.ne_of_lt hlt₁, rfl, Nat.ne_of_lt hlt₂, rfl, Nat.ne_of_lt hlt₃, rfl⟩

/-- A pair with a line break behind it is found without leaving the text. -/
theorem guarded_ok (hle : offset ≤ buffer.length) (h : getConfigPair buffer offset = .ok pair)
    (hlt : pair.valueEnd < buffer.length) :
    Guarded.getConfigPair buffer offset = some (.ok pair) := by
  have hlocated := located hle h
  have hlt₁ := hlocated.key_lt
  have hlt₂ := hlocated.gap_lt
  have hlt₃ := hlocated.value_lt
  obtain ⟨hkeyStart, hne₁, hkeyEnd, hne₂, hvalueStart, hne₃, hvalueEnd⟩ := getConfigPair_ok.mp h
  have hskip₁ : Guarded.skipFrom isspace buffer offset = some pair.keyStart := by
    rw [skipFrom_eq hle, ← hkeyStart, if_pos (by omega)]
  have hskip₂ : Guarded.skipFrom (! isspace ·) buffer pair.keyStart = some pair.keyEnd := by
    rw [skipFrom_eq (by omega), ← hkeyEnd, if_pos (by omega)]
  have hskip₃ : Guarded.skipFrom isspace buffer pair.keyEnd = some pair.valueStart := by
    rw [skipFrom_eq (by omega), ← hvalueStart, if_pos (by omega)]
  have hskip₄ : Guarded.skipFrom (! newline ·) buffer pair.valueStart = some pair.valueEnd := by
    rw [skipFrom_eq (by omega), ← hvalueEnd, if_pos hlt]
  rw [Guarded.getConfigPair, hskip₁]
  simp only [Option.bind_eq_bind, Option.bind_some, if_neg hne₁, hskip₂, if_neg hne₂, hskip₃,
    if_neg hne₃, hskip₄]

end Offsets

end Ervan
