import Ervan.Common.Text
import Mathlib.Data.List.TakeWhile

/-!
# Cutting a pair out of a config text

`get_config_pair` skips white space, takes a key up to white space, skips white space again and
takes the rest of the line as the value. Line breaks are white space to it.
-/

namespace Ervan

/-- `std::isspace` in the C locale. -/
def isspace (c : UInt8) : Bool := c == 32 || (9 ≤ c && c ≤ 13)

/-- A line break, as the value's end is tested for. -/
def newline (c : UInt8) : Bool := c == cr || c == lf

/-- `while (p(buffer[offset]) && offset < len) offset++`. -/
def skip (p : UInt8 → Bool) (buffer : Bytes) (offset : Nat) : Nat :=
  offset + ((buffer.drop offset).takeWhile p).length

/-- The bytes between two offsets. -/
def between (buffer : Bytes) (start stop : Nat) : Bytes := (buffer.drop start).take (stop - start)

/-- The four pointers of a pair, as offsets. The new offset is the end of the value. -/
structure ConfigPair where
  keyStart : Nat
  keyEnd : Nat
  valueStart : Nat
  valueEnd : Nat

inductive PairResult
  | finished
  | invalid
  | ok (pair : ConfigPair)

def getConfigPair (buffer : Bytes) (offset : Nat) : PairResult :=
  let offset := skip isspace buffer offset
  if offset = buffer.length then .finished
  else
    let keyStart := offset
    let offset := skip (! isspace ·) buffer offset
    if offset = buffer.length then .invalid
    else
      let keyEnd := offset
      let offset := skip isspace buffer offset
      if offset = buffer.length then .invalid
      else .ok ⟨keyStart, keyEnd, offset, skip (! newline ·) buffer offset⟩

/-- All of the bytes satisfy `p`. -/
def Only (p : UInt8 → Bool) (bs : Bytes) : Prop := ∀ c ∈ bs, p c = true

/-- The pair starts with a key, and the white space between key and value is `gap`. What is left
of the text starts with a line break, if anything is left. -/
structure Cut (buffer bs : Bytes) (pair : ConfigPair) (key gap value rest : Bytes) : Prop where
  key_eq : between buffer pair.keyStart pair.keyEnd = key
  value_eq : between buffer pair.valueStart pair.valueEnd = value
  all_eq : between buffer pair.keyStart pair.valueEnd = key ++ gap ++ value
  rest_eq : buffer.drop pair.valueEnd = rest
  bound : pair.valueEnd ≤ buffer.length
  split : ∃ space, Only isspace space ∧ bs = space ++ key ++ gap ++ value ++ rest
  key_only : Only (! isspace ·) key
  key_ne : key ≠ []
  gap_only : Only isspace gap
  gap_ne : gap ≠ []
  value_only : Only (! newline ·) value
  value_start : ∃ c ∈ value.head?, isspace c = false
  rest_start : ∀ c ∈ rest.head?, newline c = true

/-- What `getConfigPair` makes of the bytes from its offset on. -/
inductive Paired (buffer bs : Bytes) : PairResult → Prop
  | finished (space : Only isspace bs) : Paired buffer bs .finished
  | invalid (space key gap : Bytes) (eq : bs = space ++ key ++ gap) (space_only : Only isspace space)
      (key_only : Only (! isspace ·) key) (key_ne : key ≠ []) (gap_only : Only isspace gap) :
      Paired buffer bs .invalid
  | ok (pair : ConfigPair) (key gap value rest : Bytes) (cut : Cut buffer bs pair key gap value rest) :
      Paired buffer bs (.ok pair)

section Skip

variable {p : UInt8 → Bool} {buffer bs : Bytes} {offset : Nat}

theorem only_takeWhile (p : UInt8 → Bool) (bs : Bytes) : Only p (bs.takeWhile p) := by
  intro c hc
  exact List.mem_takeWhile_imp hc

theorem head?_dropWhile (p : UInt8 → Bool) (bs : Bytes) :
    ∀ c ∈ (bs.dropWhile p).head?, p c = false := by
  induction bs with
  | nil =>
      intro c hc
      cases hc
  | cons b bs ih =>
      by_cases hb : p b = true
      · rw [List.dropWhile_cons_of_pos hb]
        exact ih
      · rw [List.dropWhile_cons_of_neg hb]
        intro c hc
        cases hc
        exact Bool.eq_false_iff.mpr hb

theorem drop_length_takeWhile (p : UInt8 → Bool) (bs : Bytes) :
    bs.drop (bs.takeWhile p).length = bs.dropWhile p :=
  calc bs.drop (bs.takeWhile p).length
      = (bs.takeWhile p ++ bs.dropWhile p).drop (bs.takeWhile p).length := by
        rw [List.takeWhile_append_dropWhile]
    _ = bs.dropWhile p := List.drop_left

theorem drop_skip (p : UInt8 → Bool) (buffer : Bytes) (offset : Nat) :
    buffer.drop (skip p buffer offset) = (buffer.drop offset).dropWhile p := by
  rw [skip, ← List.drop_drop, drop_length_takeWhile]

theorem skip_le (h : offset ≤ buffer.length) : skip p buffer offset ≤ buffer.length := by
  have hle := (List.takeWhile_prefix (p := p) (l := buffer.drop offset)).length_le
  rw [List.length_drop] at hle
  rw [skip]
  omega

theorem skip_eq_length (h : offset ≤ buffer.length) :
    skip p buffer offset = buffer.length ↔ (buffer.drop offset).dropWhile p = [] := by
  have hle := skip_le (p := p) h
  rw [← drop_skip, List.drop_eq_nil_iff]
  omega

/-- Two stretches of the buffer, one behind the other. -/
theorem between_append {i j : Nat} {xs ys : Bytes} (hi : buffer.drop i = xs ++ ys)
    (hj : j = i + xs.length) : between buffer i j = xs := by
  rw [between, hi, hj, Nat.add_sub_cancel_left, List.take_left]

/-- What is skipped, and what follows. -/
theorem skip_split (p : UInt8 → Bool) {buffer : Bytes} {offset : Nat}
    (h : offset ≤ buffer.length) :
    ∃ taken rest, buffer.drop offset = taken ++ rest ∧
      skip p buffer offset = offset + taken.length ∧
      buffer.drop (skip p buffer offset) = rest ∧ Only p taken ∧
      (∀ c ∈ rest.head?, p c = false) ∧ (skip p buffer offset = buffer.length ↔ rest = []) := by
  refine ⟨(buffer.drop offset).takeWhile p, (buffer.drop offset).dropWhile p,
    List.takeWhile_append_dropWhile.symm, rfl, drop_skip p buffer offset, only_takeWhile p _,
    head?_dropWhile p _, skip_eq_length h⟩

theorem isspace_of_newline {c : UInt8} (h : newline c = true) : isspace c = true := by
  simp only [newline, Bool.or_eq_true, beq_iff_eq] at h
  rcases h with rfl | rfl <;> rfl

/-- A stretch that does not start with what ends it is not empty. -/
theorem stretch_ne {taken rest : Bytes} (hne : taken ++ rest ≠ [])
    (first : ∀ c ∈ (taken ++ rest).head?, p c = true) (last : ∀ c ∈ rest.head?, p c = false) :
    taken ≠ [] := by
  rintro rfl
  obtain ⟨c, rest', rfl⟩ := List.exists_cons_of_ne_nil hne
  have hfirst := first c rfl
  rw [last c rfl] at hfirst
  cases hfirst

/-- The scan cuts a key, a gap and a value out of what follows its offset, unless the text ends
before. -/
theorem paired (buffer : Bytes) {offset : Nat} (h : offset ≤ buffer.length) :
    Paired buffer (buffer.drop offset) (getConfigPair buffer offset) := by
  have hle₁ := skip_le (p := isspace) h
  obtain ⟨space, bs₁, heq, hskip₁, hrest₁, hspace, hstart₁, hend₁⟩ := skip_split isspace h
  unfold getConfigPair
  dsimp only
  generalize skip isspace buffer offset = start at hskip₁ hrest₁ hend₁ hle₁ ⊢
  have hle₂ := skip_le (p := (! isspace ·)) hle₁
  obtain ⟨key, bs₂, heq₁, hskip₂, hrest₂, hkey, hstart₂, hend₂⟩ := skip_split (! isspace ·) hle₁
  rw [hrest₁] at heq₁
  subst heq₁
  generalize skip (! isspace ·) buffer start = keyEnd at hskip₂ hrest₂ hend₂ hle₂ ⊢
  have hle₃ := skip_le (p := isspace) hle₂
  obtain ⟨gap, bs₃, heq₂, hskip₃, hrest₃, hgap, hstart₃, hend₃⟩ := skip_split isspace hle₂
  rw [hrest₂] at heq₂
  subst heq₂
  generalize skip isspace buffer keyEnd = valueStart at hskip₃ hrest₃ hend₃ hle₃ ⊢
  have hle₄ := skip_le (p := (! newline ·)) hle₃
  obtain ⟨value, rest, heq₃, hskip₄, hrest₄, hvalue, hstart₄, -⟩ := skip_split (! newline ·) hle₃
  rw [hrest₃] at heq₃
  subst heq₃
  generalize skip (! newline ·) buffer valueStart = valueEnd at hskip₄ hrest₄ hle₄ ⊢
  by_cases hfinished : start = buffer.length
  · rw [if_pos hfinished]
    have hnil := hend₁.mp hfinished
    rw [heq, hnil, List.append_nil]
    exact .finished hspace
  · rw [if_neg hfinished]
    have hkeyne : key ≠ [] := by
      apply stretch_ne (fun hnil => hfinished (hend₁.mpr hnil)) _ hstart₂
      intro c hc
      simp only [hstart₁ c hc, Bool.not_false]
    by_cases hinvalid : keyEnd = buffer.length
    · rw [if_pos hinvalid]
      have hnil := hend₂.mp hinvalid
      rw [heq, hnil, ← List.append_assoc]
      exact .invalid space key [] rfl hspace hkey hkeyne fun c hc => absurd hc List.not_mem_nil
    · rw [if_neg hinvalid]
      have hgapne : gap ≠ [] := by
        apply stretch_ne (fun hnil => hinvalid (hend₂.mpr hnil)) _ hstart₃
        intro c hc
        simpa using hstart₂ c hc
      by_cases hinvalid' : valueStart = buffer.length
      · rw [if_pos hinvalid']
        have hnil := hend₃.mp hinvalid'
        rw [heq, hnil, List.append_nil, ← List.append_assoc]
        exact .invalid space key gap rfl hspace hkey hkeyne hgap
      · rw [if_neg hinvalid']
        have hnot (c : UInt8) (hc : c ∈ (value ++ rest).head?) : newline c = false := by
          by_contra hnewline
          have hspace := isspace_of_newline (Bool.of_not_eq_false hnewline)
          rw [hstart₃ c hc] at hspace
          cases hspace
        have hvaluene : value ≠ [] := by
          apply stretch_ne (fun hnil => hinvalid' (hend₃.mpr hnil)) _ hstart₄
          intro c hc
          simp only [hnot c hc, Bool.not_false]
        apply Paired.ok _ key gap value rest
        refine ⟨between_append hrest₁ hskip₂, between_append hrest₃ hskip₄, ?_, hrest₄, hle₄,
          ⟨space, hspace, ?_⟩, hkey, hkeyne, hgap, hgapne, hvalue, ?_, ?_⟩
        · apply @between_append buffer start valueEnd _ rest
          · rw [hrest₁]
            simp
          · rw [List.length_append, List.length_append]
            omega
        · rw [heq]
          simp
        · obtain ⟨c, value', rfl⟩ := List.exists_cons_of_ne_nil hvaluene
          exact ⟨c, rfl, hstart₃ c rfl⟩
        · intro c hc
          simpa using hstart₄ c hc

/-- A pair moves the offset. -/
theorem Cut.lt {pair : ConfigPair} {key gap value rest : Bytes}
    (h : Cut buffer (buffer.drop offset) pair key gap value rest) (hle : offset ≤ buffer.length) :
    offset < pair.valueEnd := by
  obtain ⟨space, -, hsplit⟩ := h.split
  have hlengths := congrArg List.length hsplit
  have hkey := List.length_pos_iff.mpr h.key_ne
  have hbound := h.bound
  rw [← h.rest_eq] at hlengths
  simp only [List.length_append, List.length_drop] at hlengths
  omega

end Skip

end Ervan
