import Ervan.Common.Lines

/-!
# Two buffers in lock-step

What `join` does with one chunk in two buffers. As far as the chunks reach, the buffers hold the
same bytes, and the match windows show the same two bytes from the second one on. What a buffer
held before it was first used can still be told from its window, by the first byte, and from the
bytes behind a line.
-/

namespace Ervan

open Framing

variable {cap : Nat} {terminator : Bytes}

/-- The first byte completes the terminator in both windows or in neither. -/
def SameFirst (terminator window window' src : Bytes) : Prop :=
  ∀ c, src.head? = some c → (push window c = terminator ↔ push window' c = terminator)

instance (terminator window window' src : Bytes) :
    Decidable (SameFirst terminator window window' src) :=
  match h : src.head? with
  | none => .isTrue fun c hc => absurd (h.symm.trans hc) (by simp)
  | some d => decidable_of_iff (push window d = terminator ↔ push window' d = terminator)
      ⟨fun hd c hc => by rw [← Option.some.inj (h.symm.trans hc)]; exact hd, fun hd => hd d h⟩

/-- The buffers hold the same bytes as far as the offset says that they have been used. An
offset that has overflowed belongs to buffers that were full. -/
def Shared (b b' : Buffer cap 2) (offset : Int) : Prop :=
  ∃ n, (cap ≤ n ∨ (0 ≤ offset ∧ offset ≤ n)) ∧ b.target.take n = b'.target.take n

theorem Shared.empty (b b' : Buffer cap 2) : Shared b b' 0 := ⟨0, Or.inr ⟨by simp, by simp⟩, rfl⟩

/-- Two bytes later a window of two bytes holds nothing older. -/
theorem push_push {window window' : Bytes} (h : window.length = 2) (h' : window'.length = 2)
    (c d : UInt8) : push (push window c) d = push (push window' c) d := by
  obtain ⟨x, y, rfl⟩ := List.length_eq_two.mp h
  obtain ⟨x', y', rfl⟩ := List.length_eq_two.mp h'
  rfl

/-- The loop finds the same line in both buffers, and keeps what they share. -/
theorem joinLoop_pair {src : Bytes} (i : Nat) {b b' : Buffer cap 2} (offset : Int) {n : Nat}
    (shared : b.target.take n = b'.target.take n)
    (first : SameFirst terminator b.tCheck b'.tCheck src) :
    (joinLoop terminator src i b offset).2 = (joinLoop terminator src i b' offset).2 ∧
      (joinLoop terminator src i b offset).1.target.take n =
        (joinLoop terminator src i b' offset).1.target.take n ∧
      ((joinLoop terminator src i b offset).2.2.sp.isSome = true →
        (joinLoop terminator src i b offset).1.tCheck =
          (joinLoop terminator src i b' offset).1.tCheck) := by
  induction src generalizing i b b' offset with
  | nil =>
      refine ⟨rfl, shared, ?_⟩
      intro h
      cases h
  | cons c src ih =>
      rw [joinLoop, joinLoop]
      by_cases hi : 2 ^ 31 ≤ i
      · rw [if_pos hi, if_pos hi]
        refine ⟨rfl, shared, ?_⟩
        intro h
        cases h
      · rw [if_neg hi, if_neg hi]
        have hfirst := first c rfl
        by_cases hc : (b.push c).tCheck = terminator
        · have hc' : (b'.push c).tCheck = terminator := hfirst.mp hc
          simp only [if_pos hc, if_pos hc']
          split
          · refine ⟨rfl, shared, ?_⟩
            intro h
            cases h
          · refine ⟨rfl, ?_, ?_⟩
            · have hpushed : (b.push c).target.take n = (b'.push c).target.take n := shared
              simp only [Buffer.poke_target, List.take_set, hpushed]
            · intro _
              simp only [Buffer.poke, hc, hc']
        · have hc' : ¬ (b'.push c).tCheck = terminator := mt hfirst.mpr hc
          simp only [if_neg hc, if_neg hc']
          apply ih
          · exact shared
          · intro d _
            simp only [Buffer.push_tCheck]
            rw [push_push b.tCheck_length b'.tCheck_length]

/-- Without overflow the offset counts no more than the bytes of the chunk, and a line with its
terminator is among the bytes that it counts. -/
theorem joinLoop_bound (terminator src : Bytes) (i : Nat) (b : Buffer cap 2) {n : Nat}
    (small : n + src.length < 2 ^ 31) (hcap : cap < 2 ^ 62) :
    0 ≤ (joinLoop terminator src i b n).2.1 ∧
      (joinLoop terminator src i b n).2.1 ≤ (n + src.length : Nat) ∧
      ∀ len, (joinLoop terminator src i b n).2.2.sp = some len → len + 2 ≤ n + src.length := by
  induction src generalizing i b n with
  | nil =>
      refine ⟨by simp [joinLoop], by simp [joinLoop], ?_⟩
      intro len h
      cases h
  | cons c src ih =>
      simp only [List.length_cons] at small ⊢
      rw [joinLoop]
      by_cases hi : 2 ^ 31 ≤ i
      · rw [if_pos hi]
        refine ⟨by simp, by simp only; omega, ?_⟩
        intro len h
        cases h
      · rw [if_neg hi]
        dsimp only
        by_cases hc : (b.push c).tCheck = terminator
        · rw [if_pos hc]
          by_cases hlong : cap < sizeT ((n : Int) - (2 : Nat) + 1)
          · rw [if_pos hlong]
            refine ⟨by simp, by simp only; omega, ?_⟩
            intro len h
            cases h
          · rw [if_neg hlong]
            refine ⟨by simp, by simp only; omega, ?_⟩
            intro len h
            cases h
            have hpos : ¬ (n : Int) - (2 : Nat) + 1 < 0 := by
              intro hneg
              have := sizeT_of_neg hneg (by omega)
              omega
            have hsize : sizeT ((n : Int) - (2 : Nat) + 1) = n - 1 := by
              rw [show (n : Int) - (2 : Nat) + 1 = ((n - 1 : Nat) : Int) by omega]
              exact sizeT_natCast (by omega)
            rw [hsize]
            omega
        · have hnext : int32 ((n : Int) + 1) = ((n + 1 : Nat) : Int) := by
            rw [← Int.natCast_succ]
            exact int32_natCast (by omega)
          rw [if_neg hc, hnext]
          obtain ⟨hlo, hhi, hline⟩ := ih (i + 1) (b.push c) (n := n + 1) (by omega)
          refine ⟨hlo, by omega, ?_⟩
          intro len h
          have := hline len h
          omega

/-- The buffer up to `n`, with the chunk in it. -/
theorem copy_take (b : Buffer cap 2) {offset n : Nat} {bs : Bytes} (h : offset + bs.length ≤ cap) :
    (b.copy offset bs h).target.take (max n (offset + bs.length)) =
      b.target.take offset ++ bs ++ (b.target.take n).drop (offset + bs.length) := by
  have hlength : (b.target.take offset ++ bs).length = offset + bs.length := by
    rw [List.length_append, List.length_take, b.target_length]
    omega
  have hmax : max n (offset + bs.length) - (offset + bs.length) = n - (offset + bs.length) := by
    omega
  rw [Buffer.copy, List.take_append, hlength, hmax, List.drop_take,
    List.take_of_length_le (by rw [hlength]; exact Nat.le_max_right _ _)]

/-- What the buffers share after a chunk has been copied into them: all of it, or the chunk and
everything before it. -/
theorem Shared.copied {b b' : Buffer cap 2} {offset : Int} {src : Bytes} (hsrc : src ≠ [])
    (hcap : cap < 2 ^ 62) (h : Shared b b' offset) (terminator : Bytes) :
    ∃ (b₁ b₁' : Buffer cap 2) (n : Nat),
      join b src offset terminator = joinLoop terminator src 0 b₁ offset ∧
      join b' src offset terminator = joinLoop terminator src 0 b₁' offset ∧
      b₁.tCheck = b.tCheck ∧ b₁'.tCheck = b'.tCheck ∧
      b₁.target.take n = b₁'.target.take n ∧
      (cap ≤ n ∨ ∃ k : Nat, offset = k ∧ k + src.length ≤ n ∧ k + src.length < cap) := by
  obtain ⟨n, hreach, hshared⟩ := h
  have hreach : cap ≤ n ∨ ∃ k : Nat, offset = k ∧ sizeT offset = k ∧ k ≤ n ∧ k < cap := by
    by_cases hfull : cap ≤ n
    · exact Or.inl hfull
    · obtain ⟨hlo, hle⟩ := hreach.resolve_left hfull
      have hk : offset = (offset.toNat : Int) := by omega
      refine Or.inr ⟨offset.toNat, hk, ?_, by omega, by omega⟩
      rw [hk]
      exact sizeT_natCast (by omega)
  by_cases hfits : sizeT offset < cap
  · have hoffset : sizeT offset ≤ n := by
      rcases hreach with hfull | ⟨k, -, hsize, hle, -⟩
      · omega
      · omega
    have hlen : (src.take (min (cap - sizeT offset) src.length)).length =
        min (cap - sizeT offset) src.length := by
      rw [List.length_take]
      omega
    have hroom : sizeT offset +
        (src.take (min (cap - sizeT offset) src.length)).length ≤ cap := by
      omega
    refine ⟨b.copy _ _ hroom, b'.copy _ _ hroom, _, ?_, ?_, rfl, rfl,
      (copy_take b hroom (n := n)).trans ?_, ?_⟩
    · rw [join, if_neg hsrc, dif_pos hfits]
    · rw [join, if_neg hsrc, dif_pos hfits]
    · have hbefore := congrArg (List.take (sizeT offset)) hshared
      rw [List.take_take, List.take_take, Nat.min_eq_left hoffset] at hbefore
      rw [copy_take b' hroom, hshared, hbefore]
    · rw [hlen]
      by_cases hfull : cap ≤ max n (sizeT offset + min (cap - sizeT offset) src.length)
      · exact Or.inl hfull
      · rcases hreach with hn | ⟨k, hk, hsize, -, -⟩
        · omega
        · exact Or.inr ⟨k, hk, by omega, by omega⟩
  · refine ⟨b, b', n, ?_, ?_, rfl, rfl, hshared, Or.inl ?_⟩
    · rw [join, if_neg hsrc, dif_neg hfits]
    · rw [join, if_neg hsrc, dif_neg hfits]
    · rcases hreach with hfull | ⟨k, -, hsize, -, hlt⟩
      · exact hfull
      · omega

/-- What `join` does in two buffers: the same, with buffers that share as much as the offset says.
A line that it delivers is the same, and so are the buffers if they are full. -/
theorem join_pair {b b' : Buffer cap 2} {offset : Int} {src : Bytes} (hcap : cap < 2 ^ 30)
    (h : Shared b b' offset) (first : SameFirst terminator b.tCheck b'.tCheck src) :
    (join b src offset terminator).2 = (join b' src offset terminator).2 ∧
      Shared (join b src offset terminator).1 (join b' src offset terminator).1
        (join b src offset terminator).2.1 ∧
      ∀ len, (join b src offset terminator).2.2.sp = some len →
        (join b src offset terminator).1.tCheck = (join b' src offset terminator).1.tCheck ∧
        (join b src offset terminator).1.mem.read 0 len =
          (join b' src offset terminator).1.mem.read 0 len ∧
        ((join b src offset terminator).1 = (join b' src offset terminator).1 ∨
          0 ≤ offset ∧ offset + src.length < 2 ^ 31) := by
  by_cases hsrc : src = []
  · subst hsrc
    refine ⟨rfl, h, ?_⟩
    intro len hlen
    cases hlen
  · obtain ⟨b₁, b₁', n, hjoin, hjoin', hwindow, hwindow', hshared, hreach⟩ :=
      h.copied hsrc (by omega) terminator
    rw [← hwindow, ← hwindow'] at first
    obtain ⟨hsame, htake, hcheck⟩ := joinLoop_pair 0 offset hshared first
    rw [hjoin, hjoin']
    refine ⟨hsame, ⟨n, ?_, htake⟩, ?_⟩
    · rcases hreach with hfull | ⟨k, rfl, hle, hlt⟩
      · exact Or.inl hfull
      · obtain ⟨hlo, hhi, -⟩ := joinLoop_bound terminator src 0 b₁ (n := k)
          (by omega) (by omega)
        exact Or.inr ⟨hlo, by omega⟩
    · intro len hlen
      have hcheck := hcheck (by rw [hlen]; rfl)
      rcases hreach with hfull | ⟨k, rfl, hle, hlt⟩
      · have heq : (joinLoop terminator src 0 b₁ offset).1 =
            (joinLoop terminator src 0 b₁' offset).1 := by
          apply Buffer.ext
          · rw [List.take_of_length_le (by rw [Buffer.target_length]; exact hfull),
              List.take_of_length_le (by rw [Buffer.target_length]; exact hfull)] at htake
            exact htake
          · exact hcheck
        exact ⟨hcheck, by rw [heq], Or.inl heq⟩
      · obtain ⟨-, -, hline⟩ := joinLoop_bound terminator src 0 b₁ (n := k)
          (by omega) (by omega)
        have hlast := hline len hlen
        refine ⟨hcheck, ?_, Or.inr ⟨by omega, by omega⟩⟩
        have hread := congrArg (List.take len) htake
        rw [List.take_take, List.take_take, Nat.min_eq_left (by omega)] at hread
        rw [Buffer.read_target _ (by omega), Buffer.read_target _ (by omega), hread]

end Ervan
