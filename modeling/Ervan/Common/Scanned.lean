import Ervan.Common.Lines

/-!
# What `join` scans

`join` takes the bytes of a chunk in order, pushes each of them once through the match window and
counts it in the offset, up to the end of the first line. What it hands back is all the rest.
-/

namespace Ervan

open Framing

/-- A byte on its way: it is pushed, and counted unless it completes the terminator. -/
def scanByte (terminator : Bytes) (w : Bytes × Int) (c : UInt8) : Bytes × Int :=
  (push w.1 c, if push w.1 c = terminator then 0 else int32 (w.2 + 1))

def scanBytes (terminator : Bytes) (w : Bytes × Int) (bs : Bytes) : Bytes × Int :=
  bs.foldl (scanByte terminator) w

/-- The bytes have gone through the window of a buffer and its offset. The NUL behind a line that
fills the buffer is in the first byte of the window, which the next byte pushes out. -/
structure Scanned {cap win : Nat} (terminator : Bytes) (b : Buffer cap win) (offset : Int)
    (bs : Bytes) (b' : Buffer cap win) (offset' : Int) : Prop where
  window : b'.tCheck.tail = (scanBytes terminator (b.tCheck, offset) bs).1.tail
  offset : offset' = (scanBytes terminator (b.tCheck, offset) bs).2

section Scanned

variable {cap win : Nat} {terminator : Bytes} {b b' b'' : Buffer cap win}
  {offset offset' offset'' : Int} {x y : Bytes}

theorem Scanned.nil (terminator : Bytes) (b : Buffer cap win) (offset : Int) :
    Scanned terminator b offset [] b offset := ⟨rfl, rfl⟩

theorem length_scanBytes (w : Bytes × Int) (bs : Bytes) :
    (scanBytes terminator w bs).1.length = w.1.length := by
  induction bs generalizing w with
  | nil => rfl
  | cons c bs ih => exact (ih (scanByte terminator w c)).trans (length_push w.1 c)

theorem scanBytes_congr (terminator : Bytes) (offset : Int) {window window' : Bytes}
    (h : window.tail = window'.tail) (hne : 0 < window.length) (hne' : 0 < window'.length)
    (bs : Bytes) :
    (scanBytes terminator (window, offset) bs).1.tail =
        (scanBytes terminator (window', offset) bs).1.tail ∧
      (scanBytes terminator (window, offset) bs).2 =
        (scanBytes terminator (window', offset) bs).2 := by
  cases bs with
  | nil => exact ⟨h, rfl⟩
  | cons c bs =>
      have hpush := push_congr h hne hne' c
      have hbyte : scanByte terminator (window, offset) c =
          scanByte terminator (window', offset) c := by
        simp only [scanByte, hpush]
      simp only [scanBytes, List.foldl_cons, hbyte, and_self]

theorem Scanned.trans (hwin : 0 < win) (h : Scanned terminator b offset x b' offset')
    (h' : Scanned terminator b' offset' y b'' offset'') :
    Scanned terminator b offset (x ++ y) b'' offset'' := by
  have hne : 0 < b'.tCheck.length := by rw [b'.tCheck_length]; exact hwin
  have hne' : 0 < (scanBytes terminator (b.tCheck, offset) x).1.length := by
    rw [length_scanBytes, b.tCheck_length]
    exact hwin
  have hsplit : scanBytes terminator (b.tCheck, offset) (x ++ y) =
      scanBytes terminator (scanBytes terminator (b.tCheck, offset) x) y := List.foldl_append
  obtain ⟨hwindow, hoffset⟩ :=
    scanBytes_congr terminator offset' h.window hne hne' y
  rw [h.offset] at hwindow hoffset
  constructor
  · rw [hsplit, h'.window, h.offset, hwindow]
  · rw [hsplit, h'.offset, h.offset, hoffset]

/-- The next byte of a scan. -/
theorem Scanned.cons {c : UInt8} (hc : (b.push c).tCheck ≠ terminator)
    (h : Scanned terminator (b.push c) (int32 (offset + 1)) x b' offset') :
    Scanned terminator b offset (c :: x) b' offset' := by
  have hbyte : scanByte terminator (b.tCheck, offset) c =
      ((b.push c).tCheck, int32 (offset + 1)) := by
    rw [Buffer.push_tCheck] at hc ⊢
    simp only [scanByte, if_neg hc]
  have hsplit : scanBytes terminator (b.tCheck, offset) (c :: x) =
      scanBytes terminator ((b.push c).tCheck, int32 (offset + 1)) x := by
    rw [← hbyte]
    rfl
  exact ⟨by rw [hsplit, h.window], by rw [hsplit, h.offset]⟩

/-- The last byte of a line. -/
theorem Scanned.last {c : UInt8} (hc : (b.push c).tCheck = terminator)
    (h : b'.tCheck.tail = (b.push c).tCheck.tail) : Scanned terminator b offset [c] b' 0 := by
  rw [Buffer.push_tCheck] at hc h
  exact ⟨h, (if_pos hc).symm⟩

/-- What a buffer that is not pushed shows behind the first byte of its window. -/
theorem poke_tail (b : Buffer cap win) {n : Nat} (hn : n ≤ cap) (hwin : 0 < win) :
    (b.poke n nul).tCheck.tail = b.tCheck.tail := by
  obtain ⟨-, -, hwindow⟩ := b.poke_nul hn hwin
  rw [hwindow]
  split
  · cases b.tCheck <;> rfl
  · rfl

/-- What `join` copies has nothing to do with its window and its count. -/
theorem join_loop (terminator : Bytes) (b : Buffer cap win) (offset : Int) {src : Bytes}
    (hsrc : src ≠ []) :
    ∃ b' : Buffer cap win, join b src offset terminator = joinLoop terminator src 0 b' offset ∧
      b'.tCheck = b.tCheck := by
  unfold join
  rw [if_neg hsrc]
  split
  · exact ⟨_, rfl, rfl⟩
  · exact ⟨b, rfl, rfl⟩

end Scanned

section Counted

variable {cap win : Nat} {terminator : Bytes} {b : Buffer cap win} {offset : Int}

theorem int32_int32_add (x y : Int) : int32 (int32 x + y) = int32 (x + y) := by
  unfold int32
  exact Int.bmod_add_bmod

theorem int32_int32 (x : Int) : int32 (int32 x) = int32 x := by
  unfold int32
  exact Int.bmod_bmod

/-- Bytes that complete nothing are counted, modulo `2 ^ 32`. -/
theorem joinLoop_counted {src : Bytes} {i : Nat} (quiet : Quiet terminator b.tCheck src)
    (hi : i + src.length ≤ 2 ^ 31) (hoffset : int32 offset = offset) :
    joinLoop terminator src i b offset =
      (b.slide src, int32 (offset + src.length), ⟨none, [], false⟩) := by
  induction src generalizing i b offset with
  | nil =>
      simp only [joinLoop, List.length_nil, Int.natCast_zero, Int.add_zero, hoffset]
      rfl
  | cons c src ih =>
      obtain ⟨hc, rest⟩ := quiet
      simp only [List.length_cons] at hi
      rw [joinLoop, if_neg (by omega)]
      simp only [if_neg (show (b.push c).tCheck ≠ terminator from hc)]
      rw [ih rest (by omega) (int32_int32 _), int32_int32_add, List.length_cons,
        Int.natCast_succ, Int.add_assoc, Int.add_comm 1]
      rfl

/-- The length of a line is what has been counted, modulo `2 ^ 32`, less the terminator. -/
theorem joinLoop_measured {pre : Bytes} {c : UInt8} {rest : Bytes} {i : Nat}
    (quiet : Quiet terminator b.tCheck pre)
    (complete : push (slide b.tCheck pre) c = terminator)
    (hi : i + pre.length < 2 ^ 31) (hoffset : int32 offset = offset) :
    joinLoop terminator (pre ++ c :: rest) i b offset =
      let len := sizeT (int32 (offset + pre.length) - win + 1)
      if cap < len then (b.slide (pre ++ [c]), 0, ⟨none, rest, true⟩)
      else ((b.slide (pre ++ [c])).poke len nul, 0, ⟨some len, rest, false⟩) := by
  induction pre generalizing i b offset with
  | nil =>
      simp only [slide_nil] at complete
      rw [List.nil_append, joinLoop, if_neg (by omega)]
      simp only [if_pos (show (b.push c).tCheck = terminator from complete), List.length_nil,
        Int.natCast_zero, Int.add_zero, hoffset]
      rfl
  | cons d pre ih =>
      obtain ⟨hd, quiet⟩ := quiet
      simp only [List.length_cons] at hi
      rw [List.cons_append, joinLoop, if_neg (by omega)]
      simp only [if_neg (show (b.push d).tCheck ≠ terminator from hd)]
      rw [ih quiet complete (by omega) (int32_int32 _), int32_int32_add, List.length_cons,
        Int.natCast_succ, Int.add_assoc, Int.add_comm 1]
      rfl

theorem join_counted {src : Bytes} (quiet : Quiet terminator b.tCheck src)
    (hlen : src.length ≤ 2 ^ 31) (hoffset : int32 offset = offset) :
    ∃ b', join b src offset terminator =
        (b', int32 (offset + src.length), ⟨none, [], false⟩) ∧
      b'.tCheck = slide b.tCheck src := by
  by_cases hsrc : src = []
  · subst hsrc
    refine ⟨b, ?_, rfl⟩
    simp [join, hoffset]
  · obtain ⟨b', hjoin, hwindow⟩ := join_loop terminator b offset hsrc
    rw [joinLoop_counted (by rw [hwindow]; exact quiet) (by omega) hoffset] at hjoin
    exact ⟨_, hjoin, by rw [Buffer.slide_tCheck, hwindow]⟩

end Counted

end Ervan
