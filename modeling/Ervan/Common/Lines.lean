import Ervan.Common.Join
import Ervan.Library.Framing

/-!
# What `join` delivers

A `Scan` is what a receiver of lines knows between two bytes: its match window and
the bytes received since the last terminator. A line buffer with its offset
represents a scan as long as the `int` offset has not overflowed, and then `join`
on a chunk does what the scan does byte by byte. The buffer also keeps bytes that
no line is made of: whatever followed the terminator in the chunk that brought it.
-/

namespace Ervan

open Framing

namespace Buffer

variable {cap win : Nat}

/-- The buffer after a sequence of bytes has passed through its match window. -/
def slide (b : Buffer cap win) (bs : Bytes) : Buffer cap win := bs.foldl push b

@[simp] theorem push_tCheck (b : Buffer cap win) (c : UInt8) :
    (b.push c).tCheck = Framing.push b.tCheck c := rfl

@[simp] theorem slide_target (b : Buffer cap win) (bs : Bytes) :
    (b.slide bs).target = b.target := by
  induction bs generalizing b with
  | nil => rfl
  | cons c bs ih => exact ih (b.push c)

@[simp] theorem slide_tCheck (b : Buffer cap win) (bs : Bytes) :
    (b.slide bs).tCheck = Framing.slide b.tCheck bs := by
  induction bs generalizing b with
  | nil => rfl
  | cons c bs ih => exact ih (b.push c)

@[simp] theorem poke_target (b : Buffer cap win) (i : Nat) (c : UInt8) :
    (b.poke i c).target = b.target.set i c := rfl

theorem mem_of_lt (b : Buffer cap win) {i : Nat} (h : i < cap) :
    b.mem i = b.target.getD i nul := by
  have := b.target_length
  simp [mem, Mem.ofBytes, List.getElem?_append_left (show i < b.target.length by omega)]

theorem mem_cap (b : Buffer cap win) : b.mem cap = b.tCheck.headD nul := by
  have := b.target_length
  simp [mem, Mem.ofBytes, List.getElem?_append_right (show b.target.length ≤ cap by omega),
    this, List.head?_eq_getElem?]

/-- A read within the target. -/
theorem read_target (b : Buffer cap win) {n : Nat} (h : n ≤ cap) :
    b.mem.read 0 n = b.target.take n := by
  have := b.target_length
  apply List.ext_getElem
  · simp [this, h]
  · intro i h₁ h₂
    have hi : i < cap := by simp at h₁; omega
    simp [Mem.read, b.mem_of_lt hi, List.getElem?_eq_getElem (show i < b.target.length by omega)]

/-- The NUL behind a line of `n` bytes, which may be the first byte of the window. -/
theorem poke_nul (b : Buffer cap win) {n : Nat} (hn : n ≤ cap) (hwin : 0 < win) :
    (b.poke n nul).mem.read 0 n = b.target.take n ∧ (b.poke n nul).mem n = nul ∧
      (b.poke n nul).tCheck = if n = cap then b.tCheck.set 0 nul else b.tCheck := by
  have htarget := b.target_length
  have htCheck := b.tCheck_length
  refine ⟨?_, ?_, ?_⟩
  · rw [read_target _ hn, poke_target, List.take_set_of_le (Nat.le_refl n)]
  · rcases Nat.lt_or_eq_of_le hn with hlt | rfl
    · rw [mem_of_lt _ hlt, poke_target]
      simp [show n < b.target.length by omega]
    · rw [mem_cap]
      simp only [poke, Nat.lt_irrefl, if_false, Nat.sub_self]
      cases htc : b.tCheck with
      | nil => simp [htc] at htCheck; omega
      | cons x xs => rfl
  · rcases Nat.lt_or_eq_of_le hn with hlt | rfl
    · simp [poke, hlt, Nat.ne_of_lt hlt]
    · simp [poke]

end Buffer

/-- The match window and the bytes since the last terminator. -/
structure Scan where
  window : Bytes
  pending : Bytes

namespace Scan

/-- The line in `raw`, its bytes and its terminator, when it fits the buffer. -/
def line (cap win : Nat) (raw : Bytes) : Option Bytes :=
  if win ≤ raw.length ∧ raw.length ≤ cap + win then some (raw.take (raw.length - win)) else none

/-- The scan after a terminator. The NUL of a line that fills the buffer is written
over the first byte of the window. -/
def restart (cap win : Nat) (window raw : Bytes) : Scan :=
  ⟨if raw.length = cap + win then window.set 0 nul else window, []⟩

/-- One byte: the next scan and, at a terminator, the line or the news that it does
not fit. -/
def feed (cap win : Nat) (terminator : Bytes) (s : Scan) (c : UInt8) :
    Scan × Option (Option Bytes) :=
  if push s.window c = terminator then
    (restart cap win terminator (s.pending ++ [c]), some (line cap win (s.pending ++ [c])))
  else (⟨push s.window c, s.pending ++ [c]⟩, none)

variable {cap win : Nat} {terminator : Bytes} {s : Scan}

theorem feed_quiet {c : UInt8} (h : push s.window c ≠ terminator) :
    s.feed cap win terminator c = (⟨push s.window c, s.pending ++ [c]⟩, none) := if_neg h

theorem feed_complete {c : UInt8} (h : push s.window c = terminator) :
    s.feed cap win terminator c =
      (restart cap win terminator (s.pending ++ [c]), some (line cap win (s.pending ++ [c]))) :=
  if_pos h

end Scan

/-- The buffer and the offset of a receiver whose scan is `s`. -/
structure Represents {cap win : Nat} (b : Buffer cap win) (offset : Int) (s : Scan) : Prop where
  offset : offset = s.pending.length
  small : s.pending.length < 2 ^ 31
  window : b.tCheck = s.window
  target : b.target.take s.pending.length = s.pending.take cap

/-- A buffer in which `join` delivers a line, with a NUL behind it. -/
structure Delivers {cap win : Nat} (b : Buffer cap win) (terminator line : Bytes) : Prop where
  fits : line.length ≤ cap
  read : b.mem.read 0 line.length = line
  nul : b.mem line.length = nul
  window : b.tCheck = if line.length = cap then terminator.set 0 Ervan.nul else terminator

/-- The first bytes of the memory are the line's. -/
theorem Delivers.mem_eq {cap win : Nat} {b : Buffer cap win} {terminator line : Bytes}
    (h : Delivers b terminator line) {i : Nat} (hi : i ≤ line.length) :
    b.mem i = line.getD i Ervan.nul := by
  rcases Nat.lt_or_eq_of_le hi with hlt | rfl
  · have hread := congrArg (·[i]?) h.read
    simp only [Mem.read, List.getElem?_map, List.getElem?_range hlt, Option.map_some,
      Nat.zero_add] at hread
    rw [List.getD_eq_getElem?_getD, ← hread, Option.getD_some]
  · rw [h.nul, List.getD_eq_getElem?_getD, List.getElem?_eq_none (Nat.le_refl _), Option.getD_none]

section Join

variable {cap win : Nat} {terminator : Bytes} {b : Buffer cap win} {offset : Int} {s : Scan}

/-- After a terminator a buffer represents the empty scan, whatever it contains. -/
theorem represents_empty (b : Buffer cap win) : Represents b 0 ⟨b.tCheck, []⟩ :=
  ⟨rfl, by simp, rfl, by simp⟩

theorem joinLoop_quiet {src : Bytes} {i n : Nat} (quiet : Quiet terminator b.tCheck src)
    (hi : i + src.length ≤ 2 ^ 31) (hn : n + src.length < 2 ^ 31) :
    joinLoop terminator src i b n =
      (b.slide src, ((n + src.length : Nat) : Int), ⟨none, [], false⟩) := by
  induction src generalizing i n b with
  | nil => rfl
  | cons c src ih =>
      obtain ⟨hc, rest⟩ := quiet
      simp only [List.length_cons] at hi hn
      have hnext : int32 ((n : Int) + 1) = ((n + 1 : Nat) : Int) := by
        rw [← Int.natCast_succ]
        exact int32_natCast (by omega)
      rw [joinLoop, if_neg (by omega)]
      simp only [Buffer.push_tCheck, if_neg hc, hnext]
      rw [ih rest (by omega) (by omega), List.length_cons,
        show n + 1 + src.length = n + (src.length + 1) by omega]
      rfl

theorem joinLoop_complete {pre : Bytes} {c : UInt8} {rest : Bytes} {i n : Nat}
    (quiet : Quiet terminator b.tCheck pre)
    (complete : push (slide b.tCheck pre) c = terminator)
    (hi : i + pre.length < 2 ^ 31) (hn : n + pre.length < 2 ^ 31) :
    joinLoop terminator (pre ++ c :: rest) i b n =
      let len := sizeT (((n + pre.length + 1 : Nat) : Int) - win)
      if cap < len then (b.slide (pre ++ [c]), 0, ⟨none, rest, true⟩)
      else ((b.slide (pre ++ [c])).poke len nul, 0, ⟨some len, rest, false⟩) := by
  induction pre generalizing i n b with
  | nil =>
      have hlen : sizeT ((n : Int) - win + 1) = sizeT (((n + 1 : Nat) : Int) - win) := by
        congr 1
        omega
      simp only [slide_nil] at complete
      simp only [List.nil_append, joinLoop, Buffer.push_tCheck, if_pos complete, hlen,
        List.length_nil, Nat.add_zero]
      rw [if_neg (by omega)]
      rfl
  | cons d pre ih =>
      obtain ⟨hd, quiet⟩ := quiet
      simp only [List.length_cons] at hi hn
      have hnext : int32 ((n : Int) + 1) = ((n + 1 : Nat) : Int) := by
        rw [← Int.natCast_succ]
        exact int32_natCast (by omega)
      rw [List.cons_append, joinLoop, if_neg (by omega)]
      simp only [Buffer.push_tCheck, if_neg hd, hnext]
      rw [ih quiet complete (by omega) (by omega)]
      have hlen : n + 1 + pre.length + 1 = n + (d :: pre).length + 1 := by
        simp only [List.length_cons]
        omega
      simp only [hlen]
      rfl

/-- What `join` hands to its loop: the chunk copied behind what was pending. -/
theorem join_eq_joinLoop (terminator : Bytes) (h : Represents b offset s) (src : Bytes)
    (hsrc : src ≠ []) :
    ∃ b' : Buffer cap win, join b src offset terminator = joinLoop terminator src 0 b' offset ∧
      b'.tCheck = b.tCheck ∧
      b'.target.take (s.pending.length + src.length) = (s.pending ++ src).take cap := by
  have hsmall := h.small
  have hoffset : sizeT offset = s.pending.length := by
    rw [h.offset]
    exact sizeT_natCast (by omega)
  have htarget := b.target_length
  by_cases hcap : s.pending.length < cap
  · refine ⟨b.copy s.pending.length (src.take (min (cap - s.pending.length) src.length)) (by
      rw [List.length_take]; omega), ?_, rfl, ?_⟩
    · simp only [join, if_neg hsrc, hoffset, dif_pos hcap]
    · have hpending : b.target.take s.pending.length = s.pending := by
        rw [h.target, List.take_of_length_le (by omega)]
      simp only [Buffer.copy, hpending]
      rcases Nat.le_total (cap - s.pending.length) src.length with hle | hle
      · rw [Nat.min_eq_left hle]
        have hdrop : b.target.drop (s.pending.length +
            (src.take (cap - s.pending.length)).length) = [] := by
          apply List.drop_eq_nil_of_le
          rw [List.length_take]
          omega
        rw [hdrop, List.append_nil, List.take_append (i := cap), List.take_of_length_le (i := cap)
          (by omega), List.take_of_length_le
            (by rw [List.length_append, List.length_take]; omega)]
      · have hlength : (s.pending ++ src).length = s.pending.length + src.length :=
          List.length_append
        rw [Nat.min_eq_right hle, List.take_length, List.take_append_of_le_length (by simp),
          List.take_of_length_le (by omega), List.take_of_length_le (by omega)]
  · refine ⟨b, ?_, rfl, ?_⟩
    · simp only [join, if_neg hsrc, hoffset, dif_neg hcap]
    · have hfull : b.target = s.pending.take cap := by
        rw [← h.target, List.take_of_length_le (by omega)]
      rw [hfull, List.take_of_length_le (by rw [List.length_take]; omega),
        List.take_append_of_le_length (by omega)]

/-- A chunk that completes nothing becomes part of what is pending. -/
theorem join_quiet (h : Represents b offset s) {src : Bytes}
    (quiet : Quiet terminator s.window src) (small : s.pending.length + src.length < 2 ^ 31) :
    ∃ b' offset', join b src offset terminator = (b', offset', ⟨none, [], false⟩) ∧
      Represents b' offset' ⟨slide s.window src, s.pending ++ src⟩ := by
  by_cases hsrc : src = []
  · subst hsrc
    exact ⟨b, offset, by simp [join], by simpa using h⟩
  · obtain ⟨b', hjoin, hwindow, htarget⟩ := join_eq_joinLoop terminator h src hsrc
    rw [h.offset, joinLoop_quiet (by rw [hwindow, h.window]; exact quiet) (by omega) small]
      at hjoin
    rw [h.offset]
    refine ⟨_, _, hjoin, ?_, ?_, ?_, ?_⟩
    · simp
    · simpa using small
    · rw [Buffer.slide_tCheck, hwindow, h.window]
    · simpa using htarget

/-- What `join` returns for a line that is delivered or too long. -/
def JoinResult.ofLine (rest : Bytes) : Option Bytes → JoinResult
  | some line => ⟨some line.length, rest, false⟩
  | none => ⟨none, rest, true⟩

/-- The length that `join` computes in `size_t` decides whether the line fits. -/
theorem sizeT_line (hwin : win < 2 ^ 62) (raw : Bytes) (hraw : raw.length < 2 ^ 62)
    (hcap : raw.length < win → cap < 2 ^ 62) :
    (∃ line, Scan.line cap win raw = some line ∧ line = raw.take line.length ∧
      sizeT ((raw.length : Int) - win) = line.length ∧ line.length ≤ cap ∧
      line.length + win = raw.length) ∨
    (Scan.line cap win raw = none ∧ cap < sizeT ((raw.length : Int) - win) ∧
      raw.length ≠ cap + win) := by
  by_cases hlo : win ≤ raw.length
  · have hsize : sizeT ((raw.length : Int) - win) = raw.length - win := by
      rw [← Int.ofNat_sub hlo]
      exact sizeT_natCast (by omega)
    have hlength : (raw.take (raw.length - win)).length = raw.length - win := by
      rw [List.length_take]
      omega
    by_cases hhi : raw.length ≤ cap + win
    · exact Or.inl ⟨_, if_pos ⟨hlo, hhi⟩, by rw [hlength], by rw [hsize, hlength],
        by omega, by omega⟩
    · exact Or.inr ⟨if_neg (by omega), by omega, by omega⟩
  · have hneg := sizeT_of_neg (x := (raw.length : Int) - win) (by omega) (by omega)
    have hcap := hcap (by omega)
    exact Or.inr ⟨if_neg (by omega), by omega, by omega⟩

/-- The chunk was copied as far as it fits, behind what was pending. -/
theorem copied_getElem? {raw rest : Bytes} {n i : Nat} (hn : raw.length ≤ n)
    (htarget : b.target.take n = (raw ++ rest).take cap) (hi : i < cap) (hraw : i < raw.length) :
    b.target[i]? = raw[i]? := by
  have hget : (b.target.take n)[i]? = ((raw ++ rest).take cap)[i]? := by rw [htarget]
  rwa [List.getElem?_take_of_lt (by omega), List.getElem?_take_of_lt hi,
    List.getElem?_append_left hraw] at hget

/-- The NUL behind a line that was copied delivers it. -/
theorem delivers_poke {raw line : Bytes} (hwin : 0 < win) (hwindow : b.tCheck = terminator)
    (hcopied : ∀ i < cap, i < raw.length → b.target[i]? = raw[i]?)
    (hline : line = raw.take line.length) (hle : line.length ≤ cap)
    (htotal : line.length + win = raw.length) :
    Delivers (b.poke line.length nul) terminator line := by
  obtain ⟨hread, hnul, htCheck⟩ := b.poke_nul hle hwin
  refine ⟨hle, ?_, hnul, by rw [htCheck, hwindow]⟩
  have htaken : b.target.take line.length = raw.take line.length := by
    apply List.ext_getElem?
    intro i
    simp only [List.getElem?_take]
    split
    · exact hcopied i (by omega) (by omega)
    · rfl
  rw [hread, htaken, ← hline]

/-- The last byte of the terminator still stands where it was copied to. -/
theorem poke_behind {raw line : Bytes} {c : UInt8} (hwin : 1 < win)
    (hcopied : ∀ i < cap, i < (raw ++ [c]).length → b.target[i]? = (raw ++ [c])[i]?)
    (htotal : line.length + win = (raw ++ [c]).length) (hroom : line.length + win ≤ cap) :
    (b.poke line.length nul).mem (line.length + win - 1) = c := by
  have hlast : line.length + win - 1 = raw.length := by
    rw [htotal, List.length_append, List.length_singleton, Nat.add_sub_cancel]
  rw [Buffer.mem_of_lt _ (by omega), Buffer.poke_target, List.getD_eq_getElem?_getD,
    List.getElem?_set_ne (by omega), hcopied _ (by omega) (by omega), hlast,
    List.getElem?_concat_length, Option.getD_some]

/-- The first terminator of a chunk ends the line, which is delivered when it fits
the buffer. The NUL takes the place of the terminator's first byte, and the last one
still stands where the chunk was copied to. The rest of the chunk is handed back. -/
theorem join_complete (h : Represents b offset s) {pre : Bytes} {c : UInt8} (rest : Bytes)
    (quiet : Quiet terminator s.window pre)
    (complete : push (slide s.window pre) c = terminator)
    (small : s.pending.length + pre.length < 2 ^ 31)
    (hcap : s.pending.length + pre.length + 1 < win → cap < 2 ^ 62) (hwin : 0 < win)
    (hwin' : win < 2 ^ 62) :
    ∃ b', join b (pre ++ c :: rest) offset terminator =
        (b', 0, .ofLine rest (Scan.line cap win (s.pending ++ pre ++ [c]))) ∧
      (∀ line, Scan.line cap win (s.pending ++ pre ++ [c]) = some line →
        Delivers b' terminator line ∧ (1 < win → line.length + win ≤ cap →
          terminator.getLast? = some (b'.mem (line.length + win - 1)))) ∧
      Represents b' 0 (Scan.restart cap win terminator (s.pending ++ pre ++ [c])) := by
  obtain ⟨b₁, hjoin, hwindow, htarget⟩ :=
    join_eq_joinLoop terminator h (pre ++ c :: rest) (by simp)
  rw [← h.window, ← hwindow] at quiet complete
  rw [h.offset, joinLoop_complete quiet complete (by omega) small] at hjoin
  have hslide : (b₁.slide (pre ++ [c])).tCheck = terminator := by
    rw [Buffer.slide_tCheck, slide_append, ← complete]
    rfl
  have hlength : s.pending.length + pre.length + 1 = (s.pending ++ pre ++ [c]).length := by
    simp [Nat.add_assoc]
  rw [h.offset]
  rw [hlength] at hjoin
  rw [hlength] at hcap
  rcases sizeT_line hwin' (s.pending ++ pre ++ [c]) (by rw [← hlength]; omega) hcap with
    ⟨line, hline, hprefix, hsize, hle, htotal⟩ | ⟨hline, hlt, hne⟩
  · simp only [hsize, if_neg (Nat.not_lt.mpr hle)] at hjoin
    rw [show s.pending ++ (pre ++ c :: rest) = s.pending ++ pre ++ [c] ++ rest by simp] at htarget
    have hcopied (i : Nat) (hi : i < cap) (hraw : i < (s.pending ++ pre ++ [c]).length) :
        (b₁.slide (pre ++ [c])).target[i]? = (s.pending ++ pre ++ [c])[i]? := by
      rw [Buffer.slide_target]
      exact copied_getElem? (by simp) htarget hi hraw
    refine ⟨_, by rw [hjoin, hline]; rfl, ?_, ?_⟩
    · intro line' hline'
      rw [hline] at hline'
      cases hline'
      refine ⟨delivers_poke hwin hslide hcopied hprefix hle htotal, fun htwo hroom => ?_⟩
      have hwindow' : 0 < (slide b₁.tCheck pre).length := by
        rw [length_slide, b₁.tCheck_length]
        exact hwin
      rw [poke_behind htwo hcopied htotal hroom, ← complete, getLast?_push _ _ hwindow']
    · have hempty := represents_empty ((b₁.slide (pre ++ [c])).poke line.length nul)
      rw [((b₁.slide (pre ++ [c])).poke_nul hle hwin).2.2, hslide] at hempty
      simp only [Scan.restart]
      convert hempty using 3
      omega
  · simp only [if_pos hlt] at hjoin
    refine ⟨_, by rw [hjoin, hline]; rfl, ?_, ?_⟩
    · intro line hsome
      rw [hline] at hsome
      cases hsome
    · have hempty := represents_empty (b₁.slide (pre ++ [c]))
      rw [hslide] at hempty
      simpa only [Scan.restart, if_neg hne] using hempty

/-- Everything `join` can do, whatever the offset: the window alone decides where a
line ends, and the offset only how long it seems to be. -/
inductive Joined (terminator : Bytes) (b : Buffer cap win) (src : Bytes) :
    Buffer cap win × Int × JoinResult → Prop
  /-- No byte of the chunk completes the terminator. -/
  | quiet (b' : Buffer cap win) (offset : Int) (quiet : Quiet terminator b.tCheck src)
      (window : b'.tCheck = slide b.tCheck src) :
      Joined terminator b src (b', offset, ⟨none, [], false⟩)
  /-- The index has passed the largest `int`. -/
  | gaveUp (b' : Buffer cap win) (offset : Int) (h : 2 ^ 31 < src.length) :
      Joined terminator b src (b', offset, ⟨none, [], false⟩)
  /-- The line before the first terminator does not fit. -/
  | tooLong (b' : Buffer cap win) (pre rest : Bytes) (c : UInt8) (eq : src = pre ++ c :: rest)
      (quiet : Quiet terminator b.tCheck pre)
      (complete : push (slide b.tCheck pre) c = terminator) (window : b'.tCheck = terminator) :
      Joined terminator b src (b', 0, ⟨none, rest, true⟩)
  /-- The line before the first terminator is delivered. -/
  | line (b' : Buffer cap win) (pre rest : Bytes) (c : UInt8) (eq : src = pre ++ c :: rest)
      (quiet : Quiet terminator b.tCheck pre)
      (complete : push (slide b.tCheck pre) c = terminator) (line : Bytes)
      (delivers : Delivers b' terminator line) :
      Joined terminator b src (b', 0, ⟨some line.length, rest, false⟩)

theorem joinLoop_joined (terminator : Bytes) (hwin : 0 < win) (src : Bytes) (i : Nat)
    (b : Buffer cap win) (offset : Int) :
    (2 ^ 31 < i + src.length ∧ ∃ b' offset',
      joinLoop terminator src i b offset = (b', offset', ⟨none, [], false⟩)) ∨
    Joined terminator b src (joinLoop terminator src i b offset) := by
  induction src generalizing i b offset with
  | nil => exact Or.inr (.quiet b offset trivial rfl)
  | cons c src ih =>
      rw [joinLoop]
      by_cases hi : 2 ^ 31 ≤ i
      · rw [if_pos hi]
        exact Or.inl ⟨by simp only [List.length_cons]; omega, b, offset, rfl⟩
      · rw [if_neg hi]
        by_cases hc : (b.push c).tCheck = terminator
        · simp only [if_pos hc]
          split
          · exact Or.inr (.tooLong _ [] src c rfl trivial hc hc)
          · rename_i hfits
            have hfits := Nat.le_of_not_lt hfits
            generalize sizeT (offset - win + 1) = n at hfits
            obtain ⟨-, hnul, hwindow⟩ := (b.push c).poke_nul hfits hwin
            have hdelivers : Delivers ((b.push c).poke n nul) terminator
                (((b.push c).poke n nul).mem.read 0 n) := by
              rw [hc] at hwindow
              constructor <;> rw [Mem.length_read]
              · exact hfits
              · exact hnul
              · exact hwindow
            have hline := Joined.line _ [] src c rfl trivial hc _ hdelivers
            rw [Mem.length_read] at hline
            exact Or.inr hline
        · simp only [if_neg hc]
          rcases ih (i + 1) (b.push c) (int32 (offset + 1)) with ⟨hlong, b', offset', heq⟩ | joined
          · refine Or.inl ⟨?_, b', offset', heq⟩
            simp only [List.length_cons]
            omega
          · refine Or.inr ?_
            generalize joinLoop terminator src (i + 1) (b.push c) (int32 (offset + 1)) = r at joined
            cases joined with
            | quiet b' offset quiet window => exact .quiet b' offset ⟨hc, quiet⟩ window
            | gaveUp b' offset h =>
                exact .gaveUp b' offset (by simp only [List.length_cons]; omega)
            | tooLong b' pre rest d eq quiet complete window =>
                exact .tooLong b' (c :: pre) rest d (by rw [eq]; rfl) ⟨hc, quiet⟩ complete window
            | line b' pre rest d eq quiet complete line delivers =>
                exact .line b' (c :: pre) rest d (by rw [eq]; rfl) ⟨hc, quiet⟩ complete line delivers

theorem join_joined (hwin : 0 < win) (b : Buffer cap win) (src : Bytes) (offset : Int)
    (terminator : Bytes) : Joined terminator b src (join b src offset terminator) := by
  have hloop (b' : Buffer cap win) (hb : b'.tCheck = b.tCheck) :
      Joined terminator b src (joinLoop terminator src 0 b' offset) := by
    rcases joinLoop_joined terminator hwin src 0 b' offset with
      ⟨hlong, b'', offset', heq⟩ | joined
    · rw [heq]
      exact .gaveUp b'' offset' (by omega)
    · generalize joinLoop terminator src 0 b' offset = r at joined
      cases joined with
      | quiet b'' offset quiet window => exact .quiet b'' offset (hb ▸ quiet) (hb ▸ window)
      | gaveUp b'' offset h => exact .gaveUp b'' offset h
      | tooLong b'' pre rest c eq quiet complete window =>
          exact .tooLong b'' pre rest c eq (hb ▸ quiet) (hb ▸ complete) window
      | line b'' pre rest c eq quiet complete line delivers =>
          exact .line b'' pre rest c eq (hb ▸ quiet) (hb ▸ complete) line delivers
  unfold join
  split
  · rename_i hsrc
    subst hsrc
    exact .quiet b offset trivial rfl
  · split
    · exact hloop _ rfl
    · exact hloop b rfl

/-- What `join` hands back is a proper suffix of the chunk. -/
theorem Joined.rest {src : Bytes} {r : Buffer cap win × Int × JoinResult}
    (h : Joined terminator b src r) (hsrc : src ≠ []) :
    ∃ taken, taken ≠ [] ∧ src = taken ++ r.2.2.rest := by
  cases h with
  | quiet b' offset quiet window => exact ⟨src, hsrc, by simp⟩
  | gaveUp b' offset h => exact ⟨src, hsrc, by simp⟩
  | tooLong b' pre rest c eq quiet complete window => exact ⟨pre ++ [c], by simp, by simp [eq]⟩
  | line b' pre rest c eq quiet complete line delivers => exact ⟨pre ++ [c], by simp, by simp [eq]⟩

/-- A buffer whose offset is in range represents some scan. -/
theorem represents_of_offset (b : Buffer cap win) (hlo : 0 ≤ offset) (hhi : offset < 2 ^ 31) :
    ∃ s, Represents b offset s := by
  have htarget := b.target_length
  refine ⟨⟨b.tCheck, b.target.take offset.toNat ++ List.replicate (offset.toNat - cap) nul⟩, ?_⟩
  have hlength : (b.target.take offset.toNat ++
      List.replicate (offset.toNat - cap) nul).length = offset.toNat := by
    simp [htarget]
    omega
  refine ⟨by rw [hlength]; omega, by rw [hlength]; omega, rfl, ?_⟩
  rw [hlength]
  rcases Nat.le_total offset.toNat cap with hle | hle
  · rw [Nat.sub_eq_zero_of_le hle, List.replicate_zero, List.append_nil, List.take_take,
      Nat.min_eq_right hle]
  · have htake : b.target.take offset.toNat = b.target := List.take_of_length_le (by omega)
    simp only [htake]
    rw [List.take_append_of_le_length (by omega), List.take_of_length_le (by omega)]

/-- With an offset in range, the terminator's last byte stands behind a short line. -/
theorem join_behind {b' : Buffer cap win} {src rest : Bytes} {n : Nat}
    (hlo : 0 ≤ offset) (hhi : offset + src.length < 2 ^ 31)
    (hcap : cap < 2 ^ 62) (hwin : 1 < win) (hwin' : win < 2 ^ 62)
    (heq : join b src offset terminator = (b', 0, ⟨some n, rest, false⟩)) (hn : n + win ≤ cap) :
    terminator.getLast? = some (b'.mem (n + win - 1)) := by
  obtain ⟨s, hs⟩ := represents_of_offset b hlo (by omega)
  have hoffset := hs.offset
  rcases quiet_or_first terminator s.window src with quiet | ⟨pre, c, rest', rfl, quiet, complete⟩
  · obtain ⟨b'', offset', hjoin, -⟩ := join_quiet hs quiet (by omega)
    rw [hjoin] at heq
    cases heq
  · simp only [List.length_append, List.length_cons] at hhi
    obtain ⟨b'', hjoin, hline, -⟩ :=
      join_complete hs rest' quiet complete (by omega) (fun _ => hcap) (by omega) hwin'
    rw [hjoin] at heq
    cases hfits : Scan.line cap win (s.pending ++ pre ++ [c]) with
    | none =>
        rw [hfits] at heq
        cases heq
    | some line =>
        rw [hfits] at heq
        cases heq
        exact (hline line hfits).2 hwin hn

end Join

end Ervan
