import Ervan.Common.Span

/-!
# Assembling lines from chunks

`join` copies a chunk into a line buffer and shifts every byte of it through a
match window, the last bytes of the same array. When the window shows the
terminator, the bytes collected since the previous one are a line.

A `Buffer cap win` is the array of `cap + win` bytes, held as the two spans
`target` and `t_check` that `join` makes of it.
-/

namespace Ervan

/-- An array of `cap + win` bytes, cut where `join` cuts it. -/
@[ext] structure Buffer (cap win : Nat) where
  target : Bytes
  tCheck : Bytes
  target_length : target.length = cap
  tCheck_length : tCheck.length = win

namespace Buffer

variable {cap win : Nat}

/-- The array as memory. Nothing that is modelled reads past its end. -/
def mem (b : Buffer cap win) : Mem := Mem.ofBytes (b.target ++ b.tCheck)

/-- Assignment to one byte of the array. -/
def poke (b : Buffer cap win) (i : Nat) (c : UInt8) : Buffer cap win :=
  { target := b.target.set i c
    tCheck := if i < cap then b.tCheck else b.tCheck.set (i - cap) c
    target_length := by simp [b.target_length]
    tCheck_length := by split <;> simp [b.tCheck_length] }

/-- `memcpy` into the target. `join` bounds the length so that it fits. -/
def copy (b : Buffer cap win) (offset : Nat) (bs : Bytes) (_ : offset + bs.length ≤ cap) :
    Buffer cap win :=
  { b with
    target := b.target.take offset ++ bs ++ b.target.drop (offset + bs.length)
    target_length := by
      have := b.target_length
      simp
      omega }

end Buffer

/-- `push_back`: every byte moves down by one and `c` takes the last place. -/
def pushBack (window : Bytes) (c : UInt8) : Bytes := (window ++ [c]).tail

@[simp] theorem length_pushBack (window : Bytes) (c : UInt8) :
    (pushBack window c).length = window.length := by
  simp [pushBack]

/-- `push_back` on the match window. -/
def Buffer.push {cap win : Nat} (b : Buffer cap win) (c : UInt8) : Buffer cap win :=
  { b with
    tCheck := pushBack b.tCheck c
    tCheck_length := by rw [length_pushBack, b.tCheck_length] }

/-- The line, the unread part of the chunk and the error. A missing `sp` is the
null span; a span of `join` always starts at the first byte of the buffer, so its
length is all there is to say. `ec` tells `result_out_of_range`. -/
structure JoinResult where
  sp : Option Nat
  rest : Bytes
  ec : Bool
  deriving DecidableEq, Repr

section Join

variable {cap win : Nat}

/-- The scan of `join`. The index `i` is an `int` that is compared with the
`size_t` length of the chunk, so the scan gives up when it would pass `2 ^ 31`. -/
def joinLoop (terminator : Bytes) :
    Bytes → Nat → Buffer cap win → Int → Buffer cap win × Int × JoinResult
  | [], _, b, offset => (b, offset, ⟨none, [], false⟩)
  | c :: rest, i, b, offset =>
      if 2 ^ 31 ≤ i then (b, offset, ⟨none, [], false⟩)
      else
        let b := b.push c
        if b.tCheck = terminator then
          let targetLen := sizeT (offset - win + 1)
          if cap < targetLen then (b, 0, ⟨none, rest, true⟩)
          else (b.poke targetLen nul, 0, ⟨some targetLen, rest, false⟩)
        else joinLoop terminator rest (i + 1) b (int32 (offset + 1))

/-- `join`. The chunk is copied as far as it fits, with everything that follows the
terminator; the `int` offset is compared with the target's length as a `size_t`. -/
def join (b : Buffer cap win) (src : Bytes) (offset : Int) (terminator : Bytes) :
    Buffer cap win × Int × JoinResult :=
  if src = [] then (b, offset, ⟨none, [], false⟩)
  else if h : sizeT offset < cap then
    let n := min (cap - sizeT offset) src.length
    joinLoop terminator src 0
      (b.copy (sizeT offset) (src.take n) (by rw [List.length_take]; omega)) offset
  else joinLoop terminator src 0 b offset

end Join

end Ervan
