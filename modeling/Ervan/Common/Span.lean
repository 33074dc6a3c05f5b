import Ervan.Common.Text

/-!
# Spans over memory

A `span<char>` is a pointer and a length, and neither is checked against the
array the pointer came from. Memory therefore has a byte at every offset, a
span is a start offset and a length, and `advance` subtracts in `size_t`: past
the end of the span it yields an enormous length, exactly as the source does.
-/

namespace Ervan

/-- Memory, addressed from the first byte of the array a span points into. -/
abbrev Mem := Nat → UInt8

/-- The `n` bytes that start at `start`. -/
def Mem.read (m : Mem) (start n : Nat) : Bytes := (List.range n).map fun i => m (start + i)

/-- `strcmp` of the C string at `start` with a literal, tested for equality. -/
def Mem.strEq (m : Mem) (start : Nat) (lit : Bytes) : Bool :=
  m.read start lit.length == lit && m (start + lit.length) == nul

/-- Memory that holds exactly these bytes, and NULs after them. -/
def Mem.ofBytes (bs : Bytes) : Mem := fun i => bs.getD i nul

structure Span where
  start : Nat
  len : Nat
  deriving DecidableEq, Repr

namespace Span

/-- The span of the default constructor. -/
def null : Span := ⟨0, 0⟩

/-- `span(begin() + n, end())`. -/
def advance (s : Span) (n : Nat) : Span := ⟨s.start + n, sizeT ((s.len : Int) - n)⟩

/-- `span(_base.begin(), _rest.begin())`. -/
def upTo (base rest : Span) : Span := ⟨base.start, sizeT ((rest.start : Int) - base.start)⟩

/-- `compare_insensitive` with a literal. -/
def compareInsensitive (m : Mem) (s : Span) (lit : Bytes) : Bool :=
  s.len == lit.length && (m.read s.start s.len).map tolower == lit.map tolower

/-- `operator==` with a literal. -/
def equal (m : Mem) (s : Span) (lit : Bytes) : Bool :=
  s.len == lit.length && m.read s.start s.len == lit

@[simp] theorem advance_start (s : Span) (n : Nat) : (s.advance n).start = s.start + n := rfl

theorem advance_len {s : Span} {n : Nat} (hn : n ≤ s.len) (hs : s.len < 2 ^ 64) :
    (s.advance n).len = s.len - n := by
  have h : ((s.len : Int) - n) = ((s.len - n : Nat) : Int) := by omega
  simp only [advance, h]
  exact sizeT_natCast (by omega)

end Span

namespace Mem

@[simp] theorem length_read (m : Mem) (start n : Nat) : (m.read start n).length = n := by
  simp [read]

theorem read_congr {m m' : Mem} {start n : Nat}
    (h : ∀ i, start ≤ i → i < start + n → m i = m' i) : m.read start n = m'.read start n := by
  apply List.map_congr_left
  intro i hi
  have := List.mem_range.mp hi
  exact h _ (by omega) (by omega)

theorem read_succ (m : Mem) (start n : Nat) :
    m.read start (n + 1) = m start :: m.read (start + 1) n := by
  simp only [read, List.range_succ_eq_map, List.map_cons, List.map_map, Nat.add_zero]
  congr 1
  apply List.map_congr_left
  intro i _
  simp only [Function.comp_apply]
  congr 1
  omega

theorem read_add (m : Mem) (start n k : Nat) :
    m.read start (n + k) = m.read start n ++ m.read (start + n) k := by
  induction n generalizing start with
  | zero => simp [read]
  | succ n ih =>
      rw [Nat.add_right_comm, read_succ, read_succ, ih, List.cons_append]
      congr 3
      omega

end Mem

end Ervan
