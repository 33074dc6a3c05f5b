import Ervan.Common.Parse

/-!
# The bytes a span covers

A span is looked at through the bytes it covers: what its first byte is, what its parts are,
and what `advance` and the constructors make of it, as long as its numbers are addresses.
-/

namespace Ervan

/-- From `a` on the memory holds these bytes. -/
structure Mem.Holds (m : Mem) (a : Nat) (bs : Bytes) : Prop where
  read : m.read a bs.length = bs
  small : a + bs.length < 2 ^ 64

/-- The bytes of a span. -/
def Span.bytes (m : Mem) (sp : Span) : Bytes := m.read sp.start sp.len

namespace Mem.Holds

variable {m m' : Mem} {a : Nat} {bs x y : Bytes} {c : UInt8}

theorem cons (h : m.Holds a (c :: bs)) : m a = c ∧ m.Holds (a + 1) bs := by
  have hread := h.read
  have hsmall := h.small
  rw [List.length_cons, Mem.read_succ, List.cons.injEq] at hread
  rw [List.length_cons] at hsmall
  exact ⟨hread.1, hread.2, by omega⟩

theorem append (h : m.Holds a (x ++ y)) : m.Holds a x ∧ m.Holds (a + x.length) y := by
  have hread := h.read
  have hsmall := h.small
  rw [List.length_append] at hsmall
  rw [List.length_append, Mem.read_add] at hread
  obtain ⟨hx, hy⟩ := List.append_inj hread (Mem.length_read _ _ _)
  exact ⟨⟨hx, by omega⟩, hy, by omega⟩

/-- The byte behind a prefix. -/
theorem next (h : m.Holds a (x ++ c :: y)) : m (a + x.length) = c := h.append.2.cons.1

theorem of_span {sp : Span} (h : sp.start + sp.len < 2 ^ 64) :
    m.Holds sp.start (sp.bytes m) := by
  rw [Span.bytes]
  exact ⟨by rw [Mem.length_read], by rw [Mem.length_read]; exact h⟩

theorem of_bytes {bs : Bytes} (h : bs.length < 2 ^ 64) : (Mem.ofBytes bs).Holds 0 bs := by
  refine ⟨?_, by omega⟩
  refine List.ext_getElem (Mem.length_read _ _ _) fun i hi hi' => ?_
  simp [Mem.read, Mem.ofBytes, hi']

end Mem.Holds

namespace Span

variable {m : Mem} {a : Nat} {bs x y : Bytes}

@[simp] theorem length_bytes (m : Mem) (sp : Span) : (sp.bytes m).length = sp.len :=
  Mem.length_read _ _ _

theorem eq_bytes (m : Mem) (sp : Span) : sp = ⟨sp.start, (sp.bytes m).length⟩ := by
  rw [length_bytes]

theorem advance_append (h : m.Holds a (x ++ y)) :
    (Span.mk a (x ++ y).length).advance x.length = ⟨a + x.length, y.length⟩ := by
  have hsmall := h.small
  rw [List.length_append] at hsmall ⊢
  have hlen := advance_len (s := ⟨a, x.length + y.length⟩) (n := x.length) (by simp)
    (by simp only; omega)
  refine congrArg (Span.mk (a + x.length)) (hlen.trans ?_)
  exact Nat.add_sub_cancel_left _ _

theorem advance_cons {c : UInt8} (h : m.Holds a (c :: bs)) :
    (Span.mk a (c :: bs).length).advance 1 = ⟨a + 1, bs.length⟩ :=
  advance_append (x := [c]) h

/-- `result(base, rest)` takes what is before the rest for the body. -/
theorem upTo_append (h : m.Holds a (x ++ y)) (n n' : Nat) :
    (Span.mk a n).upTo ⟨a + x.length, n'⟩ = ⟨a, x.length⟩ := by
  have hsmall := h.small
  rw [List.length_append] at hsmall
  have hsize : sizeT (((a + x.length : Nat) : Int) - (a : Nat)) = x.length := by
    rw [← Int.ofNat_sub (Nat.le_add_right a x.length), Nat.add_sub_cancel_left]
    exact sizeT_natCast (by omega)
  exact congrArg (Span.mk a) hsize

end Span

namespace Parse

variable {m : Mem} {a : Nat} {bs : Bytes} {p : UInt8 → Bool}

@[simp] theorem starts_nil (m : Mem) (a : Nat) (p : UInt8 → Bool) : starts m ⟨a, 0⟩ p = false := rfl

theorem starts_cons {c : UInt8} (h : m.Holds a (c :: bs)) :
    starts m ⟨a, (c :: bs).length⟩ p = p c := by
  simp [starts, h.cons.1]

end Parse

end Ervan
