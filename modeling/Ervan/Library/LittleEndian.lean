import Mathlib.Algebra.Order.Ring.Nat

/-!
# Little-endian numbers

A number in a fixed count of bytes, the least significant one first. Reading back what was
written gives the number as far as it fits, whatever follows it.
-/

namespace LittleEndian

/-- The `w` low bytes of `n`. -/
def write : Nat → Nat → List UInt8
  | 0, _ => []
  | w + 1, n => UInt8.ofNat n :: write w (n / 2 ^ 8)

/-- The number in the first `w` bytes. Missing bytes are zero. -/
def read : Nat → List UInt8 → Nat
  | w + 1, c :: bs => c.toNat + 2 ^ 8 * read w bs
  | _, _ => 0

@[simp] theorem length_write (w n : Nat) : (write w n).length = w := by
  induction w generalizing n with
  | zero => rfl
  | succ w ih => exact congrArg (· + 1) (ih (n / 2 ^ 8))

theorem read_write (w n : Nat) (rest : List UInt8) :
    read w (write w n ++ rest) = n % 2 ^ (8 * w) := by
  induction w generalizing n with
  | zero => exact (Nat.mod_one n).symm
  | succ w ih =>
      have hpow : 2 ^ (8 * (w + 1)) = 2 ^ 8 * 2 ^ (8 * w) := by
        rw [← Nat.pow_add, Nat.add_comm 8, Nat.mul_succ]
      rw [write, List.cons_append, read, ih, UInt8.toNat_ofNat', hpow, Nat.mod_mul]

end LittleEndian
