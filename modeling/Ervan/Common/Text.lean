import Mathlib.Algebra.Order.Ring.Int

/-!
# Bytes, characters and machine integers

The values every module of the server works with. A `char` is a byte whose
sign matters only where the source compares it with a number, `int` is a
two's-complement value of 32 bits and `size_t` an unsigned value of 64 bits.
An `int` that is incremented past its range wraps, as on the targets of the
build.
-/

namespace Ervan

abbrev Bytes := List UInt8

/-- The characters of an ASCII literal, without the NUL that ends it. -/
def text (s : String) : Bytes := s.toList.map fun c => UInt8.ofNat c.toNat

/-- A plain `char` is signed: bytes from 128 on are negative numbers. -/
def schar (c : UInt8) : Int := if c < 128 then c.toNat else (c.toNat : Int) - 256

/-- Conversion to `size_t`. -/
def sizeT (x : Int) : Nat := (x % 2 ^ 64).toNat

/-- Conversion to `int`. -/
def int32 (x : Int) : Int := Int.bmod x (2 ^ 32)

theorem sizeT_natCast {n : Nat} (h : n < 2 ^ 64) : sizeT n = n := by
  unfold sizeT
  omega

theorem sizeT_of_neg {x : Int} (h : x < 0) (hlo : -2 ^ 63 ≤ x) : 2 ^ 63 ≤ sizeT x := by
  unfold sizeT
  omega

theorem int32_natCast {n : Nat} (h : n < 2 ^ 31) : int32 n = n := by
  unfold int32
  rw [Int.bmod_eq_of_le] <;> omega

/-- A fact about bytes is checked on all of them. -/
theorem forall_byte {p : UInt8 → Prop} (h : ∀ n < 256, p (UInt8.ofNat n)) (c : UInt8) : p c := by
  have hc := h c.toNat c.toNat_lt
  rwa [UInt8.ofNat_toNat] at hc

/-- `std::isalnum` in the C locale. -/
def isalnum (c : UInt8) : Bool :=
  (48 ≤ c && c ≤ 57) || (65 ≤ c && c ≤ 90) || (97 ≤ c && c ≤ 122)

/-- `std::toupper` in the C locale. -/
def toupper (c : UInt8) : UInt8 := if 97 ≤ c && c ≤ 122 then c - 32 else c

/-- `std::tolower` in the C locale. -/
def tolower (c : UInt8) : UInt8 := if 65 ≤ c && c ≤ 90 then c + 32 else c

/-- `'\0'`, `'\r'` and `'\n'`. -/
abbrev nul : UInt8 := 0
abbrev cr : UInt8 := 13
abbrev lf : UInt8 := 10

/-- The bytes a C string function sees when it is given these bytes and a NUL. -/
def cString (bs : Bytes) : Bytes := bs.takeWhile (· != nul)

/-- A literal sent with a length counted by hand: its bytes and its NUL, cut at `n`. -/
def counted (s : String) (n : Nat) : Bytes := (text s ++ [nul]).take n

end Ervan
