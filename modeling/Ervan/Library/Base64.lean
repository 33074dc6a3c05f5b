import Mathlib.Data.UInt

/-!
# Base64

RFC 4648: three bytes are a number of 24 bits and are written as its four digits to the base 64.
At the end one or two bytes are filled up with zero bits, and `'='` stands for the digits that
would say nothing.
-/

namespace Base64

/-- `'='`. -/
abbrev pad : UInt8 := 61

/-- The character of a digit. -/
def digit (n : Nat) : UInt8 :=
  UInt8.ofNat (if n < 26 then n + 65 else if n < 52 then n + 71 else if n < 62 then n - 4
    else if n = 62 then 43 else 47)

/-- The digit of a character, if it is in the alphabet. -/
def value (c : UInt8) : Option Nat :=
  if 65 ≤ c ∧ c ≤ 90 then some (c.toNat - 65)
  else if 97 ≤ c ∧ c ≤ 122 then some (c.toNat - 71)
  else if 48 ≤ c ∧ c ≤ 57 then some (c.toNat + 4)
  else if c = 43 then some 62
  else if c = 47 then some 63
  else none

/-- The number that four digits stand for. -/
def group (w x y z : Nat) : Nat := 262144 * w + 4096 * x + 64 * y + z

/-- The three bytes of a number of 24 bits. -/
def bytes (n : Nat) : List UInt8 :=
  [UInt8.ofNat (n / 65536), UInt8.ofNat (n / 256 % 256), UInt8.ofNat (n % 256)]

def encode : List UInt8 → List UInt8
  | a :: b :: c :: rest =>
      let n := 65536 * a.toNat + 256 * b.toNat + c.toNat
      digit (n / 262144) :: digit (n / 4096 % 64) :: digit (n / 64 % 64) :: digit (n % 64) ::
        encode rest
  | [a, b] =>
      let n := 65536 * a.toNat + 256 * b.toNat
      [digit (n / 262144), digit (n / 4096 % 64), digit (n / 64 % 64), pad]
  | [a] =>
      let n := 65536 * a.toNat
      [digit (n / 262144), digit (n / 4096 % 64), pad, pad]
  | [] => []

/-- The last four characters. The bits that fill up the bytes are zero. -/
def decodeLast (p q r s : UInt8) : Option (List UInt8) := do
  let w ← value p
  let x ← value q
  if s = pad ∧ r = pad then
    let n := group w x 0 0
    if n % 65536 = 0 then some ((bytes n).take 1) else none
  else
    let y ← value r
    if s = pad then
      let n := group w x y 0
      if n % 256 = 0 then some ((bytes n).take 2) else none
    else
      let z ← value s
      some (bytes (group w x y z))

def decode : List UInt8 → Option (List UInt8)
  | [] => some []
  | [p, q, r, s] => decodeLast p q r s
  | p :: q :: r :: s :: rest => do
      let w ← value p
      let x ← value q
      let y ← value r
      let z ← value s
      let tail ← decode rest
      some (bytes (group w x y z) ++ tail)
  | _ => none

section Codec

variable {n : Nat} {a b c : UInt8}

theorem value_digit (h : n < 64) : value (digit n) = some n := by
  revert n
  decide

/-- No digit is written as padding. -/
theorem digit_ne_pad (h : n < 64) : digit n ≠ pad := by
  revert n
  decide

theorem length_encode (bs : List UInt8) : (encode bs).length = 4 * ((bs.length + 2) / 3) := by
  fun_induction encode bs with
  | case1 a b c rest n ih =>
      simp only [List.length_cons, ih]
      omega
  | case2 a b n => simp
  | case3 a n => simp
  | case4 => simp

/-- A number of 24 bits is put together from its digits. -/
theorem group_digits (n : Nat) : group (n / 262144) (n / 4096 % 64) (n / 64 % 64) (n % 64) = n := by
  unfold group
  omega

theorem bytes_group (a b c : UInt8) :
    bytes (65536 * a.toNat + 256 * b.toNat + c.toNat) = [a, b, c] := by
  have ha := a.toNat_lt
  have hb := b.toNat_lt
  have hc := c.toNat_lt
  have h₁ : (65536 * a.toNat + 256 * b.toNat + c.toNat) / 65536 = a.toNat := by omega
  have h₂ : (65536 * a.toNat + 256 * b.toNat + c.toNat) / 256 % 256 = b.toNat := by omega
  have h₃ : (65536 * a.toNat + 256 * b.toNat + c.toNat) % 256 = c.toNat := by omega
  rw [bytes, h₁, h₂, h₃, UInt8.ofNat_toNat, UInt8.ofNat_toNat, UInt8.ofNat_toNat]

/-- Four digits are decoded by themselves, also at the end. -/
theorem decode_digits {w x y z : Nat} (hw : w < 64) (hx : x < 64) (hy : y < 64) (hz : z < 64)
    (tail : List UInt8) : decode (digit w :: digit x :: digit y :: digit z :: tail) =
      (decode tail).map (bytes (group w x y z) ++ ·) := by
  cases tail with
  | nil =>
      simp [decode, decodeLast, value_digit hw, value_digit hx, value_digit hy, value_digit hz,
        digit_ne_pad hz]
  | cons c tail =>
      simp only [decode, value_digit hw, value_digit hx, value_digit hy, value_digit hz]
      cases decode (c :: tail) <;> rfl

/-- Bits of zero fill up a last byte. -/
theorem decode_pad_pad (a : UInt8) : decode [digit (65536 * a.toNat / 262144),
    digit (65536 * a.toNat / 4096 % 64), pad, pad] = some [a] := by
  have ha := a.toNat_lt
  have hgroup : group (65536 * a.toNat / 262144) (65536 * a.toNat / 4096 % 64) 0 0 =
      65536 * a.toNat + 256 * UInt8.toNat 0 + UInt8.toNat 0 := by
    unfold group
    simp only [UInt8.toNat_zero]
    omega
  have hzero : (65536 * a.toNat + 256 * UInt8.toNat 0 + UInt8.toNat 0) % 65536 = 0 := by
    simp only [UInt8.toNat_zero]
    omega
  simp only [decode, decodeLast, value_digit (show 65536 * a.toNat / 262144 < 64 by omega),
    value_digit (show 65536 * a.toNat / 4096 % 64 < 64 by omega), Option.bind_eq_bind,
    Option.bind_some, and_self, if_true, hgroup, hzero, bytes_group]
  rfl

theorem decode_pad (a b : UInt8) : decode [digit ((65536 * a.toNat + 256 * b.toNat) / 262144),
    digit ((65536 * a.toNat + 256 * b.toNat) / 4096 % 64),
    digit ((65536 * a.toNat + 256 * b.toNat) / 64 % 64), pad] = some [a, b] := by
  have ha := a.toNat_lt
  have hb := b.toNat_lt
  generalize hn : 65536 * a.toNat + 256 * b.toNat = n
  have hgroup : group (n / 262144) (n / 4096 % 64) (n / 64 % 64) 0 =
      65536 * a.toNat + 256 * b.toNat + UInt8.toNat 0 := by
    unfold group
    simp only [UInt8.toNat_zero]
    omega
  have hzero : (65536 * a.toNat + 256 * b.toNat + UInt8.toNat 0) % 256 = 0 := by
    simp only [UInt8.toNat_zero]
    omega
  have hlast : digit (n / 64 % 64) ≠ pad := digit_ne_pad (Nat.mod_lt _ (by decide))
  simp only [decode, decodeLast, value_digit (show n / 262144 < 64 by omega),
    value_digit (show n / 4096 % 64 < 64 by omega), value_digit (show n / 64 % 64 < 64 by omega),
    Option.bind_eq_bind, Option.bind_some, hlast, and_false, if_false, if_true, hgroup, hzero,
    bytes_group]
  rfl

/-- What is encoded is decoded to what it was. -/
theorem decode_encode (bs : List UInt8) : decode (encode bs) = some bs := by
  fun_induction encode bs with
  | case1 a b c rest n ih =>
      have ha := a.toNat_lt
      have hb := b.toNat_lt
      have hc := c.toNat_lt
      rw [decode_digits (by omega) (Nat.mod_lt _ (by decide)) (Nat.mod_lt _ (by decide))
        (Nat.mod_lt _ (by decide)), ih, group_digits, bytes_group]
      rfl
  | case2 a b n => exact decode_pad a b
  | case3 a n => exact decode_pad_pad a
  | case4 => rfl

end Codec

end Base64
