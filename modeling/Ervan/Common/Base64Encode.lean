import Ervan.Common.Message
import Ervan.Library.Base64
import Ervan.Library.Patching
import Mathlib.Data.Nat.Bitwise

/-!
# Encoding into a buffer

`base64_encode` works through the source with three counters and copies every four characters
into the target. A `char` is promoted to an `int` with its sign, and the masks take it away
again before the alphabet is indexed.
-/

namespace Ervan

open Patching

/-- The promotion of a `char` to an `int`. -/
def promote (c : UInt8) : BitVec 32 := c.toBitVec.signExtend 32

/-- `base64_alphabet[index]`. -/
def alphabetAt (index : BitVec 32) : UInt8 := base64Alphabet.getD index.toNat nul

/-- `src[i]`. The index is converted to an `int`. -/
def charAt (src : Bytes) (i : Nat) : UInt8 := src.getD (int32 i).toNat nul

/-- The local variables of `base64_encode` and the target. -/
structure Encoding where
  remaining : Nat
  srcOffset : Nat
  dstOffset : Nat
  dst : Bytes

namespace Encoding

/-- `std::copy_n` of the buffer, and what is added to the counters. -/
def put (e : Encoding) (n : Nat) (buffer : Bytes) : Encoding where
  remaining := e.remaining - n
  srcOffset := e.srcOffset + n
  dstOffset := e.dstOffset + 4
  dst := patch e.dst e.dstOffset buffer

/-- A turn of the loop. -/
def three (src : Bytes) (e : Encoding) : Encoding :=
  let a := promote (charAt src (e.srcOffset + 0))
  let b := promote (charAt src (e.srcOffset + 1))
  let c := promote (charAt src (e.srcOffset + 2))
  e.put 3 [alphabetAt ((a &&& 0xFC).sshiftRight 2),
    alphabetAt (((a &&& 0x03) <<< 4) ||| ((b &&& 0xF0).sshiftRight 4)),
    alphabetAt (((b &&& 0x0F) <<< 2) ||| ((c &&& 0xC0).sshiftRight 6)),
    alphabetAt ((c &&& 0x3F) <<< 0)]

/-- `while (remaining >= 3)`. -/
def loop (src : Bytes) : Nat → Encoding → Encoding
  | 0, e => e
  | fuel + 1, e => if 3 ≤ e.remaining then loop src fuel (e.three src) else e

def two (src : Bytes) (e : Encoding) : Encoding :=
  if 2 ≤ e.remaining then
    let a := promote (charAt src (e.srcOffset + 0))
    let b := promote (charAt src (e.srcOffset + 1))
    e.put 2 [alphabetAt ((a &&& 0xFC).sshiftRight 2),
      alphabetAt (((a &&& 0x03) <<< 4) ||| ((b &&& 0xF0).sshiftRight 4)),
      alphabetAt ((b &&& 0x0F) <<< 2), alphabetAt 64]
  else e

def one (src : Bytes) (e : Encoding) : Encoding :=
  if 1 ≤ e.remaining then
    let a := promote (charAt src (e.srcOffset + 0))
    e.put 1 [alphabetAt ((a &&& 0xFC).sshiftRight 2), alphabetAt ((a &&& 0x03) <<< 4),
      alphabetAt 64, alphabetAt 64]
  else e

end Encoding

/-- The two tail cases. -/
def Encoding.tail (src : Bytes) (e : Encoding) : Encoding := (e.two src).one src

/-- `base64_encode`: the target afterwards and the returned offset. A turn of the loop takes
three bytes. -/
def base64EncodeInto (src dst : Bytes) : Bytes × Nat :=
  let e := (Encoding.loop src src.length ⟨src.length, 0, 0, dst⟩).tail src
  (e.dst, e.dstOffset)

section Indices

/-- A masked `char` has no sign. -/
theorem masked (c : UInt8) : (promote c &&& 0xFC).sshiftRight 2 =
      ((c &&& 0xFC) >>> 2).toBitVec.setWidth 32 ∧
    (promote c &&& 0x03) <<< 4 = ((c &&& 0x03) <<< 4).toBitVec.setWidth 32 ∧
    (promote c &&& 0xF0).sshiftRight 4 = ((c &&& 0xF0) >>> 4).toBitVec.setWidth 32 ∧
    (promote c &&& 0x0F) <<< 2 = ((c &&& 0x0F) <<< 2).toBitVec.setWidth 32 ∧
    (promote c &&& 0xC0).sshiftRight 6 = ((c &&& 0xC0) >>> 6).toBitVec.setWidth 32 ∧
    (promote c &&& 0x3F) <<< 0 = (c &&& 0x3F).toBitVec.setWidth 32 := by
  revert c
  apply forall_byte
  decide +kernel

/-- What the masked bytes are as numbers. -/
theorem digits (c : UInt8) : ((c &&& 0xFC) >>> 2).toNat = c.toNat / 4 ∧
    ((c &&& 0x03) <<< 4).toNat = 16 * (c.toNat % 4) ∧
    ((c &&& 0xF0) >>> 4).toNat = c.toNat / 16 ∧
    ((c &&& 0x0F) <<< 2).toNat = 4 * (c.toNat % 16) ∧
    ((c &&& 0xC0) >>> 6).toNat = c.toNat / 64 ∧
    (c &&& 0x3F).toNat = c.toNat % 64 := by
  revert c
  apply forall_byte
  decide +kernel

@[simp] theorem alphabetAt_setWidth (c : UInt8) :
    alphabetAt (c.toBitVec.setWidth 32) = base64Char c := by
  have hlt := c.toNat_lt
  rw [alphabetAt, BitVec.toNat_setWidth, UInt8.toNat_toBitVec, Nat.mod_eq_of_lt (by omega)]
  rfl

@[simp] theorem alphabetAt_or (c d : UInt8) :
    alphabetAt (c.toBitVec.setWidth 32 ||| d.toBitVec.setWidth 32) = base64Char (c ||| d) := by
  rw [← alphabetAt_setWidth, UInt8.toBitVec_or, BitVec.setWidth_or]

theorem second (a b : UInt8) : (((a &&& 0x03) <<< 4) ||| ((b &&& 0xF0) >>> 4)).toNat =
    16 * (a.toNat % 4) + b.toNat / 16 := by
  have hb := b.toNat_lt
  obtain ⟨-, ha, -⟩ := digits a
  obtain ⟨-, -, hb', -⟩ := digits b
  rw [UInt8.toNat_or, ha, hb']
  exact (Nat.two_pow_add_eq_or_of_lt (i := 4) (by omega) _).symm

theorem third (b c : UInt8) : (((b &&& 0x0F) <<< 2) ||| ((c &&& 0xC0) >>> 6)).toNat =
    4 * (b.toNat % 16) + c.toNat / 64 := by
  have hc := c.toNat_lt
  obtain ⟨-, -, -, hb, -⟩ := digits b
  obtain ⟨-, -, -, -, hc', -⟩ := digits c
  rw [UInt8.toNat_or, hb, hc']
  exact (Nat.two_pow_add_eq_or_of_lt (i := 2) (by omega) _).symm

theorem base64Char_eq {index : UInt8} {n : Nat} (h : index.toNat = n) (hn : n < 64) :
    base64Char index = Base64.digit n := by
  have hdigit : ∀ n < 64, base64Alphabet.getD n nul = Base64.digit n := by decide +kernel
  rw [base64Char, h]
  exact hdigit n hn

end Indices

/-- The characters are those of the RFC. -/
theorem base64Encode_eq (bs : Bytes) : base64Encode bs = Base64.encode bs := by
  have hpad : base64Char 64 = Base64.pad := rfl
  fun_induction base64Encode bs with
  | case1 a b c rest ih =>
      have ha := a.toNat_lt
      have hb := b.toNat_lt
      have hc := c.toNat_lt
      obtain ⟨hfirst, -⟩ := digits a
      obtain ⟨-, -, -, -, -, hlast⟩ := digits c
      have hsecond := second a b
      have hthird := third b c
      rw [Base64.encode, ih]
      refine congrArg₂ List.cons (base64Char_eq (by omega) (by omega)) ?_
      refine congrArg₂ List.cons (base64Char_eq (by omega) (by omega)) ?_
      refine congrArg₂ List.cons (base64Char_eq (by omega) (by omega)) ?_
      exact congrArg₂ List.cons (base64Char_eq (by omega) (by omega)) rfl
  | case2 a b =>
      have ha := a.toNat_lt
      have hb := b.toNat_lt
      obtain ⟨hfirst, -⟩ := digits a
      obtain ⟨-, -, -, hthird, -⟩ := digits b
      have hsecond := second a b
      rw [Base64.encode, hpad]
      refine congrArg₂ List.cons (base64Char_eq (by omega) (by omega)) ?_
      refine congrArg₂ List.cons (base64Char_eq (by omega) (by omega)) ?_
      exact congrArg₂ List.cons (base64Char_eq (by omega) (by omega)) rfl
  | case3 a =>
      have ha := a.toNat_lt
      obtain ⟨hfirst, hsecond, -⟩ := digits a
      rw [Base64.encode, hpad]
      refine congrArg₂ List.cons (base64Char_eq (by omega) (by omega)) ?_
      exact congrArg₂ List.cons (base64Char_eq (by omega) (by omega)) rfl
  | case4 => rfl

namespace Encoding

section Counters

variable {src rest : Bytes} {e : Encoding} {a b c : UInt8}

/-- The counters stand before `rest`, and there is room for its characters. -/
structure Ready (src rest : Bytes) (e : Encoding) : Prop where
  short : src.length < 2 ^ 31
  rest_eq : src.drop e.srcOffset = rest
  remaining : e.remaining = rest.length
  room : e.dstOffset + (base64Encode rest).length ≤ e.dst.length

theorem charAt_drop {i : Nat} (hsrc : src.length < 2 ^ 31) (h : src.drop i = c :: rest) :
    charAt src i = c := by
  have hi : i < src.length := by
    have hlength := congrArg List.length h
    rw [List.length_drop, List.length_cons] at hlength
    omega
  have hget : src[i]? = some c := by
    rw [← Nat.add_zero i, ← List.getElem?_drop, h]
    rfl
  rw [charAt, int32_natCast (by omega), Int.toNat_natCast, List.getD_eq_getElem?_getD, hget]
  rfl

theorem drop_next {i : Nat} (h : src.drop i = c :: rest) : src.drop (i + 1) = rest := by
  rw [← List.drop_drop, h]
  rfl

theorem two_short (h : e.remaining < 2) : e.two src = e := if_neg (by omega)

theorem one_short (h : e.remaining < 1) : e.one src = e := if_neg (by omega)

/-- The first of the characters that are left are those of the next three bytes. -/
theorem three_eq (h : Ready src (a :: b :: c :: rest) e) :
    e.three src = e.put 3 ((base64Encode (a :: b :: c :: rest)).take 4) := by
  have ha := charAt_drop h.short h.rest_eq
  have hb := charAt_drop h.short (drop_next h.rest_eq)
  have hc := charAt_drop h.short (drop_next (drop_next h.rest_eq))
  obtain ⟨ha₁, ha₂, -⟩ := masked a
  obtain ⟨-, -, hb₁, hb₂, -⟩ := masked b
  obtain ⟨-, -, -, -, hc₁, hc₂⟩ := masked c
  simp only [three, Nat.add_zero, ha, hb, hc, ha₁, ha₂, hb₁, hb₂, hc₁, hc₂, alphabetAt_setWidth,
    alphabetAt_or]
  rfl

theorem two_eq (h : Ready src [a, b] e) : e.two src = e.put 2 (base64Encode [a, b]) := by
  have ha := charAt_drop h.short h.rest_eq
  have hb := charAt_drop h.short (drop_next h.rest_eq)
  obtain ⟨ha₁, ha₂, -⟩ := masked a
  obtain ⟨-, -, hb₁, hb₂, -⟩ := masked b
  rw [two, if_pos (by rw [h.remaining]; exact Nat.le_refl 2)]
  simp only [Nat.add_zero, ha, hb, ha₁, ha₂, hb₁, hb₂, alphabetAt_setWidth, alphabetAt_or]
  rfl

theorem one_eq (h : Ready src [a] e) : e.one src = e.put 1 (base64Encode [a]) := by
  have ha := charAt_drop h.short h.rest_eq
  obtain ⟨ha₁, ha₂, -⟩ := masked a
  rw [one, if_pos (by rw [h.remaining]; exact Nat.le_refl 1)]
  simp only [Nat.add_zero, ha, ha₁, ha₂, alphabetAt_setWidth]
  rfl

/-- Three bytes are encoded by themselves. -/
theorem base64Encode_three (a b c : UInt8) (rest : Bytes) : base64Encode (a :: b :: c :: rest) =
    (base64Encode (a :: b :: c :: rest)).take 4 ++ base64Encode rest := rfl

theorem Ready.next (h : Ready src (a :: b :: c :: rest) e) : Ready src rest (e.three src) := by
  have hlength : (base64Encode (a :: b :: c :: rest)).length =
      4 + (base64Encode rest).length := by
    rw [base64Encode_three, List.length_append]
    rfl
  have hroom := h.room
  rw [hlength] at hroom
  rw [three_eq h]
  refine ⟨h.short, drop_next (drop_next (drop_next h.rest_eq)), ?_, ?_⟩
  · change e.remaining - 3 = rest.length
    rw [h.remaining]
    rfl
  · change e.dstOffset + 4 + (base64Encode rest).length ≤ (patch e.dst e.dstOffset _).length
    rw [length_patch (by simp [base64Encode]; omega)]
    omega

/-- The loop ends before two bytes, one byte or nothing. -/
theorem loop_short (fuel : Nat) (h : e.remaining < 3) : e.loop src fuel = e := by
  cases fuel with
  | zero => rfl
  | succ fuel => exact if_neg (by omega)

theorem put_all {n : Nat} (h : e.remaining = n) (buffer : Bytes) :
    (e.put n buffer).remaining = 0 := by
  change e.remaining - n = 0
  omega

/-- What is left is encoded, and the offset is moved behind it. -/
theorem Ready.finish {fuel : Nat} (h : Ready src rest e) (hfuel : rest.length ≤ fuel) :
    ((e.loop src fuel).tail src).dst = patch e.dst e.dstOffset (base64Encode rest) ∧
      ((e.loop src fuel).tail src).dstOffset = e.dstOffset + (base64Encode rest).length := by
  have hremaining := h.remaining
  induction fuel generalizing rest e with
  | zero =>
      obtain rfl : rest = [] := List.eq_nil_of_length_eq_zero (Nat.le_zero.mp hfuel)
      have hzero : e.remaining = 0 := hremaining
      rw [loop, tail, two_short (by omega), one_short (by omega)]
      exact ⟨(patch_nil _ _).symm, rfl⟩
  | succ fuel ih =>
      match rest, h, hfuel, hremaining with
      | [], h, hfuel, hremaining =>
          have hzero : e.remaining = 0 := hremaining
          rw [loop_short _ (by omega), tail, two_short (by omega), one_short (by omega)]
          exact ⟨(patch_nil _ _).symm, rfl⟩
      | [a], h, hfuel, hremaining =>
          have hone : e.remaining = 1 := hremaining
          rw [loop_short _ (by omega), tail, two_short (by omega), one_eq h]
          exact ⟨rfl, rfl⟩
      | [a, b], h, hfuel, hremaining =>
          have htwo : e.remaining = 2 := hremaining
          have hdone := put_all htwo (base64Encode [a, b])
          rw [loop_short _ (by omega), tail, two_eq h, one_short (by omega)]
          exact ⟨rfl, rfl⟩
      | a :: b :: c :: rest, h, hfuel, hremaining =>
          have hthree : 3 ≤ e.remaining := by
            rw [hremaining]
            exact Nat.le_add_left 3 rest.length
          have hroom := h.room
          rw [base64Encode_three, List.length_append] at hroom
          obtain ⟨hdst, hoffset⟩ := ih h.next (by
            simp only [List.length_cons] at hfuel
            omega) h.next.remaining
          rw [loop, if_pos hthree, hdst, hoffset, three_eq h, base64Encode_three, put]
          constructor
          · exact patch_patch
              (Nat.le_trans (Nat.add_le_add_left (Nat.le_add_right _ _) _) hroom) _
          · rw [List.length_append, ← Nat.add_assoc]
            rfl

end Counters

end Encoding

section Encode

variable {src dst : Bytes}

/-- The characters are written at the start of the target, and the rest of it stays. -/
theorem base64EncodeInto_eq (hsrc : src.length < 2 ^ 31)
    (hdst : (base64Encode src).length ≤ dst.length) : base64EncodeInto src dst =
      (patch dst 0 (base64Encode src), (base64Encode src).length) := by
  have hready : Encoding.Ready src src ⟨src.length, 0, 0, dst⟩ :=
    ⟨hsrc, rfl, rfl, by rwa [Nat.zero_add]⟩
  obtain ⟨hpatch, hoffset⟩ := hready.finish (Nat.le_refl src.length)
  rw [base64EncodeInto, hpatch, hoffset, Nat.zero_add]

/-- What `base64_encode` writes. -/
def written (src dst : Bytes) : Bytes :=
  (base64EncodeInto src dst).1.take (base64EncodeInto src dst).2

/-- What `base64_encode` writes and returns is as in RFC 4648. -/
structure Rfc4648 (src dst : Bytes) : Prop where
  returned : (base64EncodeInto src dst).2 = 4 * ((src.length + 2) / 3)
  size : (base64EncodeInto src dst).1.length = dst.length
  unchanged : (base64EncodeInto src dst).1.drop (base64EncodeInto src dst).2 =
    dst.drop (base64EncodeInto src dst).2
  decoded : Base64.decode (written src dst) = some src

theorem length_base64Encode (bs : Bytes) :
    (base64Encode bs).length = 4 * ((bs.length + 2) / 3) := by
  rw [base64Encode_eq, Base64.length_encode]

theorem written_eq (hsrc : src.length < 2 ^ 31)
    (hdst : 4 * ((src.length + 2) / 3) ≤ dst.length) : written src dst = base64Encode src := by
  rw [← length_base64Encode] at hdst
  rw [written, base64EncodeInto_eq hsrc hdst]
  exact List.take_left' rfl

theorem decode_base64Encode (bs : Bytes) : Base64.decode (base64Encode bs) = some bs := by
  rw [base64Encode_eq, Base64.decode_encode]

/-- Every source is encoded at the start of the target, and no two are encoded alike. -/
theorem base64EncodeInto_rfc4648 (src dst : Bytes) (hsrc : src.length < 2 ^ 31)
    (hdst : 4 * ((src.length + 2) / 3) ≤ dst.length) : Rfc4648 src dst ∧
      ∀ src' dst' : Bytes, src'.length < 2 ^ 31 → 4 * ((src'.length + 2) / 3) ≤ dst'.length →
        written src' dst' = written src dst → src' = src := by
  have hwritten := written_eq hsrc hdst
  refine ⟨⟨?_, ?_, ?_, ?_⟩, ?_⟩
  · rw [base64EncodeInto_eq hsrc (by rwa [length_base64Encode]), length_base64Encode]
  · rw [base64EncodeInto_eq hsrc (by rwa [length_base64Encode])]
    exact length_patch (by rwa [Nat.zero_add, length_base64Encode])
  · rw [base64EncodeInto_eq hsrc (by rwa [length_base64Encode])]
    change (base64Encode src ++ dst.drop (0 + (base64Encode src).length)).drop
      (base64Encode src).length = _
    rw [List.drop_left, Nat.zero_add]
  · rw [hwritten, decode_base64Encode]
  · intro src' dst' hsrc' hdst' heq
    rw [hwritten, written_eq hsrc' hdst'] at heq
    have hdecode := decode_base64Encode src'
    rw [heq, decode_base64Encode] at hdecode
    exact (Option.some.inj hdecode).symm

theorem base64EncodeInto_bytes : Rfc4648 [255, 128, 0, 77] (List.replicate 9 1) ∧
    ∀ src' dst' : Bytes, src'.length < 2 ^ 31 → 4 * ((src'.length + 2) / 3) ≤ dst'.length →
      written src' dst' = written [255, 128, 0, 77] (List.replicate 9 1) →
        src' = [255, 128, 0, 77] :=
  base64EncodeInto_rfc4648 _ _ (by decide) (by decide)

end Encode

end Ervan
