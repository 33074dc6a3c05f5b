import Mathlib.Data.List.TakeWhile
import Ervan.Common.Text
import Ervan.Library.Archive

/-!
# Tar headers

`tar_header::filled` formats every field of a header that starts uninitialised.
Each field is written in full, so its bytes are a function of the value alone.
-/

namespace Ervan.Io

/-- `n` octal digits of `value`, the most significant first. -/
def octalDigits : Nat → Nat → Bytes
  | 0, _ => []
  | n + 1, value => octalDigits n (value / 8) ++ [48 + UInt8.ofNat (value % 8)]

/-- `tar_write` of a number into a field of `n` bytes. -/
def tarWriteNumber (n value : Nat) : Bytes := octalDigits (n - 1) value ++ [nul]

/-- `tar_write` of a string into a field of `n` bytes. `strncpy` fills all but the
last byte, which is cleared afterwards; what lies between the end of a short string
and the end of the field is NUL either way. -/
def tarWriteString (n : Nat) (value : Bytes) : Bytes :=
  let s := (cString value).take (n - 1)
  s ++ List.replicate (n - s.length) nul

section Fields

variable {n value : Nat} {s : Bytes}

@[simp] theorem length_octalDigits (n value : Nat) : (octalDigits n value).length = n := by
  induction n generalizing value with
  | zero => rfl
  | succ n ih => simp [octalDigits, ih]

theorem length_tarWriteNumber (hn : 0 < n) : (tarWriteNumber n value).length = n := by
  simp only [tarWriteNumber, List.length_append, length_octalDigits, List.length_singleton]
  omega

theorem length_tarWriteString (hn : 0 < n) : (tarWriteString n s).length = n := by
  simp only [tarWriteString, List.length_append, List.length_replicate, List.length_take]
  omega

theorem octalDigit {d : Nat} (h : d < 8) :
    (48 + UInt8.ofNat d).toNat = 48 + d ∧ 48 ≤ 48 + UInt8.ofNat d ∧ 48 + UInt8.ofNat d ≤ 55 := by
  revert d
  decide

theorem octalDigits_digit {c : UInt8} (h : c ∈ octalDigits n value) : 48 ≤ c ∧ c ≤ 55 := by
  induction n generalizing value with
  | zero => cases h
  | succ n ih =>
      rcases List.mem_append.mp h with h | h
      · exact ih h
      · rw [List.mem_singleton.mp h]
        exact (octalDigit (Nat.mod_lt _ (by decide))).2

theorem foldl_octalDigits (n value : Nat) :
    (octalDigits n value).foldl (fun n c => 8 * n + (c.toNat - 48)) 0 = value % 8 ^ n := by
  induction n generalizing value with
  | zero => rw [Nat.pow_zero, Nat.mod_one]; rfl
  | succ n ih =>
      rw [octalDigits, List.foldl_append, ih, List.foldl_cons, List.foldl_nil,
        (octalDigit (Nat.mod_lt value (by decide))).1, Nat.add_sub_cancel_left, Nat.pow_succ',
        Nat.mod_mul, Nat.add_comm]

/-- A reader gets the number back as far as the field is wide enough for it. -/
theorem octal_tarWriteNumber (n value : Nat) (rest : Bytes) :
    Archive.octal (tarWriteNumber n value ++ rest) = value % 8 ^ (n - 1) := by
  have htake : (tarWriteNumber n value ++ rest).takeWhile (fun c => 48 ≤ c && c ≤ 55) =
      octalDigits (n - 1) value := by
    rw [tarWriteNumber, List.append_assoc, List.takeWhile_append_of_pos fun c hc => by
      simpa using octalDigits_digit hc]
    simp [nul]
  rw [Archive.octal, htake, foldl_octalDigits]

/-- A reader gets a string back up to the end of its field. -/
theorem string_tarWriteString (n : Nat) (s : Bytes) :
    Archive.string (tarWriteString n s) = (cString s).take (n - 1) := by
  have hclean : ∀ c ∈ (cString s).take (n - 1), (c != 0) = true := by
    intro c hc
    have hmem : c ∈ s.takeWhile (· != nul) := List.mem_of_mem_take hc
    exact List.mem_takeWhile_imp (p := (· != nul)) hmem
  rw [Archive.string, tarWriteString, List.takeWhile_append_of_pos hclean,
    List.takeWhile_replicate]
  simp

end Fields

structure TarHeader where
  path0 : Bytes
  mode : Bytes
  owner : Bytes
  group : Bytes
  fileSize : Bytes
  lastModification : Bytes
  checksum : Bytes
  checksumSpace : Bytes
  fileType : Bytes
  linkedName : Bytes
  ustarMagic : Bytes
  ownerName : Bytes
  groupName : Bytes
  deviceMajor : Bytes
  deviceMinor : Bytes
  filenamePrefix : Bytes
  zero : Bytes

namespace TarHeader

/-- The packed structure as memory. -/
def bytes (h : TarHeader) : Bytes :=
  h.path0 ++ h.mode ++ h.owner ++ h.group ++ h.fileSize ++ h.lastModification ++
    h.checksum ++ h.checksumSpace ++ h.fileType ++ h.linkedName ++ h.ustarMagic ++
    h.ownerName ++ h.groupName ++ h.deviceMajor ++ h.deviceMinor ++ h.filenamePrefix ++
    h.zero

/-- `S_IRUSR | S_IWUSR | S_IRGRP`. -/
def fileMode : Nat := 0o640

/-- The header while its checksum is computed: the eight bytes of the checksum are
spaces, six from the string, one assigned and one in the field after it. -/
def blank (name : Bytes) (size now : Nat) : TarHeader where
  path0 := tarWriteString 100 name
  mode := tarWriteNumber 8 fileMode
  owner := tarWriteNumber 8 0
  group := tarWriteNumber 8 0
  fileSize := tarWriteNumber 12 size
  lastModification := tarWriteNumber 12 now
  checksum := (tarWriteString 7 (text "        ")).set 6 32
  checksumSpace := [32]
  fileType := [48]
  linkedName := tarWriteString 100 []
  ustarMagic := tarWriteString 8 (text "ustar  ")
  ownerName := tarWriteString 32 (text "ervan")
  groupName := tarWriteString 32 (text "ervan")
  deviceMajor := tarWriteString 8 []
  deviceMinor := tarWriteString 8 []
  filenamePrefix := tarWriteString 155 []
  zero := tarWriteString 12 []

/-- The sum of the header's bytes, each as a `uint8_t`. -/
def sum (h : TarHeader) : Nat := (h.bytes.map UInt8.toNat).sum

def filled (name : Bytes) (size now : Nat) : TarHeader :=
  { blank name size now with checksum := tarWriteNumber 7 (blank name size now).sum }

/-- What comes before the checksum. -/
def front (h : TarHeader) : Bytes :=
  h.path0 ++ h.mode ++ h.owner ++ h.group ++ h.fileSize ++ h.lastModification

/-- What comes after the checksum. -/
def back (h : TarHeader) : Bytes :=
  h.fileType ++ h.linkedName ++ h.ustarMagic ++ h.ownerName ++ h.groupName ++ h.deviceMajor ++
    h.deviceMinor ++ h.filenamePrefix ++ h.zero

theorem bytes_eq (h : TarHeader) :
    h.bytes = h.front ++ ((h.checksum ++ h.checksumSpace) ++ h.back) := by
  simp [bytes, front, back]

section Filled

variable (name : Bytes) (size now : Nat)

theorem length_front : (blank name size now).front.length = 148 := by
  simp [front, blank, length_tarWriteString, length_tarWriteNumber]

theorem length_back : (blank name size now).back.length = 356 := by
  simp [back, blank, length_tarWriteString]

theorem bytes_blank : (blank name size now).bytes =
    (blank name size now).front ++ List.replicate 8 32 ++ (blank name size now).back := by
  have hspaces : (blank name size now).checksum ++ (blank name size now).checksumSpace =
      List.replicate 8 32 := rfl
  rw [bytes_eq, hspaces, List.append_assoc]

theorem bytes_filled : (filled name size now).bytes = (blank name size now).front ++
    ((tarWriteNumber 7 (blank name size now).sum ++ [32]) ++ (blank name size now).back) :=
  bytes_eq _

theorem length_sum_field : (tarWriteNumber 7 (blank name size now).sum ++ [32]).length = 8 := by
  rw [List.length_append, length_tarWriteNumber (by decide)]
  rfl

/-- Six digits are enough for the sum of 512 bytes. -/
theorem sum_lt : (blank name size now).sum < 8 ^ 6 := by
  have hbound : ∀ x ∈ (blank name size now).bytes.map UInt8.toNat, x ≤ 255 := by
    intro x hx
    obtain ⟨c, -, rfl⟩ := List.mem_map.mp hx
    exact Nat.le_of_lt_succ c.toNat_lt
  have hsum : ((blank name size now).bytes.map UInt8.toNat).sum ≤
      ((blank name size now).bytes.map UInt8.toNat).length * 255 :=
    List.sum_le_card_nsmul _ 255 hbound
  have hlength : (blank name size now).bytes.length = 512 := by
    rw [bytes_blank, List.length_append, List.length_append, length_front, length_back]
    rfl
  rw [List.length_map, hlength] at hsum
  exact Nat.lt_of_le_of_lt hsum (by decide)

theorem length_bytes : (filled name size now).bytes.length = 512 := by
  rw [bytes_filled, List.length_append, List.length_append, length_front, length_back,
    length_sum_field]

theorem nameField_filled :
    Archive.nameField (filled name size now).bytes = tarWriteString 100 name := by
  have hpath : (filled name size now).path0.length = 100 := length_tarWriteString (by decide)
  rw [Archive.nameField, bytes]
  simp only [List.append_assoc]
  exact List.take_left' hpath

theorem sizeField_filled :
    Archive.sizeField (filled name size now).bytes = tarWriteNumber 12 size := by
  have hfields : ((blank name size now).path0 ++ (blank name size now).mode ++
      (blank name size now).owner ++ (blank name size now).group).length = 124 := by
    simp [blank, length_tarWriteString, length_tarWriteNumber]
  have hsize : (blank name size now).fileSize.length = 12 := length_tarWriteNumber (by decide)
  have hdrop (rest : Bytes) : ((blank name size now).front ++ rest).drop 124 =
      (blank name size now).fileSize ++ ((blank name size now).lastModification ++ rest) := by
    rw [front, List.append_assoc, List.append_assoc]
    exact List.drop_left' hfields
  rw [Archive.sizeField, bytes_filled, hdrop, List.take_left' hsize]
  rfl

theorem modeField_filled :
    Archive.modeField (filled name size now).bytes = tarWriteNumber 8 fileMode := by
  have hpath : (filled name size now).path0.length = 100 := length_tarWriteString (by decide)
  have hmode : (filled name size now).mode.length = 8 := length_tarWriteNumber (by decide)
  rw [Archive.modeField, bytes]
  simp only [List.append_assoc]
  rw [List.drop_left' hpath, List.take_left' hmode]
  rfl

theorem timeField_filled :
    Archive.timeField (filled name size now).bytes = tarWriteNumber 12 now := by
  have hfields : ((blank name size now).path0 ++ (blank name size now).mode ++
      (blank name size now).owner ++ (blank name size now).group ++
      (blank name size now).fileSize).length = 136 := by
    simp [blank, length_tarWriteString, length_tarWriteNumber]
  have htime : (blank name size now).lastModification.length = 12 :=
    length_tarWriteNumber (by decide)
  have hdrop (rest : Bytes) : ((blank name size now).front ++ rest).drop 136 =
      (blank name size now).lastModification ++ rest := by
    rw [front, List.append_assoc]
    exact List.drop_left' hfields
  rw [Archive.timeField, bytes_filled, hdrop, List.take_left' htime]
  rfl

theorem checksumField_filled : Archive.checksumField (filled name size now).bytes =
    tarWriteNumber 7 (blank name size now).sum ++ [32] := by
  rw [Archive.checksumField, bytes_filled, List.drop_left' (length_front _ _ _),
    List.take_left' (length_sum_field _ _ _)]

theorem checksum_filled :
    Archive.checksum (filled name size now).bytes = (blank name size now).sum := by
  have hdrop : (filled name size now).bytes.drop 156 = (blank name size now).back := by
    rw [bytes_filled, ← List.append_assoc]
    exact List.drop_left' (by rw [List.length_append, length_front, length_sum_field])
  rw [Archive.checksum, hdrop, bytes_filled, List.take_left' (length_front _ _ _), sum,
    bytes_blank]

/-- A number is read back from a field of its own. -/
theorem octal_field (n value : Nat) :
    Archive.octal (tarWriteNumber n value) = value % 8 ^ (n - 1) := by
  have hoctal := octal_tarWriteNumber n value []
  rwa [List.append_nil] at hoctal

/-- A reader finds the name, the size up to 8 GiB and the right checksum. -/
theorem filled_header : Archive.Header (filled name size now).bytes ((cString name).take 99)
    (size % 8 ^ 11) where
  length := length_bytes name size now
  nonzero := List.all_eq_false.mpr ⟨48, by simp [bytes, filled, blank], by decide⟩
  checked := by
    rw [checksumField_filled, octal_tarWriteNumber, checksum_filled,
      Nat.mod_eq_of_lt (sum_lt name size now)]
  name := by rw [nameField_filled, string_tarWriteString]
  size := by rw [sizeField_filled, octal_field]

end Filled

end TarHeader

end Ervan.Io
