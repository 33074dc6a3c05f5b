import Mathlib.Algebra.Order.BigOperators.Group.List
import Mathlib.Algebra.Order.Ring.Nat

/-!
# Tar archives

How an archive is read. A header of 512 bytes has the name and the size of a member, then come
its contents, and the next header is at the next multiple of 512 bytes. A header of zeros and
the end of the file both end the archive.
-/

namespace Archive

structure Member where
  name : List UInt8
  contents : List UInt8
  deriving DecidableEq, Repr

/-- The number that the digits at the start of a field stand for. -/
def octal (field : List UInt8) : Nat :=
  (field.takeWhile fun c => 48 ≤ c && c ≤ 55).foldl (fun n c => 8 * n + (c.toNat - 48)) 0

/-- The bytes of a field before the first zero. -/
def string (field : List UInt8) : List UInt8 := field.takeWhile (· != 0)

def nameField (header : List UInt8) : List UInt8 := header.take 100

def modeField (header : List UInt8) : List UInt8 := (header.drop 100).take 8

def sizeField (header : List UInt8) : List UInt8 := (header.drop 124).take 12

def timeField (header : List UInt8) : List UInt8 := (header.drop 136).take 12

def checksumField (header : List UInt8) : List UInt8 := (header.drop 148).take 8

/-- The sum of the bytes of a header, with spaces in the place of the checksum. -/
def checksum (header : List UInt8) : Nat :=
  ((header.take 148 ++ List.replicate 8 32 ++ header.drop 156).map UInt8.toNat).sum

/-- The space that the contents of a member take. -/
def padded (n : Nat) : Nat := 512 * ((n + 511) / 512)

/-- The members of an archive, if it is not malformed. -/
def read : Nat → List UInt8 → Option (List Member)
  | 0, _ => none
  | fuel + 1, file =>
      let header := file.take 512
      let data := file.drop 512
      if header = [] then some []
      else if header.length ≠ 512 then none
      else if header.all (· == 0) then some []
      else if octal (checksumField header) ≠ checksum header then none
      else
        let n := octal (sizeField header)
        if data.length < n then none
        else (read fuel (data.drop (padded n))).map (⟨string (nameField header), data.take n⟩ :: ·)

/-- Every turn takes at least 512 bytes. -/
def members (file : List UInt8) : Option (List Member) := read (file.length / 512 + 1) file

/-- A header for a member. -/
structure Header (header name : List UInt8) (n : Nat) : Prop where
  length : header.length = 512
  nonzero : header.all (· == 0) = false
  checked : octal (checksumField header) = checksum header
  name : string (nameField header) = name
  size : octal (sizeField header) = n

/-- A header that says all there is to say about a regular file. -/
structure Describes (header name : List UInt8) (mode size time : Nat) : Prop
    extends Header header name size where
  mode : octal (modeField header) = mode
  time : octal (timeField header) = time
  six_digits : checksum header < 8 ^ 6

variable {header name data contents rest : List UInt8} {n fuel : Nat} {ms : List Member}

@[simp] theorem read_nil : read (fuel + 1) [] = some [] := rfl

/-- A header of zeros ends the archive, whatever follows it. -/
theorem read_zeros (fuel : Nat) {zeros : List UInt8} (hlength : zeros.length = 512)
    (hzeros : ∀ c ∈ zeros, c = 0) (rest : List UInt8) :
    read (fuel + 1) (zeros ++ rest) = some [] := by
  have hall : zeros.all (· == 0) = true := List.all_eq_true.mpr fun c hc => by simp [hzeros c hc]
  simp only [read, List.take_left' hlength, hlength, hall, ne_eq, not_true_eq_false, if_false,
    if_true, ite_self]

theorem read_header (h : Header header name n) :
    read (fuel + 1) (header ++ data) = if data.length < n then none else
      (read fuel (data.drop (padded n))).map (⟨name, data.take n⟩ :: ·) := by
  have hne : header ≠ [] := List.ne_nil_of_length_pos (by rw [h.length]; decide)
  simp only [read, List.take_left' h.length, List.drop_left' h.length, if_neg hne, h.length,
    h.nonzero, h.checked, h.name, h.size, ne_eq, not_true_eq_false, if_false, Bool.false_eq_true]

/-- A member is read back exactly if its header has the right size and the next header is found
where the archive goes on. -/
theorem read_member_iff (h : Header header name n) (hn : n ≤ contents.length) :
    read (fuel + 1) (header ++ (contents ++ rest)) = some (⟨name, contents⟩ :: ms) ↔
      n = contents.length ∧ read fuel ((contents ++ rest).drop (padded n)) = some ms := by
  have hlength : ¬ (contents ++ rest).length < n := by
    rw [List.length_append]
    omega
  rw [read_header h, if_neg hlength, List.take_append_of_le_length hn, Option.map_eq_some_iff]
  constructor
  · rintro ⟨ms', hread, heq⟩
    obtain ⟨hmember, rfl⟩ := List.cons.inj heq
    have htake := congrArg List.length (Member.mk.inj hmember).2
    rw [List.length_take] at htake
    exact ⟨by omega, hread⟩
  · rintro ⟨rfl, hread⟩
    exact ⟨ms, hread, by rw [List.take_length]⟩

/-- Where the next header is found behind contents with `k` bytes after them. -/
theorem drop_padded {pad : List UInt8} (hpad : contents.length + pad.length =
    padded contents.length) (rest : List UInt8) :
    (contents ++ (pad ++ rest)).drop (padded contents.length) = rest := by
  rw [← hpad, ← List.append_assoc, ← List.length_append]
  exact List.drop_left

end Archive
