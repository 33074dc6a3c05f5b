import Ervan.Common.Tar
import Ervan.Library.Patching

/-!
# Writing a tar header

`tar_header::filled` as it works on memory. The header is the first 512 bytes of a memory that
holds anything, with anything behind it. A string that fills its field is not terminated when
`strlen` looks for its end, so the search goes on in what follows the field.
-/

namespace Ervan.Io

open Patching

/-- `strlen` of the string at `start`. -/
def strlen (mem : Bytes) (start : Nat) : Nat := (cString (mem.drop start)).length

/-- `strncpy`. -/
def strncpy (mem : Bytes) (start : Nat) (value : Bytes) (n : Nat) : Bytes :=
  patch mem start ((cString value ++ List.replicate n nul).take n)

/-- The loop of `tar_write` of a number. The last of `n` digits is written first. -/
def writeDigits (start : Nat) : Nat → Nat → Bytes → Bytes
  | 0, _, mem => mem
  | n + 1, value, mem =>
      writeDigits start n (value / 8) (patch mem (start + n) [48 + UInt8.ofNat (value % 8)])

/-- The arguments of the overloads of `tar_write`. -/
inductive Value
  | char (value : UInt8)
  | number (value : Nat)
  | string (value : Bytes)

/-- `tar_write` into the `n` bytes at `start`. -/
def tarWrite (mem : Bytes) (start n : Nat) : Value → Bytes
  | .char value => patch mem (start + (n - 1)) [value]
  | .number value => patch (writeDigits start (n - 1) value mem) (start + (n - 1)) [nul]
  | .string value =>
      let mem := strncpy mem start value (n - 1)
      let i := strlen mem start
      let mem := patch mem (start + i) (List.replicate (n - i) nul)
      patch mem (start + (n - 1)) [nul]

/-- Consecutive fields, each with its size. -/
def tarWrites : List (Nat × Value) → Nat → Bytes → Bytes
  | [], _, mem => mem
  | (n, value) :: fields, start, mem => tarWrites fields (start + n) (tarWrite mem start n value)

namespace TarHeader

/-- The calls of `filled`, in the order of the fields. -/
def fields (name : Bytes) (size now : Nat) : List (Nat × Value) :=
  [(100, .string name), (8, .number fileMode), (8, .number 0), (8, .number 0),
    (12, .number size), (12, .number now), (7, .string (text "        ")), (1, .char 32),
    (1, .char 48), (100, .string []), (8, .string (text "ustar  ")),
    (32, .string (text "ervan")), (32, .string (text "ervan")), (8, .string []),
    (8, .string []), (155, .string []), (12, .string [])]

/-- `filled` in a memory whose first 512 bytes are the header. -/
def filledIn (mem name : Bytes) (size now : Nat) : Bytes :=
  let mem := tarWrites (fields name size now) 0 mem
  let mem := patch mem (148 + 6) [32]
  let sum := ((mem.take 512).map UInt8.toNat).sum
  tarWrite mem 148 7 (.number sum)

end TarHeader

/-- What a field of `n` bytes holds afterwards. -/
def Value.bytes (n : Nat) : Value → Bytes
  | .char value => [value]
  | .number value => tarWriteNumber n value
  | .string value => tarWriteString n value

/-- The value is written over the whole field. -/
def Value.Fills (n : Nat) : Value → Prop
  | .char _ => n = 1
  | .number _ => 0 < n
  | .string _ => 0 < n

section Fields

variable {pre old post : Bytes} {start n : Nat}

/-- The last byte of a field. -/
theorem last_byte (hn : 0 < n) (hold : old.length = n) :
    ∃ front last, old = front ++ [last] ∧ front.length = n - 1 := by
  have hne : old ≠ [] := List.ne_nil_of_length_pos (by rwa [hold])
  refine ⟨old.dropLast, old.getLast hne, (List.dropLast_append_getLast hne).symm, ?_⟩
  rw [List.length_dropLast, hold]

/-- The digits replace as many bytes. -/
theorem writeDigits_eq (n value : Nat) (hstart : pre.length = start) (hold : old.length = n)
    (post : Bytes) :
    writeDigits start n value (pre ++ (old ++ post)) =
      pre ++ (octalDigits n value ++ post) := by
  induction n generalizing value old post with
  | zero =>
      rw [List.eq_nil_of_length_eq_zero hold]
      rfl
  | succ n ih =>
      obtain ⟨front, last, rfl, hfront⟩ := last_byte (Nat.succ_pos n) hold
      have hfront : front.length = n := hfront
      have hlast : (pre ++ front).length = start + n := by
        rw [List.length_append, hstart, hfront]
      have hpatch : patch (pre ++ ((front ++ [last]) ++ post)) (start + n)
          [48 + UInt8.ofNat (value % 8)] =
            pre ++ (front ++ ([48 + UInt8.ofNat (value % 8)] ++ post)) := by
        have happend := patch_append (show [last].length =
          [48 + UInt8.ofNat (value % 8)].length from rfl) hlast post
        simpa using happend
      rw [writeDigits, hpatch, ih (value / 8) hfront, octalDigits, List.append_assoc]

theorem clean_cString (value : Bytes) : ∀ c ∈ cString value, (c != nul) = true := by
  intro c hc
  exact List.mem_takeWhile_imp (p := (· != nul)) hc

/-- A string that is cut off by its field is searched for its end behind the field. -/
theorem strlen_clean {s : Bytes} (hs : ∀ c ∈ s, (c != nul) = true) (hstart : pre.length = start)
    (rest : Bytes) : strlen (pre ++ (s ++ rest)) start = s.length + (cString rest).length := by
  rw [strlen, ← hstart, List.drop_left, cString, List.takeWhile_append_of_pos hs,
    List.length_append, cString]

/-- What `strncpy` leaves in a field, but for the field's last byte. -/
theorem take_padded (value : Bytes) (n : Nat) :
    (cString value ++ List.replicate n nul).take n =
      (cString value).take n ++ List.replicate (n - ((cString value).take n).length) nul := by
  rw [List.take_append, List.take_replicate, List.length_take]
  congr 2
  omega

/-- From the end of the string on the bytes are cleared. Whether this reaches the last one makes
no difference. -/
theorem clear_string {s : Bytes} {k : Nat} (last : UInt8) (hs : ∀ c ∈ s, (c != nul) = true)
    (hstart : pre.length = start) (hn : s.length + k + 1 = n) (post : Bytes) :
    let mem := pre ++ ((s ++ List.replicate k nul) ++ ([last] ++ post))
    ∃ x, patch mem (start + strlen mem start) (List.replicate (n - strlen mem start) nul) =
      pre ++ ((s ++ List.replicate k nul) ++ ([x] ++ post)) := by
  intro mem
  have hmem : mem = pre ++ (s ++ (List.replicate k nul ++ ([last] ++ post))) := by
    simp only [mem, List.append_assoc]
  have hlength : strlen mem start =
      s.length + (cString (List.replicate k nul ++ ([last] ++ post))).length := by
    rw [hmem]
    exact strlen_clean hs hstart _
  have hpre : (pre ++ s).length = start + s.length := by rw [List.length_append, hstart]
  cases k with
  | succ k =>
      -- the string is shorter than the field
      have hend : strlen mem start = s.length := by
        rw [hlength, List.replicate_succ]
        rfl
      have hwidth : n - s.length = k + 1 + 1 := by omega
      have hlengths : (List.replicate (k + 1) nul ++ [last]).length =
          (List.replicate (k + 1 + 1) nul).length := by simp
      have hpatch := patch_append hlengths hpre post
      refine ⟨nul, ?_⟩
      rw [hend, hwidth, hmem]
      simpa [List.replicate_succ'] using hpatch
  | zero =>
      by_cases hlast : last = nul
      · have hend : strlen mem start = s.length := by
          rw [hlength, hlast]
          rfl
        have hwidth : n - s.length = 1 := by omega
        have hpatch := patch_append (show [last].length = [nul].length from rfl) hpre post
        refine ⟨nul, ?_⟩
        rw [hend, hwidth, hmem]
        simpa using hpatch
      · -- `strlen` is past the end of the field
        have hend : n - strlen mem start = 0 := by
          have hmore : 1 ≤ (cString (List.replicate 0 nul ++ ([last] ++ post))).length := by
            simp [cString, hlast]
          omega
        refine ⟨last, ?_⟩
        rw [hend]
        exact patch_nil _ _

/-- The bytes behind a string are NUL, whatever the field held. -/
theorem tarWrite_string (value : Bytes) (hn : 0 < n) (hstart : pre.length = start)
    (hold : old.length = n) (post : Bytes) :
    tarWrite (pre ++ (old ++ post)) start n (.string value) =
      pre ++ (tarWriteString n value ++ post) := by
  obtain ⟨front, last, rfl, hfront⟩ := last_byte hn hold
  have hclean : ∀ c ∈ (cString value).take (n - 1), (c != nul) = true := fun c hc =>
    clean_cString value c (List.mem_of_mem_take hc)
  have hbound : ((cString value).take (n - 1)).length ≤ n - 1 := List.length_take_le _ _
  have hcopy : strncpy (pre ++ ((front ++ [last]) ++ post)) start value (n - 1) =
      pre ++ (((cString value).take (n - 1) ++
        List.replicate (n - 1 - ((cString value).take (n - 1)).length) nul) ++
          ([last] ++ post)) := by
    rw [strncpy, take_padded, List.append_assoc]
    refine patch_append ?_ hstart _
    rw [List.length_append, List.length_replicate]
    omega
  obtain ⟨x, hclear⟩ := clear_string (n := n) last hclean hstart
    (k := n - 1 - ((cString value).take (n - 1)).length) (by omega) post
  have hlast : (pre ++ ((cString value).take (n - 1) ++
      List.replicate (n - 1 - ((cString value).take (n - 1)).length) nul)).length =
        start + (n - 1) := by
    simp only [List.length_append, List.length_replicate, hstart]
    omega
  have hpatch := patch_append (show [x].length = [nul].length from rfl) hlast post
  simp only [tarWrite, hcopy, hclear]
  rw [← List.append_assoc, hpatch, tarWriteString]
  have hwidth : n - ((cString value).take (n - 1)).length =
      n - 1 - ((cString value).take (n - 1)).length + 1 := by omega
  rw [hwidth, List.replicate_succ']
  simp only [List.append_assoc]

theorem length_bytes {value : Value} (h : value.Fills n) : (value.bytes n).length = n := by
  cases value with
  | char value => exact h.symm
  | number value => exact length_tarWriteNumber h
  | string value => exact length_tarWriteString h

theorem tarWrite_eq {value : Value} (h : value.Fills n) (hstart : pre.length = start)
    (hold : old.length = n) (post : Bytes) :
    tarWrite (pre ++ (old ++ post)) start n value = pre ++ (value.bytes n ++ post) := by
  cases value with
  | char value =>
      obtain rfl : n = 1 := h
      exact patch_append hold hstart post
  | number value =>
      obtain ⟨front, last, rfl, hfront⟩ := last_byte h hold
      have hlast : (pre ++ octalDigits (n - 1) value).length = start + (n - 1) := by
        rw [List.length_append, length_octalDigits, hstart]
      have hpatch := patch_append (show [last].length = [nul].length from rfl) hlast post
      rw [tarWrite, List.append_assoc, writeDigits_eq _ _ hstart hfront, ← List.append_assoc,
        hpatch]
      simp only [Value.bytes, tarWriteNumber, List.append_assoc]
  | string value => exact tarWrite_string value h hstart hold post

/-- Consecutive fields replace what was there before. -/
theorem tarWrites_eq (fields : List (Nat × Value)) (hfills : ∀ f ∈ fields, f.2.Fills f.1)
    (hstart : pre.length = start) (hold : old.length = (fields.map Prod.fst).sum) (post : Bytes) :
    tarWrites fields start (pre ++ (old ++ post)) =
      pre ++ (fields.flatMap (fun f => f.2.bytes f.1) ++ post) := by
  induction fields generalizing pre old start with
  | nil =>
      rw [List.eq_nil_of_length_eq_zero hold]
      rfl
  | cons f fields ih =>
      obtain ⟨n, value⟩ := f
      have hvalue : value.Fills n := hfills (n, value) List.mem_cons_self
      simp only [List.map_cons, List.sum_cons] at hold
      have hfirst : (old.take n).length = n := by
        rw [List.length_take]
        omega
      have hrest : (old.drop n).length = (fields.map Prod.fst).sum := by
        rw [List.length_drop]
        omega
      have hnext : (pre ++ value.bytes n).length = start + n := by
        rw [List.length_append, hstart, length_bytes hvalue]
      have hold' : old ++ post = old.take n ++ (old.drop n ++ post) := by
        rw [← List.append_assoc, List.take_append_drop]
      rw [tarWrites, hold', tarWrite_eq hvalue hstart hfirst, ← List.append_assoc,
        ih (fun f hf => hfills f (List.mem_cons_of_mem _ hf)) hnext hrest]
      simp only [List.flatMap_cons, List.append_assoc]

end Fields

namespace TarHeader

section Filled

variable {mem : Bytes}

theorem fields_fill (name : Bytes) (size now : Nat) :
    ∀ f ∈ fields name size now, f.2.Fills f.1 := by
  simp [fields, Value.Fills]

/-- Before the sum is taken, the checksum field lacks its last space. -/
theorem bytes_fields (name : Bytes) (size now : Nat) :
    (fields name size now).flatMap (fun f => f.2.bytes f.1) =
      ((blank name size now).front ++ List.replicate 6 32) ++
        ([nul] ++ ([32] ++ (blank name size now).back)) := by
  have hspaces : tarWriteString 7 (text "        ") = List.replicate 6 32 ++ [nul] := by decide
  simp only [fields, List.flatMap_cons, List.flatMap_nil, Value.bytes, hspaces, front, back, blank,
    List.append_assoc, List.append_nil]

/-- The header does not depend on what the memory held, and what follows it stays. -/
theorem filledIn_eq (hmem : 512 ≤ mem.length) (name : Bytes) (size now : Nat) :
    filledIn mem name size now = (filled name size now).bytes ++ mem.drop 512 := by
  have hfront := length_front name size now
  have htake : (mem.take 512).length = ((fields name size now).map Prod.fst).sum := by
    rw [List.length_take, Nat.min_eq_left hmem]
    simp [fields]
  have hwritten := tarWrites_eq _ (fields_fill name size now)
    (show ([] : Bytes).length = 0 from rfl) htake (mem.drop 512)
  simp only [List.nil_append, List.take_append_drop] at hwritten
  have hblank : patch (tarWrites (fields name size now) 0 mem) (148 + 6) [32] =
      (blank name size now).front ++ (List.replicate 7 32 ++
        ([32] ++ (blank name size now).back ++ mem.drop 512)) := by
    have hlength : ((blank name size now).front ++ List.replicate 6 32).length = 148 + 6 := by
      rw [List.length_append, hfront, List.length_replicate]
    have hspace := patch_append (show [nul].length = [(32 : UInt8)].length from rfl) hlength
      ([32] ++ (blank name size now).back ++ mem.drop 512)
    rw [hwritten, bytes_fields]
    simpa [List.replicate_succ] using hspace
  have hsum : (patch (tarWrites (fields name size now) 0 mem) (148 + 6) [32]).take 512 =
      (blank name size now).bytes := by
    have hlength : (blank name size now).bytes.length = 512 := by
      rw [bytes_blank]
      simp [hfront, length_back]
    have hfirst : ((blank name size now).bytes ++ mem.drop 512).take 512 =
        (blank name size now).bytes := List.take_left' hlength
    rw [hblank, ← hfirst, bytes_blank]
    simp [List.replicate_succ]
  have hchecksum := tarWrite_eq (show Value.Fills 7 (.number (blank name size now).sum) from
    Nat.succ_pos 6) hfront (List.length_replicate (n := 7) (a := 32))
    ([32] ++ (blank name size now).back ++ mem.drop 512)
  simp only [filledIn, hsum]
  rw [hblank, ← sum, hchecksum, bytes_filled]
  simp only [Value.bytes, List.append_assoc]

/-- Whatever was in memory, a reader of the header finds what it was made for. -/
theorem filledIn_describes (mem name : Bytes) (size now : Nat) (hmem : 512 ≤ mem.length)
    (hname : nul ∉ name) (hlength : name.length < 100) (hsize : size < 8 ^ 11)
    (hnow : now < 8 ^ 11) :
    Archive.Describes ((filledIn mem name size now).take 512) name fileMode size now := by
  have hclean : (cString name).take 99 = name := by
    have hcString : cString name = name := List.takeWhile_eq_self_iff.mpr fun c hc => by
      simpa using ne_of_mem_of_not_mem hc hname
    rw [hcString, List.take_of_length_le (by omega)]
  have hheader := filled_header name size now
  rw [hclean, Nat.mod_eq_of_lt hsize] at hheader
  rw [filledIn_eq hmem, List.take_left' (length_bytes name size now)]
  refine ⟨hheader, ?_, ?_, ?_⟩
  · rw [modeField_filled, octal_field]
    decide
  · rw [timeField_filled, octal_field, Nat.mod_eq_of_lt hnow]
  · rw [checksum_filled]
    exact sum_lt name size now

theorem filledIn_message : Archive.Describes
    ((filledIn (List.replicate 512 255) (text "message.mbox") 4096 1700000000).take 512)
    (text "message.mbox") fileMode 4096 1700000000 :=
  filledIn_describes _ _ _ _ (by rw [List.length_replicate]) (by decide) (by decide) (by decide)
    (by decide)

end Filled

end TarHeader

end Ervan.Io
