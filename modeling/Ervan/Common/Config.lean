import Ervan.Common.Text
import Ervan.Library.LittleEndian
import Mathlib.Data.List.TakeWhile
import Mathlib.Logic.Function.Basic

/-!
# The configuration

Keys with their types and defaults, the settings of a `config`, and the two template families
that write a setting into a buffer and read it back. What the C++ leaves open is a parameter:
a default string is assigned to whatever bytes the buffer has.
-/

namespace Ervan

/-- The numeric types of keys. -/
inductive Number
  | uint16
  | bool
  | size
  deriving DecidableEq, Repr

inductive KeyType
  | string
  | number (m : Number)
  deriving DecidableEq, Repr

abbrev Number.Val : Number → Type
  | .uint16 => UInt16
  | .bool => Bool
  | .size => UInt64

abbrev KeyType.Val : KeyType → Type
  | .string => Bytes
  | .number m => m.Val

inductive Key
  | hostname
  | port
  | submissionport
  | debug
  | maxmessagesize
  | maxrcpt
  deriving DecidableEq, Repr

namespace Key

def id : Key → UInt16
  | hostname => 0
  | port => 1
  | submissionport => 2
  | debug => 3
  | maxmessagesize => 4
  | maxrcpt => 5

def name : Key → Bytes
  | hostname => text "hostname"
  | port => text "port"
  | submissionport => text "submissionport"
  | debug => text "debug"
  | maxmessagesize => text "maxmessagesize"
  | maxrcpt => text "maxrcpt"

abbrev type : Key → KeyType
  | hostname => .string
  | port => .number .uint16
  | submissionport => .number .uint16
  | debug => .number .bool
  | maxmessagesize => .number .size
  | maxrcpt => .number .size

def defaultValue : (k : Key) → k.type.Val
  | hostname => []
  | port => (25 : UInt16)
  | submissionport => (587 : UInt16)
  | debug => false
  | maxmessagesize => (33554432 : UInt64)
  | maxrcpt => (256 : UInt64)

end Key

/-- A `config` of these keys. A null pointer is a key that is not set. -/
structure Config (keys : List Key) where
  value : (k : Key) → Option k.type.Val

/-- An array of `n` bytes. -/
structure Block (n : Nat) where
  bytes : Bytes
  length_eq : bytes.length = n

/-- Assignment to the first bytes. -/
def Block.write {n : Nat} (b : Block n) (bs : Bytes) (h : bs.length ≤ n) : Block n where
  bytes := bs ++ b.bytes.drop bs.length
  length_eq := by
    have := b.length_eq
    rw [List.length_append, List.length_drop]
    omega

namespace Number

/-- `sizeof`. -/
def bytes : Number → Nat
  | uint16 => 2
  | bool => 1
  | size => 8

/-- The object that holds the number. -/
def object : (m : Number) → m.Val → Bytes
  | uint16, v => LittleEndian.write 2 (UInt16.toNat v)
  | bool, v => LittleEndian.write 1 (Bool.toNat v)
  | size, v => LittleEndian.write 8 (UInt64.toNat v)

/-- The number in an object of these bytes. -/
def ofObject : (m : Number) → Bytes → m.Val
  | uint16, bs => UInt16.ofNat (LittleEndian.read 2 bs)
  | bool, bs => decide (LittleEndian.read 1 bs ≠ 0)
  | size, bs => UInt64.ofNat (LittleEndian.read 8 bs)

end Number

/-- `sizeof(std::string)`. -/
def stringSize : Nat := 32

section Dump

variable {n : Nat}

/-- The template of `dump_write`. -/
def dumpNumber (m : Number) (v : m.Val) (b : Block n) : Bool × Block n :=
  if h : (m.object v).length ≤ n then (true, b.write (m.object v) h) else (false, b)

/-- `dump_write` of a string: `strncpy` pads with NULs. -/
def dumpString (val : Bytes) (b : Block n) : Bool × Block n :=
  if n < val.length + 1 then (false, b)
  else
    (true, b.write ((cString val ++ List.replicate n nul).take n)
      (by rw [List.length_take]; exact Nat.min_le_left _ _))

/-- `dump_write(val, buffer, len)`. -/
def dumpWrite : (t : KeyType) → t.Val → Block n → Bool × Block n
  | .string, val, b => dumpString val b
  | .number m, v, b => dumpNumber m v b

/-- `dump_write<T, const T>`. It is never the overload for strings: the string is assigned to
the bytes as if they were a `std::string`, and `assign` says what that leaves there. -/
def dumpDefault (assign : Block n → Block n) : (t : KeyType) → t.Val → Block n → Bool × Block n
  | .string, _, b => if n < stringSize then (false, b) else (true, assign b)
  | .number m, v, b => dumpNumber m v b

/-- `set_write`. A string ends at the first NUL, which may be behind the buffer. -/
def setWrite (b : Block n) (behind : Bytes) : (t : KeyType) → Option t.Val
  | .string => some (cString (b.bytes ++ behind))
  | .number m => if n < m.bytes then none else some (m.ofObject b.bytes)

end Dump

namespace Config

variable {keys : List Key} {n : Nat}

def get (c : Config keys) (k : Key) : k.type.Val := (c.value k).getD k.defaultValue

def ensure (c : Config keys) (k : Key) : Bool := (c.value k).isSome

def set (c : Config keys) (k : Key) (v : k.type.Val) : Config keys :=
  ⟨Function.update c.value k (some v)⟩

/-- `dump_by_id_found`. -/
def dumpFound (assign : Block n → Block n) (c : Config keys) (k : Key) (b : Block n) :
    Bool × Block n :=
  match c.value k with
  | none => dumpDefault assign k.type k.defaultValue b
  | some v => dumpWrite k.type v b

/-- `dump_by_id`. -/
def dumpById (assign : Block n → Block n) (c : Config keys) (id : UInt16) (b : Block n) :
    List Key → Bool × Block n
  | [] => (false, b)
  | k :: ks => if id = k.id then c.dumpFound assign k b else c.dumpById assign id b ks

/-- `dump`. -/
def dump (assign : Block n → Block n) (c : Config keys) (id : UInt16) (b : Block n) :
    Bool × Block n := c.dumpById assign id b keys

/-- `set_by_id`. -/
def setByIdStep (c : Config keys) (id : UInt16) (b : Block n) (behind : Bytes) :
    List Key → Config keys × Bool
  | [] => (c, false)
  | k :: ks =>
      if id = k.id then
        match setWrite b behind k.type with
        | none => (c, false)
        | some v => (c.set k v, true)
      else c.setByIdStep id b behind ks

/-- `set(int id, const char* buffer, size_t len)`. -/
def setById (c : Config keys) (id : UInt16) (b : Block n) (behind : Bytes) : Config keys × Bool :=
  c.setByIdStep id b behind keys

end Config

/-- `std::from_chars` for a `size_t`. -/
inductive FromChars
  | invalidArgument
  | outOfRange
  | value (v : UInt64)
  deriving DecidableEq, Repr

def isdigit (c : UInt8) : Bool := 48 ≤ c && c ≤ 57

/-- The digits at the start of the string decide. -/
def fromChars (str : Bytes) : FromChars :=
  let digits := str.takeWhile isdigit
  let n := digits.foldl (fun n c => 10 * n + (c.toNat - 48)) 0
  if digits = [] then .invalidArgument
  else if n < 2 ^ 64 then .value (UInt64.ofNat n)
  else .outOfRange

/-- The template of `transform` for a type whose largest value is `largest`. A number that is
out of range leaves `value` uninitialised: `stack` is what it was. -/
def transformNumber (stack : UInt64) (largest : Nat) (str : Bytes) : Option UInt64 :=
  match fromChars str with
  | .invalidArgument => none
  | .outOfRange => if largest < stack.toNat then none else some stack
  | .value v => if largest < v.toNat then none else some v

/-- `transform`. -/
def transform (stack : UInt64) (str : Bytes) : (t : KeyType) → Option t.Val
  | .string => some str
  | .number .bool => some (str == text "yes" || str == text "true")
  | .number .uint16 => (transformNumber stack (2 ^ 16 - 1) str).map UInt64.toUInt16
  | .number .size => transformNumber stack (2 ^ 64 - 1) str

namespace Config

variable {keys : List Key}

/-- `compare`: `strcmp` with the C string of the key. -/
def compare (k : Key) (key : Bytes) : Bool := k.name == cString key

/-- `exists_step`. -/
def existsStep (key : Bytes) : List Key → Bool
  | [] => false
  | k :: ks => if compare k key then true else existsStep key ks

/-- `exists`. -/
def existsKey (_ : Config keys) (key : Bytes) : Bool := existsStep key keys

/-- `set_by_key`. Nothing is set if there is no result. -/
def setByKeyStep (stack : Bytes → UInt64) (c : Config keys) (key val : Bytes) :
    List Key → Option (Config keys)
  | [] => none
  | k :: ks =>
      if compare k key then (transform (stack val) val k.type).map (c.set k)
      else c.setByKeyStep stack key val ks

/-- `set(std::string& key, std::string& val)`. -/
def setByKey (stack : Bytes → UInt64) (c : Config keys) (key val : Bytes) :
    Option (Config keys) := c.setByKeyStep stack key val keys

/-- Whether a setting is accepted does not depend on the other settings. -/
theorem setByKey_isSome (stack : Bytes → UInt64) (c c' : Config keys) (key val : Bytes) :
    (c.setByKey stack key val).isSome = (c'.setByKey stack key val).isSome := by
  have hstep (ks : List Key) : (c.setByKeyStep stack key val ks).isSome =
      (c'.setByKeyStep stack key val ks).isSome := by
    induction ks with
    | nil => rfl
    | cons k ks ih =>
        by_cases hk : compare k key = true
        · simp only [setByKeyStep, if_pos hk, Option.isSome_map]
        · simp only [setByKeyStep, if_neg hk, ih]
  exact hstep keys

end Config

section Transfer

variable {n : Nat}

theorem length_object (m : Number) (v : m.Val) : (m.object v).length = m.bytes := by
  cases m <;> exact LittleEndian.length_write _ _

/-- A number is read back from its object. -/
theorem ofObject_object (m : Number) (v : m.Val) (rest : Bytes) :
    m.ofObject (m.object v ++ rest) = v := by
  cases m with
  | uint16 =>
      have hlt := UInt16.toNat_lt v
      simp only [Number.ofObject, Number.object, LittleEndian.read_write]
      rw [Nat.mod_eq_of_lt hlt, UInt16.ofNat_toNat]
  | bool =>
      simp only [Number.ofObject, Number.object, LittleEndian.read_write]
      cases v <;> rfl
  | size =>
      have hlt := UInt64.toNat_lt v
      simp only [Number.ofObject, Number.object, LittleEndian.read_write]
      rw [Nat.mod_eq_of_lt hlt, UInt64.ofNat_toNat]

/-- What is dumped as a number is set as the number. -/
theorem setWrite_dumpNumber (m : Number) (v : m.Val) (b : Block n) (behind : Bytes)
    (h : m.bytes ≤ n) : setWrite (dumpNumber m v b).2 behind (.number m) = some v := by
  have hobject : (m.object v).length ≤ n := by rwa [length_object]
  simp only [dumpNumber, dif_pos hobject, setWrite, if_neg (Nat.not_lt.mpr h), Block.write,
    ofObject_object]

theorem cString_of_notMem {bs : Bytes} (h : nul ∉ bs) (rest : Bytes) :
    cString (bs ++ nul :: rest) = bs := by
  induction bs with
  | nil => rfl
  | cons c bs ih =>
      rw [List.mem_cons, not_or] at h
      have hc : c ≠ nul := Ne.symm h.1
      have hrest := ih h.2
      rw [cString] at hrest ⊢
      simp [hc, hrest]

/-- A string that leaves room for its NUL is set as it was dumped. -/
theorem setWrite_dumpString (val : Bytes) (clean : nul ∉ val) (b : Block n) (behind : Bytes)
    (h : val.length < n) : setWrite (dumpString val b).2 behind .string = some val := by
  have hval : cString val = val := by
    apply List.takeWhile_eq_self_iff.mpr
    intro c hc
    exact bne_iff_ne.mpr fun heq => clean (heq ▸ hc)
  have hcopied : (cString val ++ List.replicate n nul).take n =
      val ++ nul :: List.replicate (n - val.length - 1) nul := by
    rw [hval, List.take_append, List.take_of_length_le (Nat.le_of_lt h), List.take_replicate,
      ← List.replicate_succ]
    congr 2
    omega
  simp only [dumpString, if_neg (show ¬ n < val.length + 1 by omega), setWrite, Block.write, hcopied]
  rw [List.append_assoc, List.append_assoc, List.cons_append, cString_of_notMem clean]

/-- A string that does not fit is not dumped. -/
theorem dumpString_long {val : Bytes} (b : Block n) (h : n ≤ val.length) :
    dumpString val b = (false, b) := if_pos (Nat.lt_succ_of_le h)

end Transfer

end Ervan
