import Ervan.Common.Config

/-!
# Numbers in the configuration

A key of an unsigned type takes the number that the digits at the start of the value stand for.
Of the errors of `std::from_chars` only one is looked at. With the other the number is compared
that was in `value` before, and taken if it is not too large.
-/

namespace Ervan

/-- The number that the digits at the start of a text stand for. -/
def numeral (str : Bytes) : Nat :=
  (str.takeWhile isdigit).foldl (fun n c => 10 * n + (c.toNat - 48)) 0

namespace KeyType

/-- `std::numeric_limits<T>::max()` of an unsigned type. -/
def largest : KeyType → Option Nat
  | .number .uint16 => some (2 ^ 16 - 1)
  | .number .size => some (2 ^ 64 - 1)
  | _ => none

/-- A value of an unsigned type as a number. -/
def unsigned : (t : KeyType) → t.Val → Option Nat
  | .number .uint16, v => some (UInt16.toNat v)
  | .number .size, v => some (UInt64.toNat v)
  | _, _ => none

end KeyType

namespace Config

variable {keys : List Key} {stack : Bytes → UInt64} {c : Config keys} {k : Key}
variable {key val : Bytes}

/-- `set(key, val)`: what is returned, and the config afterwards. -/
def setKey (stack : Bytes → UInt64) (c : Config keys) (key val : Bytes) : Bool × Config keys :=
  ((c.setByKey stack key val).isSome, (c.setByKey stack key val).getD c)

/-- The number is stored if there is one that fits the type, and otherwise nothing is stored. -/
structure Exact (stack : Bytes → UInt64) (c : Config keys) (k : Key) (key val : Bytes)
    (largest : Nat) : Prop where
  stored : val.takeWhile isdigit ≠ [] → numeral val ≤ largest →
    (c.setKey stack key val).1 = true ∧
      k.type.unsigned ((c.setKey stack key val).2.get k) = some (numeral val)
  refused : val.takeWhile isdigit = [] ∨ largest < numeral val →
    (c.setKey stack key val).1 = false ∧ (c.setKey stack key val).2.get k = c.get k

theorem name_injective {k k' : Key} (h : k.name = k'.name) : k = k' := by
  cases k <;> cases k' <;> first | rfl | exact absurd h (by decide)

theorem setByKeyStep_eq (hkey : cString key = k.name) {ks : List Key} (hk : k ∈ ks) :
    c.setByKeyStep stack key val ks = (transform (stack val) val k.type).map (c.set k) := by
  induction ks with
  | nil => cases hk
  | cons k' ks ih =>
      by_cases hname : k'.name = k.name
      · obtain rfl := name_injective hname
        rw [setByKeyStep, if_pos (by rw [compare, hkey, beq_self_eq_true])]
      · have hne : k ≠ k' := fun h => hname (by rw [h])
        rw [setByKeyStep, if_neg (by rw [compare, hkey, beq_iff_eq]; exact hname)]
        exact ih ((List.mem_cons.mp hk).resolve_left hne)

theorem get_set (c : Config keys) (k : Key) (v : k.type.Val) : (c.set k v).get k = v :=
  congrArg (fun o => o.getD k.defaultValue) (Function.update_self k (some v) c.value)

end Config

section Transform

variable {s : UInt64} {largest : Nat} {str : Bytes} {t : KeyType}

theorem fromChars_eq (str : Bytes) : fromChars str =
    if str.takeWhile isdigit = [] then .invalidArgument
    else if numeral str < 2 ^ 64 then .value (UInt64.ofNat (numeral str)) else .outOfRange := rfl

/-- Without a number, what was in `value` is not looked at. -/
theorem transformNumber_invalid (h : str.takeWhile isdigit = []) :
    transformNumber s largest str = none := by
  rw [transformNumber, fromChars_eq, if_pos h]

theorem transformNumber_value (h : str.takeWhile isdigit ≠ []) (hn : numeral str < 2 ^ 64) :
    transformNumber s largest str =
      if largest < numeral str then none else some (UInt64.ofNat (numeral str)) := by
  have htoNat : (UInt64.ofNat (numeral str)).toNat = numeral str := UInt64.toNat_ofNat_of_lt' hn
  rw [transformNumber, fromChars_eq, if_neg h, if_pos hn]
  simp only [htoNat]

/-- A number of more than 64 bits leaves `value` as it was. -/
theorem transformNumber_outOfRange (h : str.takeWhile isdigit ≠ []) (hn : 2 ^ 64 ≤ numeral str) :
    transformNumber s largest str = if largest < s.toNat then none else some s := by
  rw [transformNumber, fromChars_eq, if_neg h, if_neg (Nat.not_lt.mpr hn)]

theorem transformNumber_le {v : UInt64} (h : transformNumber s largest str = some v) :
    v.toNat ≤ largest := by
  unfold transformNumber at h
  split at h
  · cases h
  · rw [Option.ite_none_left_eq_some] at h
    obtain ⟨hle, heq⟩ := h
    obtain rfl := Option.some.inj heq
    exact Nat.not_lt.mp hle
  · rw [Option.ite_none_left_eq_some] at h
    obtain ⟨hle, heq⟩ := h
    obtain rfl := Option.some.inj heq
    exact Nat.not_lt.mp hle

/-- The narrower type gets the whole number. -/
theorem transform_unsigned (s : UInt64) (str : Bytes) (ht : t.largest = some largest) :
    (transform s str t).isSome = (transformNumber s largest str).isSome ∧
      ∀ v, transformNumber s largest str = some v →
        (transform s str t).bind t.unsigned = some v.toNat := by
  cases t with
  | string => cases ht
  | number m =>
      cases m with
      | bool => cases ht
      | uint16 =>
          cases ht
          refine ⟨Option.isSome_map, fun v hv => ?_⟩
          have hle := transformNumber_le hv
          have htoNat : v.toUInt16.toNat = v.toNat := by
            rw [UInt64.toNat_toUInt16]
            exact Nat.mod_eq_of_lt (by omega)
          rw [transform, hv, ← htoNat]
          rfl
      | size =>
          cases ht
          refine ⟨rfl, fun v hv => ?_⟩
          rw [transform, hv]
          rfl

theorem largest_lt (ht : t.largest = some largest) : largest < 2 ^ 64 := by
  cases t with
  | string => cases ht
  | number m => cases m <;> cases ht <;> decide

end Transform

namespace Config

variable {keys : List Key} {stack : Bytes → UInt64} {c : Config keys} {k : Key}
variable {key val : Bytes} {largest : Nat}

theorem setByKey_eq (hk : k ∈ keys) (hkey : cString key = k.name) :
    c.setByKey stack key val = (transform (stack val) val k.type).map (c.set k) :=
  setByKeyStep_eq hkey hk

theorem setKey_none (hk : k ∈ keys) (hkey : cString key = k.name)
    (ht : k.type.largest = some largest)
    (h : transformNumber (stack val) largest val = none) :
    c.setKey stack key val = (false, c) := by
  have hsome := (transform_unsigned (stack val) val ht).1
  rw [h, Option.isSome_none, Option.isSome_eq_false_iff, Option.isNone_iff_eq_none] at hsome
  rw [setKey, setByKey_eq hk hkey, hsome]
  rfl

theorem setKey_some {v : UInt64} (hk : k ∈ keys) (hkey : cString key = k.name)
    (ht : k.type.largest = some largest)
    (h : transformNumber (stack val) largest val = some v) :
    (c.setKey stack key val).1 = true ∧
      k.type.unsigned ((c.setKey stack key val).2.get k) = some v.toNat := by
  have hvalue := (transform_unsigned (stack val) val ht).2 v h
  obtain ⟨x, htransform, hx⟩ := Option.bind_eq_some_iff.mp hvalue
  rw [setKey, setByKey_eq hk hkey, htransform]
  refine ⟨rfl, ?_⟩
  change k.type.unsigned ((c.set k x).get k) = _
  rw [get_set, hx]

/-- Without digits there is no number. -/
theorem numeral_nil (h : val.takeWhile isdigit = []) : numeral val = 0 := by
  rw [numeral, h]
  rfl

/-- A value is stored exactly or refused if and only if its number has at most 64 bits, or what
was in `value` before is too large for the type. -/
theorem exact_iff (stack : Bytes → UInt64) (c : Config keys) (k : Key) (key val : Bytes)
    (largest : Nat) (hk : k ∈ keys) (hkey : cString key = k.name)
    (ht : k.type.largest = some largest) :
    c.Exact stack k key val largest ↔ numeral val < 2 ^ 64 ∨ largest < (stack val).toNat := by
  have hlargest := largest_lt ht
  have hrefused (h : transformNumber (stack val) largest val = none) :
      (c.setKey stack key val).1 = false ∧ (c.setKey stack key val).2.get k = c.get k := by
    rw [setKey_none hk hkey ht h]
    exact ⟨rfl, rfl⟩
  constructor
  · intro exact
    by_contra hcondition
    rw [not_or, Nat.not_lt, Nat.not_lt] at hcondition
    obtain ⟨hnumeral, hstack⟩ := hcondition
    have hdigits : val.takeWhile isdigit ≠ [] := by
      intro hnil
      rw [numeral_nil hnil] at hnumeral
      omega
    have hstored : transformNumber (stack val) largest val = some (stack val) := by
      rw [transformNumber_outOfRange hdigits hnumeral, if_neg (Nat.not_lt.mpr hstack)]
    have hfalse := (exact.refused (Or.inr (by omega))).1
    rw [(setKey_some hk hkey ht hstored).1] at hfalse
    cases hfalse
  · intro hcondition
    refine ⟨fun hdigits hle => ?_, fun hrefuse => hrefused ?_⟩
    · have hnumber : numeral val < 2 ^ 64 := Nat.lt_of_le_of_lt hle hlargest
      have hvalue : transformNumber (stack val) largest val =
          some (UInt64.ofNat (numeral val)) := by
        rw [transformNumber_value hdigits hnumber, if_neg (Nat.not_lt.mpr hle)]
      have hsome := setKey_some (c := c) hk hkey ht hvalue
      rwa [UInt64.toNat_ofNat_of_lt' hnumber] at hsome
    · by_cases hdigits : val.takeWhile isdigit = []
      · exact transformNumber_invalid hdigits
      · have hlarge := hrefuse.resolve_left hdigits
        by_cases hnumber : numeral val < 2 ^ 64
        · rw [transformNumber_value hdigits hnumber, if_pos hlarge]
        · rw [transformNumber_outOfRange hdigits (Nat.not_lt.mp hnumber),
            if_pos (hcondition.resolve_left hnumber)]

theorem exact_iff_port :
    (⟨fun _ => none⟩ : Config [.port]).Exact (fun _ => 4242) .port (text "port") (text "65536")
      (2 ^ 16 - 1) ↔ numeral (text "65536") < 2 ^ 64 ∨ 2 ^ 16 - 1 < (4242 : UInt64).toNat :=
  exact_iff (fun _ => 4242) _ .port _ _ _ List.mem_cons_self (by decide) rfl

/-- A number of 65 bits sets the port to what was on the stack. -/
theorem not_exact_port : ¬ ∀ (stack : Bytes → UInt64) (c : Config [.port]) (val : Bytes),
    c.Exact stack .port (text "port") val (2 ^ 16 - 1) := by
  intro h
  have hrefused := (h (fun _ => 4242) ⟨fun _ => none⟩ (text "18446744073709551616")).refused
    (Or.inr (by decide))
  revert hrefused
  decide

end Config

end Ervan
