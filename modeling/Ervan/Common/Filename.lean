import Ervan.Common.Text

/-!
# Unique filenames

`get_unique_filename` puts the process, the time, a counter and a random number behind a
prefix, between dots. The numbers can be told apart again, so two names with different
counters are different.
-/

namespace Ervan

/-- A number as `std::format` writes it. -/
def decimal (n : Nat) : Bytes := (Nat.toDigits 10 n).map fun c => UInt8.ofNat c.toNat

/-- `get_unique_filename`, with the values that `getpid`, `time` and `rand` return and that
the static counter has. -/
def getUniqueFilename (pre : Bytes) (pid time counter rand : Nat) : Bytes :=
  pre ++ 46 :: (decimal pid ++ 46 :: (decimal time ++ 46 :: (decimal counter ++ 46 :: decimal rand)))

theorem digit_of_mem_decimal {n : Nat} {c : UInt8} (h : c ∈ decimal n) :
    48 ≤ c.toNat ∧ c.toNat ≤ 57 := by
  obtain ⟨d, hd, rfl⟩ := List.mem_map.mp h
  have hdigit := Nat.isDigit_of_mem_toDigits (by decide) (by decide) hd
  simp only [Char.isDigit, Bool.and_eq_true, decide_eq_true_eq] at hdigit
  have hlo : 48 ≤ d.toNat := hdigit.1
  have hhi : d.toNat ≤ 57 := hdigit.2
  rw [UInt8.toNat_ofNat', Nat.mod_eq_of_lt (by omega)]
  exact ⟨hlo, hhi⟩

/-- The digits can be read back. -/
theorem decimal_injective {n m : Nat} (h : decimal n = decimal m) : n = m := by
  have hread (k : Nat) : (decimal k).map (fun c => Char.ofNat c.toNat) = Nat.toDigits 10 k := by
    rw [decimal, List.map_map]
    refine (List.map_congr_left fun d hd => ?_).trans (List.map_id _)
    have hdigit := digit_of_mem_decimal (List.mem_map_of_mem hd)
    have hsmall := Nat.isDigit_of_mem_toDigits (by decide) (by decide) hd
    simp only [Char.isDigit, Bool.and_eq_true, decide_eq_true_eq] at hsmall
    have hhi : d.toNat ≤ 57 := hsmall.2
    rw [Function.comp_apply, UInt8.toNat_ofNat', Nat.mod_eq_of_lt (by omega), Char.ofNat_toNat]
    rfl
  have hdigits := congrArg (List.map fun c : UInt8 => Char.ofNat c.toNat) h
  rw [hread, hread] at hdigits
  rw [← Nat.ofDigitChars_ten_toDigits (n := n), hdigits, Nat.ofDigitChars_ten_toDigits]

theorem dot_notMem_decimal (n : Nat) : 46 ∉ decimal n := by
  intro h
  have hdigit := digit_of_mem_decimal h
  exact absurd hdigit.1 (by decide)

theorem nul_notMem_decimal (n : Nat) : nul ∉ decimal n := by
  intro h
  have hdigit := digit_of_mem_decimal h
  exact absurd hdigit.1 (by decide)

/-- Two texts that end at their first dots. -/
theorem split_dot {a a' b b' : Bytes} (h : a ++ 46 :: b = a' ++ 46 :: b') (ha : 46 ∉ a)
    (ha' : 46 ∉ a') : a = a' ∧ b = b' := by
  induction a generalizing a' with
  | nil =>
      cases a' with
      | nil => exact ⟨rfl, (List.cons.inj h).2⟩
      | cons c a' => exact absurd ((List.cons.inj h).1 ▸ List.mem_cons_self) ha'
  | cons c a ih =>
      cases a' with
      | nil => exact absurd ((List.cons.inj h).1 ▸ List.mem_cons_self) ha
      | cons c' a' =>
          obtain ⟨rfl, hrest⟩ := List.cons.inj h
          obtain ⟨rfl, hb⟩ := ih hrest (fun hmem => ha (List.mem_cons_of_mem c hmem))
            (fun hmem => ha' (List.mem_cons_of_mem c hmem))
          exact ⟨rfl, hb⟩

theorem getUniqueFilename_counter {pre : Bytes} {pid time counter rand pid' time' counter' rand' : Nat}
    (h : getUniqueFilename pre pid time counter rand =
      getUniqueFilename pre pid' time' counter' rand') : counter = counter' := by
  obtain ⟨-, hpid⟩ := List.cons.inj (List.append_cancel_left h)
  obtain ⟨-, htime⟩ := split_dot hpid (dot_notMem_decimal pid) (dot_notMem_decimal pid')
  obtain ⟨-, hcounter⟩ := split_dot htime (dot_notMem_decimal time) (dot_notMem_decimal time')
  obtain ⟨hdigits, -⟩ := split_dot hcounter (dot_notMem_decimal counter)
    (dot_notMem_decimal counter')
  exact decimal_injective hdigits

theorem getUniqueFilename_pid {pre : Bytes} {pid time counter rand pid' time' counter' rand' : Nat}
    (h : getUniqueFilename pre pid time counter rand =
      getUniqueFilename pre pid' time' counter' rand') : pid = pid' := by
  obtain ⟨-, hpid⟩ := List.cons.inj (List.append_cancel_left h)
  exact decimal_injective (split_dot hpid (dot_notMem_decimal pid) (dot_notMem_decimal pid')).1

theorem nul_notMem_getUniqueFilename {pre : Bytes} (h : nul ∉ pre) (pid time counter rand : Nat) :
    nul ∉ getUniqueFilename pre pid time counter rand := by
  have hdot : nul ≠ (46 : UInt8) := by decide
  simp only [getUniqueFilename, List.mem_append, List.mem_cons, not_or]
  exact ⟨h, hdot, nul_notMem_decimal pid, hdot, nul_notMem_decimal time, hdot,
    nul_notMem_decimal counter, hdot, nul_notMem_decimal rand⟩

end Ervan
