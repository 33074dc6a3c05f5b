import Ervan.Common.ConfigScan
import Ervan.Main.Reload

/-!
# The calls of `get_config_pair`

Every pair that is found lies behind the offset, so that `reload_config` comes to an end. It comes
to an end with a scan that leaves the buffer, unless a refused value keeps it from the last scan.
-/

namespace Ervan.Main

/-- What a call of `get_config_pair` says about the text from its offset on. -/
inductive Progress (buffer : Bytes) (offset : Nat) : PairResult → Prop
  | finished : Progress buffer offset .finished
  | invalid : Progress buffer offset .invalid
  | ok (pair : ConfigPair) (located : Located buffer offset pair) :
      Progress buffer offset (.ok pair)

/-- The next call of `get_config_pair`, if there is one, reads no byte that the buffer does not
have. -/
def CallInside (text : Bytes) (r : Reading) : Prop :=
  r.stopped = false → (Guarded.getConfigPair text r.offset).isSome = true

instance (text : Bytes) (r : Reading) : Decidable (CallInside text r) :=
  inferInstanceAs (Decidable (_ → _))

/-- No call of `get_config_pair` that `reload_config` makes leaves the buffer. -/
def ScansInside (stack : Bytes → UInt64) (text : Bytes) (cfg : ConfigAll) : Prop :=
  Run.Always (Reading.step stack text) (CallInside text) ⟨0, cfg, false⟩

/-- The text starts with a key and a value, and then a line break if it goes on. -/
structure Starts (bs key value rest : Bytes) : Prop where
  split : ∃ space gap, Only isspace space ∧ Only isspace gap ∧ gap ≠ [] ∧
    bs = space ++ key ++ gap ++ value ++ rest
  key_only : Only (! isspace ·) key
  key_ne : key ≠ []
  value_only : Only (! newline ·) value
  value_start : ∃ c ∈ value.head?, isspace c = false
  rest_start : ∀ c ∈ rest.head?, newline c = true

/-- One of the values is refused, and there is a line break behind it. -/
inductive Refuses (stack : Bytes → UInt64) : Bytes → Prop
  | here {bs key value rest : Bytes} (starts : Starts bs key value rest) (broken : rest ≠ [])
      (invalid : Invalid stack key value) : Refuses stack bs
  | later {bs key value rest : Bytes} (starts : Starts bs key value rest)
      (valid : ¬ Invalid stack key value) (next : Refuses stack rest) : Refuses stack bs

section Starts

variable {bs key value rest : Bytes} {stack : Bytes → UInt64}

/-- A text starts with one pair at most. -/
theorem Starts.eq (h : Starts bs key value rest) :
    let word := bs.dropWhile isspace
    let line := (word.dropWhile (! isspace ·)).dropWhile isspace
    key = word.takeWhile (! isspace ·) ∧ value = line.takeWhile (! newline ·) ∧
      rest = line.dropWhile (! newline ·) := by
  obtain ⟨space, gap, hspace, hgap, hgapne, rfl⟩ := h.split
  obtain ⟨b, hb, hvalue⟩ := h.value_start
  have hkeyStop : ∀ c ∈ (key ++ (gap ++ (value ++ rest))).head?, isspace c = false := by
    obtain ⟨c, key', rfl⟩ := List.exists_cons_of_ne_nil h.key_ne
    intro c' hc'
    cases hc'
    simpa using h.key_only c List.mem_cons_self
  have hgapStop : ∀ c ∈ (gap ++ (value ++ rest)).head?, (! isspace c) = false := by
    obtain ⟨c, gap', rfl⟩ := List.exists_cons_of_ne_nil hgapne
    intro c' hc'
    cases hc'
    exact start_gap hgap c rfl
  have hvalueStop : ∀ c ∈ (value ++ rest).head?, isspace c = false := by
    intro c hc
    rw [List.head?_append, Option.mem_def.mp hb] at hc
    cases hc
    exact hvalue
  have hrestStop : ∀ c ∈ rest.head?, (! newline c) = false := fun c hc => by
    rw [h.rest_start c hc]
    rfl
  simp only [List.append_assoc, (stretch hspace hkeyStop).2, (stretch h.key_only hgapStop).1,
    (stretch h.key_only hgapStop).2, (stretch hgap hvalueStop).2,
    (stretch h.value_only hrestStop).1, (stretch h.value_only hrestStop).2, and_self]

theorem Starts.unique {key' value' rest' : Bytes} (h : Starts bs key value rest)
    (h' : Starts bs key' value' rest') : key' = key ∧ value' = value ∧ rest' = rest := by
  obtain ⟨hkey, hvalue, hrest⟩ := h.eq
  obtain ⟨hkey', hvalue', hrest'⟩ := h'.eq
  rw [hkey, hvalue, hrest]
  exact ⟨hkey', hvalue', hrest'⟩

/-- Behind the first pair it depends on the pair. -/
theorem refuses_iff (h : Starts bs key value rest) :
    Refuses stack bs ↔
      rest ≠ [] ∧ Invalid stack key value ∨ ¬ Invalid stack key value ∧ Refuses stack rest := by
  constructor
  · intro refuses
    cases refuses with
    | here starts broken invalid =>
        obtain ⟨rfl, rfl, rfl⟩ := h.unique starts
        exact Or.inl ⟨broken, invalid⟩
    | later starts valid next =>
        obtain ⟨rfl, rfl, rfl⟩ := h.unique starts
        exact Or.inr ⟨valid, next⟩
  · rintro (⟨broken, invalid⟩ | ⟨valid, next⟩)
    · exact .here h broken invalid
    · exact .later h valid next

/-- A text that starts with a pair is refused only if something follows. -/
theorem Refuses.starts (h : Refuses stack bs) : ∃ key value rest, Starts bs key value rest := by
  cases h with
  | here starts _ _ => exact ⟨_, _, _, starts⟩
  | later starts _ _ => exact ⟨_, _, _, starts⟩

theorem Starts.ne (h : Starts bs key value rest) : bs ≠ [] := by
  obtain ⟨space, gap, -, -, hgapne, rfl⟩ := h.split
  simp [hgapne]

theorem Starts.of_cut {buffer : Bytes} {pair : ConfigPair} {gap : Bytes}
    (h : Cut buffer bs pair key gap value rest) : Starts bs key value rest := by
  obtain ⟨space, hspace, hsplit⟩ := h.split
  exact ⟨⟨space, gap, hspace, h.gap_only, h.gap_ne, hsplit⟩, h.key_only, h.key_ne, h.value_only,
    h.value_start, h.rest_start⟩

end Starts

section Calls

variable {stack : Bytes → UInt64} {text : Bytes} {r : Reading}

/-- White space alone does not start with a pair. -/
theorem not_refuses_space {bs : Bytes} (h : Only isspace bs) : ¬ Refuses stack bs := by
  intro refuses
  obtain ⟨key, value, rest, starts⟩ := refuses.starts
  have hkey := starts.eq.1
  rw [List.dropWhile_eq_nil_iff.mpr h] at hkey
  exact starts.key_ne hkey

/-- Nor does a single word. -/
theorem not_refuses_word {space key gap : Bytes} (space_only : Only isspace space)
    (key_only : Only (! isspace ·) key) (key_ne : key ≠ []) (gap_only : Only isspace gap) :
    ¬ Refuses stack (space ++ key ++ gap) := by
  intro refuses
  obtain ⟨key', value, rest, starts⟩ := refuses.starts
  have hword : (space ++ key ++ gap).dropWhile isspace = key ++ gap := by
    rw [List.append_assoc, List.dropWhile_append_of_pos space_only, start_key key_only key_ne]
  have hline : ((key ++ gap).dropWhile (! isspace ·)).dropWhile isspace = [] := by
    rw [(stretch key_only (start_gap gap_only)).2]
    exact List.dropWhile_eq_nil_iff.mpr gap_only
  have hvalue := starts.eq.2.1
  simp only [hword, hline] at hvalue
  obtain ⟨c, hc, -⟩ := starts.value_start
  rw [hvalue] at hc
  cases hc

/-- There are no calls once the reading has stopped. -/
theorem calls_stopped (h : r.stopped = true) :
    Run.Always (Reading.step stack text) (CallInside text) r := by
  intro n going
  rw [iterate_stopped h, h] at going
  cases going

/-- A call that finds no pair has left the buffer. -/
theorem not_stays (hle : r.offset ≤ text.length) (going : r.stopped = false)
    (h : ∀ pair, getConfigPair text r.offset ≠ .ok pair) :
    ¬ CallInside text r := by
  intro stays
  obtain ⟨result, hresult⟩ := Option.isSome_iff_exists.mp (stays going)
  obtain ⟨heq, pair, hpair, -⟩ := guarded_some hle hresult
  exact h pair (heq.trans hpair)

/-- A call that finds a pair stays in the buffer if something follows the pair. -/
theorem stays_iff {pair : ConfigPair} (hle : r.offset ≤ text.length)
    (h : getConfigPair text r.offset = .ok pair) :
    (Guarded.getConfigPair text r.offset).isSome = true ↔ text.drop pair.valueEnd ≠ [] := by
  rw [ne_eq, List.drop_eq_nil_iff, Nat.not_le]
  constructor
  · intro stays
    obtain ⟨result, hresult⟩ := Option.isSome_iff_exists.mp stays
    obtain ⟨heq, pair', rfl, hlt⟩ := guarded_some hle hresult
    rw [h] at heq
    cases heq
    exact hlt
  · intro hlt
    rw [guarded_ok hle h hlt]
    rfl

/-- Behind a pair there has to be something, and the calls go on at its end. -/
theorem stays_pair {pair : ConfigPair} {key gap value rest : Bytes}
    (hle : r.offset ≤ text.length) (going : r.stopped = false)
    (hresult : getConfigPair text r.offset = .ok pair)
    (cut : Cut text (text.drop r.offset) pair key gap value rest) :
    Run.Always (Reading.step stack text) (CallInside text) r ↔
      rest ≠ [] ∧ Run.Always (Reading.step stack text) (CallInside text) (r.step stack text) := by
  have hstays := stays_iff hle hresult
  rw [cut.rest_eq] at hstays
  rw [Run.Always.iff_cons, ← hstays]
  exact and_congr_left fun _ => ⟨fun h => h going, fun h _ => h⟩

/-- The calls from some offset on stay in the buffer if and only if a value is refused on the way
and there is a line break behind it. -/
theorem stays_from (stack : Bytes → UInt64) (text : Bytes) (r : Reading)
    (going : r.stopped = false) (hle : r.offset ≤ text.length) :
    Run.Always (Reading.step stack text) (CallInside text) r ↔
      Refuses stack (text.drop r.offset) := by
  induction hlength : text.length - r.offset using Nat.strong_induction_on generalizing r with
  | _ m ih =>
      have hpaired := paired text hle
      cases hresult : getConfigPair text r.offset with
      | finished =>
          rw [hresult] at hpaired
          cases hpaired with
          | finished space =>
              refine iff_of_false (fun always => ?_) (not_refuses_space space)
              exact not_stays hle going (fun pair h => by cases hresult.symm.trans h) always.head
      | invalid =>
          rw [hresult] at hpaired
          cases hpaired with
          | invalid space key gap eq space_only key_only key_ne gap_only =>
              rw [eq]
              refine iff_of_false (fun always => ?_)
                (not_refuses_word space_only key_only key_ne gap_only)
              exact not_stays hle going (fun pair h => by cases hresult.symm.trans h) always.head
      | ok pair =>
          rw [hresult] at hpaired
          cases hpaired with
          | ok pair key gap value rest cut =>
              have hstep := step_pair stack going hresult cut
              rw [stays_pair hle going hresult cut, refuses_iff (Starts.of_cut cut)]
              cases happly : applyPair stack r.cfg key value with
              | none =>
                  have hinvalid := (applyPair_eq_none stack r.cfg key value).mp happly
                  rw [happly] at hstep
                  have hstopped : (r.step stack text).stopped = true := by rw [hstep]
                  rw [and_iff_left (calls_stopped hstopped)]
                  exact ⟨fun hne => Or.inl ⟨hne, hinvalid⟩,
                    fun h => (h.resolve_right fun hvalid => hvalid.1 hinvalid).1⟩
              | some cfg =>
                  have hvalid : ¬ Invalid stack key value := by
                    rw [← applyPair_eq_none stack r.cfg, happly]
                    exact fun hnone => by cases hnone
                  rw [happly] at hstep
                  have hoffset : (r.step stack text).offset = pair.valueEnd := by rw [hstep]
                  have hshorter : text.length - (r.step stack text).offset < m := by
                    rw [hoffset, ← hlength]
                    exact Nat.sub_lt_sub_left (Nat.lt_of_lt_of_le (cut.lt hle) cut.bound)
                      (cut.lt hle)
                  have hnext := ih _ hshorter (r.step stack text) (by rw [hstep]; exact going)
                    (by rw [hoffset]; exact cut.bound) rfl
                  rw [hoffset, cut.rest_eq] at hnext
                  rw [hnext]
                  constructor
                  · intro h
                    exact Or.inr ⟨hvalid, h.2⟩
                  · intro h
                    have hrefuses := (h.resolve_left fun h => hvalid h.2).2
                    obtain ⟨_, _, _, starts⟩ := hrefuses.starts
                    exact ⟨starts.ne, hrefuses⟩

/-- The calls of `reload_config` stay in the buffer if and only if it ends with a refused value
that has a line break behind it. -/
theorem scansInside_iff (stack : Bytes → UInt64) (text : Bytes) (cfg : ConfigAll) :
    ScansInside stack text cfg ↔ Refuses stack text :=
  stays_from stack text ⟨0, cfg, false⟩ rfl (Nat.zero_le _)

/-- The byte behind the last line break is read. -/
theorem not_scansInside_port : ¬ ∀ (stack : Bytes → UInt64) (text : Bytes) (cfg : ConfigAll),
    ScansInside stack text cfg := by
  intro h
  have hsecond := h (fun _ => 0) (text "port 25\n") ⟨fun _ => none⟩ 1
  revert hsecond
  decide

/-- A call moves the offset past a pair or ends the reading, and so the text is read to an end. -/
theorem scan_progress (buffer : Bytes) :
    (∀ offset, offset ≤ buffer.length → Progress buffer offset (getConfigPair buffer offset)) ∧
      ∀ (stack : Bytes → UInt64) (cfg : ConfigAll),
        ∃ n, ((Reading.step stack buffer)^[n] ⟨0, cfg, false⟩).stopped = true := by
  refine ⟨fun offset hle => ?_, fun stack cfg => ⟨_, reload_stopped stack buffer cfg⟩⟩
  cases hresult : getConfigPair buffer offset with
  | finished => exact .finished
  | invalid => exact .invalid
  | ok pair => exact .ok pair (located hle hresult)

end Calls

end Ervan.Main
