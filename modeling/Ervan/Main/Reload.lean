import Ervan.Common.Config
import Ervan.Common.ConfigPair
import Ervan.Library.Run
import Ervan.Main.Exchange
import Mathlib.Data.List.Induction

/-!
# Reading the config

`reload_config` reads pairs until the text ends, a pair is incomplete or a value is invalid.
Since the scan takes line breaks for white space, a line with a single word takes the next line
with text in it for its value, also when it is a comment. Without such lines the settings are
those of the lines, one after another.
-/

namespace Ervan.Main

/-- `'#'`. -/
def comment (key : Bytes) : Bool := key.head? == some 35

/-- What `reload_config` does with a pair. No result ends the reading. `stack` is what an
uninitialised `value` was. -/
def applyPair (stack : Bytes → UInt64) (cfg : ConfigAll) (key value : Bytes) : Option ConfigAll :=
  if comment key then some cfg
  else if ! cfg.existsKey key then some cfg
  else cfg.setByKey stack key value

/-- The loop of `reload_config`. -/
structure Reading where
  offset : Nat
  cfg : ConfigAll
  stopped : Bool

namespace Reading

/-- One turn of the loop over the text. -/
def step (stack : Bytes → UInt64) (buffer : Bytes) (r : Reading) : Reading :=
  if r.stopped then r
  else
    match getConfigPair buffer r.offset with
    | .finished => { r with stopped := true }
    | .invalid => { r with stopped := true }
    | .ok pair =>
        match applyPair stack r.cfg (between buffer pair.keyStart pair.keyEnd)
          (between buffer pair.valueStart pair.valueEnd) with
        | none => { r with offset := pair.valueEnd, stopped := true }
        | some cfg => { r with offset := pair.valueEnd, cfg := cfg }

/-- The pair that is read next, if any, lies within one line. -/
def Within (buffer : Bytes) (r : Reading) : Prop :=
  r.stopped = false → ∀ pair, getConfigPair buffer r.offset = .ok pair →
    Only (! newline ·) (between buffer pair.keyStart pair.valueEnd)

end Reading

/-- `reload_config` on the bytes of the file. Every turn moves the offset. -/
def reload (stack : Bytes → UInt64) (buffer : Bytes) (cfg : ConfigAll) : Reading :=
  (Reading.step stack buffer)^[buffer.length + 1] ⟨0, cfg, false⟩

/-- What a line says. -/
inductive Content
  | blank
  | word (key : Bytes)
  | pair (key value : Bytes)
  deriving DecidableEq, Repr

/-- The lines of a text, without the line breaks. -/
def splitLines : Bytes → List Bytes
  | [] => [[]]
  | c :: bs =>
      if newline c then [] :: splitLines bs
      else
        match splitLines bs with
        | [] => [[c]]
        | line :: lines => (c :: line) :: lines

/-- A line by itself: blank, a single word, or a key and a value. -/
def content (line : Bytes) : Content :=
  let line := line.dropWhile isspace
  let value := (line.dropWhile (! isspace ·)).dropWhile isspace
  if line = [] then .blank
  else if value = [] then .word (line.takeWhile (! isspace ·))
  else .pair (line.takeWhile (! isspace ·)) value

/-- What the lines with text in them say. -/
def contents (text : Bytes) : List Content :=
  ((splitLines text).map content).filter (· ≠ .blank)

/-- The settings line by line. A comment is skipped, and a line that cannot be applied ends the
reading. -/
def applyLines (stack : Bytes → UInt64) : List Content → ConfigAll → ConfigAll
  | [], cfg => cfg
  | .blank :: lines, cfg => applyLines stack lines cfg
  | .word key :: lines, cfg => if comment key then applyLines stack lines cfg else cfg
  | .pair key value :: lines, cfg =>
      match applyPair stack cfg key value with
      | none => cfg
      | some cfg => applyLines stack lines cfg

/-- The value ends the reading. -/
def Invalid (stack : Bytes → UInt64) (key value : Bytes) : Prop :=
  applyPair stack ⟨fun _ => none⟩ key value = none

/-- A line with a single word is the last one that is read. -/
def Separate (stack : Bytes → UInt64) : List Content → Prop
  | [] => True
  | .blank :: lines => Separate stack lines
  | .word _ :: lines => lines = []
  | .pair key value :: lines => Invalid stack key value ∨ Separate stack lines

/-- `line` is a whole line of `text`, with its line break unless it is the last one. -/
structure WholeLine (text before line after : Bytes) : Prop where
  eq : text = before ++ line ++ after
  start : ∀ c ∈ before.getLast?, newline c = true
  ends : ∃ bs lineBreak, line = bs ++ lineBreak ∧ Only (! newline ·) bs ∧
    (lineBreak ∈ [[cr], [lf], [cr, lf]] ∨ lineBreak = [] ∧ after = [])

/-- The first byte of the line that is not white space is `'#'`. -/
def Comment (line : Bytes) : Prop := comment (line.dropWhile isspace) = true

/-- Comments are inert, the settings are those of the lines, and no pair is read across lines. -/
structure Independent (stack : Bytes → UInt64) (text : Bytes) (cfg : ConfigAll) : Prop where
  inert : ∀ before line after, WholeLine text before line after → Comment line →
    (reload stack (before ++ after) cfg).cfg = (reload stack text cfg).cfg
  byLine : (reload stack text cfg).cfg = applyLines stack (contents text) cfg
  within : Run.Always (Reading.step stack text) (Reading.Within text) ⟨0, cfg, false⟩

section Lines

variable {bs bs' : Bytes}

theorem splitLines_ne (bs : Bytes) : splitLines bs ≠ [] := by
  cases bs with
  | nil => exact List.cons_ne_nil _ _
  | cons c bs =>
      rw [splitLines]
      split
      · exact List.cons_ne_nil _ _
      · split <;> exact List.cons_ne_nil _ _

/-- A line break ends a line. -/
theorem splitLines_break {c : UInt8} (hc : newline c = true) (bs bs' : Bytes) :
    splitLines (bs ++ c :: bs') = splitLines bs ++ splitLines bs' := by
  induction bs with
  | nil =>
      change splitLines (c :: bs') = [] :: splitLines bs'
      rw [splitLines, if_pos hc]
  | cons b bs ih =>
      rw [List.cons_append, splitLines, splitLines, ih]
      by_cases hb : newline b = true
      · rw [if_pos hb, if_pos hb, List.cons_append]
      · rw [if_neg hb, if_neg hb]
        obtain ⟨line, lines, hlines⟩ := List.exists_cons_of_ne_nil (splitLines_ne bs)
        rw [hlines]
        rfl

/-- Without a line break there is one line. -/
theorem splitLines_line (h : Only (! newline ·) bs) : splitLines bs = [bs] := by
  induction bs with
  | nil => rfl
  | cons c bs ih =>
      have hc : newline c = false := by simpa using h c List.mem_cons_self
      rw [splitLines, if_neg (by simp [hc]), ih fun b hb => h b (List.mem_cons_of_mem c hb)]

theorem contents_break {c : UInt8} (hc : newline c = true) (bs bs' : Bytes) :
    contents (bs ++ c :: bs') = contents bs ++ contents bs' := by
  rw [contents, splitLines_break hc, List.map_append, List.filter_append]
  rfl

theorem contents_line (h : Only (! newline ·) bs) :
    contents bs = if content bs = .blank then [] else [content bs] := by
  rw [contents, splitLines_line h]
  by_cases hblank : content bs = .blank <;> simp [hblank]

theorem content_space {c : UInt8} (hc : isspace c = true) (line : Bytes) :
    content (c :: line) = content line := by
  rw [content, content, List.dropWhile_cons_of_pos hc]

/-- White space before the text, with or without line breaks, says nothing. -/
theorem contents_space (h : Only isspace bs) (bs' : Bytes) : contents (bs ++ bs') = contents bs' := by
  induction bs with
  | nil => rfl
  | cons c bs ih =>
      have ih := ih fun b hb => h b (List.mem_cons_of_mem c hb)
      rw [← ih, List.cons_append]
      by_cases hc : newline c = true
      · rw [← List.nil_append (c :: (bs ++ bs')), contents_break hc]
        rfl
      · obtain ⟨line, lines, hlines⟩ := List.exists_cons_of_ne_nil (splitLines_ne (bs ++ bs'))
        rw [contents, contents, splitLines, if_neg hc, hlines]
        simp only [List.map_cons, content_space (h c List.mem_cons_self)]

variable {key gap value rest : Bytes}

/-- Where a stretch ends. -/
theorem stretch {p : UInt8 → Bool} (h : Only p bs) (stop : ∀ c ∈ bs'.head?, p c = false) :
    (bs ++ bs').takeWhile p = bs ∧ (bs ++ bs').dropWhile p = bs' := by
  have hstop : bs'.takeWhile p = [] ∧ bs'.dropWhile p = bs' := by
    cases bs' with
    | nil => exact ⟨rfl, rfl⟩
    | cons c bs' =>
        have hc : ¬ p c = true := Bool.eq_false_iff.mp (stop c rfl)
        exact ⟨List.takeWhile_cons_of_neg hc, List.dropWhile_cons_of_neg hc⟩
  rw [List.takeWhile_append_of_pos h, List.dropWhile_append_of_pos h, hstop.1, hstop.2,
    List.append_nil]
  exact ⟨rfl, rfl⟩

theorem start_key (key_only : Only (! isspace ·) key) (key_ne : key ≠ []) (bs : Bytes) :
    (key ++ bs).dropWhile isspace = key ++ bs := by
  obtain ⟨c, key', rfl⟩ := List.exists_cons_of_ne_nil key_ne
  have hc : isspace c = false := by simpa using key_only c List.mem_cons_self
  rw [List.cons_append, List.dropWhile_cons_of_neg (by simp [hc])]

theorem start_gap (gap_only : Only isspace gap) : ∀ c ∈ gap.head?, (! isspace c) = false := by
  intro c hc
  rw [gap_only c (List.mem_of_mem_head? hc)]
  rfl

/-- A key with nothing but white space behind it. -/
theorem content_word (key_only : Only (! isspace ·) key) (key_ne : key ≠ [])
    (gap_only : Only isspace gap) : content (key ++ gap) = .word key := by
  obtain ⟨htake, hdrop⟩ := stretch key_only (start_gap gap_only)
  have hgap : gap.dropWhile isspace = [] := List.dropWhile_eq_nil_iff.mpr gap_only
  simp only [content, start_key key_only key_ne, htake, hdrop, hgap]
  rw [if_neg (by simp [key_ne]), if_pos trivial]

/-- A key and a value. -/
theorem content_pair (key_only : Only (! isspace ·) key) (key_ne : key ≠ [])
    (gap_only : Only isspace gap) (gap_ne : gap ≠ [])
    (value_start : ∃ c ∈ value.head?, isspace c = false) :
    content (key ++ gap ++ value) = .pair key value := by
  obtain ⟨c, hc, hspace⟩ := value_start
  have hgap (c' : UInt8) (hc' : c' ∈ (gap ++ value).head?) : (! isspace c') = false := by
    obtain ⟨b, gap', rfl⟩ := List.exists_cons_of_ne_nil gap_ne
    cases hc'
    exact start_gap gap_only c' rfl
  have hvalue (c' : UInt8) (hc' : c' ∈ value.head?) : isspace c' = false := by
    rw [Option.mem_unique hc' hc]
    exact hspace
  obtain ⟨htake, hdrop⟩ := stretch key_only hgap
  obtain ⟨-, hdrop'⟩ := stretch gap_only hvalue
  have hne : value ≠ [] := by
    rintro rfl
    cases hc
  rw [List.append_assoc]
  simp only [content, start_key key_only key_ne, htake, hdrop, hdrop']
  rw [if_neg (by simp [key_ne]), if_neg hne]

theorem no_break {p : UInt8 → Bool} (h : ∀ c, newline c = true → p c = false) (only : Only p bs) :
    Only (! newline ·) bs := by
  intro c hc
  by_contra hnewline
  have hbreak : newline c = true := by simpa using hnewline
  have hp := only c hc
  rw [h c hbreak] at hp
  cases hp

theorem key_line (key_only : Only (! isspace ·) key) : Only (! newline ·) key :=
  no_break (fun c hc => by rw [isspace_of_newline hc]; rfl) key_only

theorem only_append {p : UInt8 → Bool} (h : Only p bs) (h' : Only p bs') : Only p (bs ++ bs') := by
  intro c hc
  exact (List.mem_append.mp hc).elim (h c) (h' c)

/-- A key whose line ends in the gap. -/
theorem contents_word (key_only : Only (! isspace ·) key) (key_ne : key ≠ [])
    (gap_only : Only isspace gap) (broken : ¬ Only (! newline ·) gap) (bs : Bytes) :
    contents (key ++ gap ++ bs) = .word key :: contents bs := by
  have hsplit : gap.takeWhile (! newline ·) ++ gap.dropWhile (! newline ·) = gap :=
    List.takeWhile_append_dropWhile
  cases hrest : gap.dropWhile (! newline ·) with
  | nil => exact absurd (List.dropWhile_eq_nil_iff.mp hrest) broken
  | cons c gap' =>
      have hc : newline c = true := by
        have hnot := head?_dropWhile (! newline ·) gap c (by rw [hrest]; rfl)
        simpa using hnot
      rw [hrest] at hsplit
      have hfirst : Only isspace (gap.takeWhile (! newline ·)) := by
        intro b hb
        exact gap_only b ((List.takeWhile_prefix _).subset hb)
      have hlast : Only isspace gap' := by
        intro b hb
        apply gap_only b
        rw [← hsplit]
        simp [hb]
      have heq : key ++ gap ++ bs =
          (key ++ gap.takeWhile (! newline ·)) ++ c :: (gap' ++ bs) := by
        conv_lhs => rw [← hsplit]
        simp
      have hline := only_append (key_line key_only) (only_takeWhile (! newline ·) gap)
      rw [heq, contents_break hc, contents_space hlast, contents_line hline,
        content_word key_only key_ne hfirst]
      rfl

/-- A key that the text ends after. -/
theorem contents_word_end (key_only : Only (! isspace ·) key) (key_ne : key ≠ [])
    (gap_only : Only isspace gap) : contents (key ++ gap) = [.word key] := by
  by_cases hbroken : Only (! newline ·) gap
  · rw [contents_line (only_append (key_line key_only) hbroken),
      content_word key_only key_ne gap_only]
    rfl
  · have hword := contents_word key_only key_ne gap_only hbroken []
    rwa [List.append_nil] at hword

/-- A pair within a line. -/
theorem contents_pair (key_only : Only (! isspace ·) key) (key_ne : key ≠ [])
    (gap_only : Only isspace gap) (gap_ne : gap ≠ [])
    (value_start : ∃ c ∈ value.head?, isspace c = false)
    (line : Only (! newline ·) (key ++ gap ++ value))
    (rest_start : ∀ c ∈ rest.head?, newline c = true) :
    contents (key ++ gap ++ value ++ rest) = .pair key value :: contents rest := by
  have hfirst : contents (key ++ gap ++ value) = [.pair key value] := by
    rw [contents_line line, content_pair key_only key_ne gap_only gap_ne value_start]
    rfl
  cases rest with
  | nil =>
      rw [List.append_nil, hfirst]
      rfl
  | cons c rest =>
      have hc := rest_start c rfl
      have hrest := contents_break hc [] rest
      rw [List.nil_append] at hrest
      rw [contents_break hc, hfirst, hrest]
      rfl

/-- A line that starts with text says something. -/
theorem contents_ne (value_only : Only (! newline ·) value)
    (value_start : ∃ c ∈ value.head?, isspace c = false)
    (rest_start : ∀ c ∈ rest.head?, newline c = true) : contents (value ++ rest) ≠ [] := by
  obtain ⟨c, hc, hspace⟩ := value_start
  obtain ⟨value', rfl⟩ : ∃ value', value = c :: value' := by
    cases value with
    | nil => cases hc
    | cons b value' =>
        cases hc
        exact ⟨value', rfl⟩
  have htext : content (c :: value') ≠ .blank := by
    rw [content, List.dropWhile_cons_of_neg (by simp [hspace]), if_neg (List.cons_ne_nil c value')]
    split <;> exact fun h => by cases h
  have hfirst : contents (c :: value') = [content (c :: value')] := by
    rw [contents_line value_only, if_neg htext]
  cases rest with
  | nil =>
      rw [List.append_nil, hfirst]
      exact List.cons_ne_nil _ _
  | cons b rest =>
      rw [contents_break (rest_start b rfl), hfirst]
      exact List.cons_ne_nil _ _

end Lines

section Turns

variable {stack : Bytes → UInt64} {text : Bytes} {r : Reading}

/-- Whether a pair ends the reading does not depend on the settings so far. -/
theorem applyPair_eq_none (stack : Bytes → UInt64) (cfg : ConfigAll) (key value : Bytes) :
    applyPair stack cfg key value = none ↔ Invalid stack key value := by
  have hset := Config.setByKey_isSome stack cfg ⟨fun _ => none⟩ key value
  rw [Invalid, applyPair, applyPair]
  split
  · simp
  · change (if ! cfg.existsKey key then some cfg else cfg.setByKey stack key value) = none ↔
      (if ! cfg.existsKey key then _ else _) = none
    split
    · simp
    · rw [← Option.isNone_iff_eq_none, ← Option.isNone_iff_eq_none, ← Option.not_isSome,
        ← Option.not_isSome, hset]

theorem step_stopped (h : r.stopped = true) : r.step stack text = r := if_pos h

theorem iterate_stopped (h : r.stopped = true) (n : Nat) :
    (Reading.step stack text)^[n] r = r := Function.iterate_fixed (step_stopped h) n

theorem always_stopped (h : r.stopped = true) :
    Run.Always (Reading.step stack text) (Reading.Within text) r := by
  intro n hgoing
  rw [iterate_stopped h, h] at hgoing
  cases hgoing

/-- The reading of what is left of the text, by its lines. -/
structure Reads (stack : Bytes → UInt64) (text : Bytes) (r : Reading) : Prop where
  within : Run.Always (Reading.step stack text) (Reading.Within text) r ↔
    Separate stack (contents (text.drop r.offset))
  applies : Separate stack (contents (text.drop r.offset)) →
    ∀ n, text.length - r.offset < n → ((Reading.step stack text)^[n] r).cfg =
      applyLines stack (contents (text.drop r.offset)) r.cfg

/-- A turn that stops the reading, with settings that the lines leave as they are. -/
theorem Reads.stops (within : r.Within text) (stopped : (r.step stack text).stopped = true)
    (kept : (r.step stack text).cfg = r.cfg)
    (separate : Separate stack (contents (text.drop r.offset)))
    (applied : applyLines stack (contents (text.drop r.offset)) r.cfg = r.cfg) :
    Reads stack text r := by
  refine ⟨⟨fun _ => separate, fun _ => Run.Always.cons within (always_stopped stopped)⟩,
    fun _ n hn => ?_⟩
  obtain ⟨n, rfl⟩ : ∃ m, n = m + 1 := ⟨n - 1, by omega⟩
  rw [Function.iterate_succ_apply, iterate_stopped stopped, kept, applied]

/-- A turn that reads a pair within a line. -/
theorem Reads.pair {key value : Bytes} {rest : List Content} (within : r.Within text)
    {cfg : ConfigAll} (happly : applyPair stack r.cfg key value = some cfg)
    (hcontents : contents (text.drop r.offset) = .pair key value :: rest)
    (hnext : contents (text.drop (r.step stack text).offset) = rest)
    (hcfg : (r.step stack text).cfg = cfg)
    (hoffset : text.length - (r.step stack text).offset < text.length - r.offset)
    (h : Reads stack text (r.step stack text)) : Reads stack text r := by
  have hvalid : ¬ Invalid stack key value := by
    rw [← applyPair_eq_none stack r.cfg, happly]
    exact fun hnone => by cases hnone
  have hseparate : Separate stack (contents (text.drop r.offset)) ↔ Separate stack rest := by
    rw [hcontents, Separate, or_iff_right hvalid]
  have hwithin := h.within
  have happlies := h.applies
  rw [hnext] at hwithin happlies
  refine ⟨⟨fun always => hseparate.mpr (hwithin.mp always.tail),
    fun separate => Run.Always.cons within (hwithin.mpr (hseparate.mp separate))⟩,
    fun separate n hn => ?_⟩
  obtain ⟨n, rfl⟩ : ∃ m, n = m + 1 := ⟨n - 1, by omega⟩
  rw [Function.iterate_succ_apply, happlies (hseparate.mp separate) n (by omega), hcfg, hcontents,
    applyLines, happly]

/-- A turn that finds no pair. -/
theorem step_end (stack : Bytes → UInt64) (going : r.stopped = false)
    (h : getConfigPair text r.offset = .finished ∨ getConfigPair text r.offset = .invalid) :
    r.step stack text = { r with stopped := true } := by
  have hstep : r.step stack text = _ := if_neg (by simp [going])
  rcases h with h | h
  · rw [hstep, h]
  · rw [hstep, h]

/-- A turn that finds a pair. -/
theorem step_pair (stack : Bytes → UInt64) {pair : ConfigPair} {key gap value rest : Bytes}
    (going : r.stopped = false) (h : getConfigPair text r.offset = .ok pair)
    (cut : Cut text (text.drop r.offset) pair key gap value rest) :
    r.step stack text = match applyPair stack r.cfg key value with
      | none => { r with offset := pair.valueEnd, stopped := true }
      | some cfg => { r with offset := pair.valueEnd, cfg := cfg } := by
  have hstep : r.step stack text = _ := if_neg (by simp [going])
  rw [hstep, h]
  dsimp only
  rw [cut.key_eq, cut.value_eq]

/-- Without a pair there is nothing that could cross a line. -/
theorem within_end
    (h : getConfigPair text r.offset = .finished ∨ getConfigPair text r.offset = .invalid) :
    r.Within text := by
  intro _ pair hpair
  rcases h with h | h
  · cases h.symm.trans hpair
  · cases h.symm.trans hpair

/-- What is left is white space. -/
theorem Reads.finished (going : r.stopped = false)
    (hresult : getConfigPair text r.offset = .finished)
    (space : Only isspace (text.drop r.offset)) : Reads stack text r := by
  have hstep := step_end stack going (Or.inl hresult)
  have hcontents : contents (text.drop r.offset) = [] := by
    have hnil := contents_space space []
    rwa [List.append_nil] at hnil
  apply Reads.stops (within_end (Or.inl hresult))
  · rw [hstep]
  · rw [hstep]
  · rw [hcontents]
    trivial
  · rw [hcontents, applyLines]

/-- What is left is a single word. -/
theorem Reads.invalid {space key gap : Bytes} (going : r.stopped = false)
    (hresult : getConfigPair text r.offset = .invalid)
    (eq : text.drop r.offset = space ++ key ++ gap) (space_only : Only isspace space)
    (key_only : Only (! isspace ·) key) (key_ne : key ≠ []) (gap_only : Only isspace gap) :
    Reads stack text r := by
  have hstep := step_end stack going (Or.inr hresult)
  have hcontents : contents (text.drop r.offset) = [.word key] := by
    rw [eq, List.append_assoc, contents_space space_only,
      contents_word_end key_only key_ne gap_only]
  apply Reads.stops (within_end (Or.inr hresult))
  · rw [hstep]
  · rw [hstep]
  · rw [hcontents]
    rfl
  · rw [hcontents, applyLines]
    split <;> rfl

/-- A pair within a line, and whatever the reading makes of the rest. -/
theorem Reads.line {pair : ConfigPair} {key gap value rest : Bytes} (going : r.stopped = false)
    (hle : r.offset ≤ text.length) (hresult : getConfigPair text r.offset = .ok pair)
    (cut : Cut text (text.drop r.offset) pair key gap value rest)
    (unbroken : Only (! newline ·) gap)
    (next : ∀ r' : Reading, r'.stopped = false → r'.offset ≤ text.length →
      text.length - r'.offset < text.length - r.offset → Reads stack text r') :
    Reads stack text r := by
  obtain ⟨space, hspace, hsplit⟩ := cut.split
  have hstep := step_pair stack going hresult cut
  have hall := only_append (only_append (key_line cut.key_only) unbroken) cut.value_only
  have hwithin : r.Within text := by
    intro _ pair' hpair'
    cases hresult.symm.trans hpair'
    rw [cut.all_eq]
    exact hall
  have hcontents : contents (text.drop r.offset) =
      .pair key value :: contents (text.drop pair.valueEnd) := by
    rw [hsplit, cut.rest_eq, List.append_assoc, List.append_assoc, List.append_assoc,
      contents_space hspace, ← List.append_assoc, ← List.append_assoc,
      contents_pair cut.key_only cut.key_ne cut.gap_only cut.gap_ne cut.value_start
        hall cut.rest_start]
  cases happly : applyPair stack r.cfg key value with
  | none =>
      rw [happly] at hstep
      apply Reads.stops hwithin
      · rw [hstep]
      · rw [hstep]
      · rw [hcontents]
        exact Or.inl ((applyPair_eq_none stack r.cfg key value).mp happly)
      · rw [hcontents, applyLines, happly]
  | some cfg =>
      rw [happly] at hstep
      have hshorter : text.length - pair.valueEnd < text.length - r.offset :=
        Nat.sub_lt_sub_left (Nat.lt_of_lt_of_le (cut.lt hle) cut.bound) (cut.lt hle)
      have hoffset : (r.step stack text).offset = pair.valueEnd := by rw [hstep]
      have hgoing : (r.step stack text).stopped = false := by
        rw [hstep]
        exact going
      apply Reads.pair hwithin happly hcontents (by rw [hoffset]) (by rw [hstep])
        (by rwa [hoffset])
      apply next _ hgoing
      · rw [hoffset]
        exact cut.bound
      · rw [hoffset]
        exact hshorter

/-- A pair across a line break takes text of another line, and then the lines are not separate. -/
theorem Reads.across {pair : ConfigPair} {key gap value rest : Bytes} (going : r.stopped = false)
    (hresult : getConfigPair text r.offset = .ok pair)
    (cut : Cut text (text.drop r.offset) pair key gap value rest)
    (broken : ¬ Only (! newline ·) gap) : Reads stack text r := by
  obtain ⟨space, hspace, hsplit⟩ := cut.split
  have hcontents : contents (text.drop r.offset) = .word key :: contents (value ++ rest) := by
    rw [hsplit, List.append_assoc, List.append_assoc, List.append_assoc,
      contents_space hspace, ← List.append_assoc,
      contents_word cut.key_only cut.key_ne cut.gap_only broken]
  have hnot : ¬ Separate stack (contents (text.drop r.offset)) := by
    rw [hcontents]
    exact contents_ne cut.value_only cut.value_start cut.rest_start
  refine ⟨⟨?_, fun separate => absurd separate hnot⟩, fun separate => absurd separate hnot⟩
  intro always
  have hall := always.head going pair hresult
  rw [cut.all_eq] at hall
  exact absurd (fun c hc => hall c (by simp [hc])) broken

theorem reads (stack : Bytes → UInt64) (text : Bytes) (r : Reading) (going : r.stopped = false)
    (hle : r.offset ≤ text.length) : Reads stack text r := by
  induction hlength : text.length - r.offset using Nat.strong_induction_on generalizing r with
  | _ m ih =>
      have hpaired := paired text hle
      cases hresult : getConfigPair text r.offset with
      | finished =>
          rw [hresult] at hpaired
          cases hpaired with
          | finished space => exact .finished going hresult space
      | invalid =>
          rw [hresult] at hpaired
          cases hpaired with
          | invalid space key gap eq space_only key_only key_ne gap_only =>
              exact .invalid going hresult eq space_only key_only key_ne gap_only
      | ok pair =>
          rw [hresult] at hpaired
          cases hpaired with
          | ok pair key gap value rest cut =>
              by_cases hline : Only (! newline ·) gap
              · apply Reads.line going hle hresult cut hline
                intro r' going' hle' hshorter
                exact ih _ (hlength ▸ hshorter) r' going' hle' rfl
              · exact .across going hresult cut hline

/-- The text is read to an end. -/
theorem reload_stopped (stack : Bytes → UInt64) (text : Bytes) (cfg : ConfigAll) :
    (reload stack text cfg).stopped = true := by
  have hturns (n : Nat) : ((Reading.step stack text)^[n] ⟨0, cfg, false⟩).stopped = true ∨
      n ≤ ((Reading.step stack text)^[n] ⟨0, cfg, false⟩).offset ∧
        ((Reading.step stack text)^[n] ⟨0, cfg, false⟩).offset ≤ text.length := by
    induction n with
    | zero => exact Or.inr ⟨Nat.zero_le _, Nat.zero_le _⟩
    | succ n ih =>
        rw [Function.iterate_succ_apply']
        generalize (Reading.step stack text)^[n] ⟨0, cfg, false⟩ = r at ih ⊢
        cases going : r.stopped with
        | true =>
            rw [step_stopped going]
            exact Or.inl going
        | false =>
            rw [going] at ih
            obtain ⟨hn, hle⟩ := ih.resolve_left fun h => by cases h
            have hpaired := paired text hle
            cases hresult : getConfigPair text r.offset with
            | finished => exact Or.inl (by rw [step_end stack going (Or.inl hresult)])
            | invalid => exact Or.inl (by rw [step_end stack going (Or.inr hresult)])
            | ok pair =>
                rw [hresult] at hpaired
                cases hpaired with
                | ok pair key gap value rest cut =>
                    have hstep := step_pair stack going hresult cut
                    split at hstep
                    · exact Or.inl (by rw [hstep])
                    · refine Or.inr ?_
                      rw [hstep]
                      exact ⟨Nat.lt_of_le_of_lt hn (cut.lt hle), cut.bound⟩
  rcases hturns (text.length + 1) with h | ⟨hn, hle⟩
  · exact h
  · omega

end Turns

section Comments

variable {stack : Bytes → UInt64} {text before line after : Bytes}

/-- A text that ends with a line break is followed by other lines. -/
theorem contents_append (h : ∀ c ∈ before.getLast?, newline c = true) (after : Bytes) :
    contents (before ++ after) = contents before ++ contents after := by
  induction before using List.reverseRecOn with
  | nil => rfl
  | append_singleton bs c =>
      have hc : newline c = true := h c (by rw [List.getLast?_concat]; rfl)
      have hbs := contents_break hc bs []
      rw [List.append_assoc, List.singleton_append, contents_break hc, hbs]
      simp [contents, splitLines, content]

/-- The content of a comment. -/
def Content.IsComment (k : Content) : Prop :=
  ∃ key, comment key = true ∧ (k = .word key ∨ ∃ value, k = .pair key value)

theorem isComment_content (h : Comment line) : (content line).IsComment := by
  unfold Comment at h
  unfold content
  generalize line.dropWhile isspace = bs at h
  cases bs with
  | nil => cases h
  | cons c bs =>
      have hc : c = 35 := by simpa [comment] using h
      subst hc
      dsimp only
      rw [if_neg (List.cons_ne_nil _ _), List.takeWhile_cons_of_pos (by decide)]
      split
      · exact ⟨_, rfl, Or.inl rfl⟩
      · exact ⟨_, rfl, Or.inr ⟨_, rfl⟩⟩

theorem comment_append {bs lineBreak : Bytes} (hspace : Only isspace lineBreak)
    (h : Comment (bs ++ lineBreak)) : Comment bs := by
  unfold Comment at h ⊢
  rw [List.dropWhile_append, List.dropWhile_eq_nil_iff.mpr hspace] at h
  cases hbs : bs.dropWhile isspace with
  | nil =>
      rw [hbs] at h
      cases h
  | cons c bs' =>
      rw [hbs] at h
      exact h

theorem space_of_break {lineBreak : Bytes} (h : lineBreak ∈ [[cr], [lf], [cr, lf]]) :
    ∃ c bs, lineBreak = c :: bs ∧ newline c = true ∧ Only isspace bs := by
  simp only [List.mem_cons, List.not_mem_nil, or_false] at h
  rcases h with rfl | rfl | rfl
  · exact ⟨cr, [], rfl, rfl, fun c hc => absurd hc List.not_mem_nil⟩
  · exact ⟨lf, [], rfl, rfl, fun c hc => absurd hc List.not_mem_nil⟩
  · refine ⟨cr, [lf], rfl, rfl, fun c hc => ?_⟩
    rw [List.mem_singleton.mp hc]
    rfl

theorem only_cons {p : UInt8 → Bool} {c : UInt8} {bs : Bytes} (hc : p c = true) (h : Only p bs) :
    Only p (c :: bs) := by
  intro b hb
  rcases List.mem_cons.mp hb with rfl | hb
  · exact hc
  · exact h b hb

theorem contents_comment {bs : Bytes} (hline : Only (! newline ·) bs)
    (h : (content bs).IsComment) : contents bs = [content bs] := by
  have hsome : content bs ≠ .blank := by
    obtain ⟨key, -, hk | ⟨value, hk⟩⟩ := h <;> rw [hk] <;> exact fun hblank => by cases hblank
  rw [contents_line hline, if_neg hsome]

/-- A comment adds one line to what the text says. -/
theorem WholeLine.contents_eq (h : WholeLine text before line after) (hcomment : Comment line) :
    ∃ k, k.IsComment ∧ contents text = contents before ++ k :: contents after := by
  obtain ⟨bs, lineBreak, rfl, hline, hbreak⟩ := h.ends
  rw [h.eq, List.append_assoc, contents_append h.start]
  rcases hbreak with hbreak | ⟨rfl, rfl⟩
  · obtain ⟨c, space, rfl, hc, hspace⟩ := space_of_break hbreak
    have hk := isComment_content
      (comment_append (only_cons (isspace_of_newline hc) hspace) hcomment)
    refine ⟨content bs, hk, ?_⟩
    rw [List.append_assoc, List.cons_append, contents_break hc, contents_space hspace,
      contents_comment hline hk]
    rfl
  · rw [List.append_nil] at hcomment ⊢
    have hk := isComment_content hcomment
    refine ⟨content bs, hk, ?_⟩
    rw [List.append_nil, contents_comment hline hk]
    rfl

/-- A comment can be left out. -/
theorem separate_comment {k : Content} (hk : k.IsComment) (lines lines' : List Content)
    (h : Separate stack (lines ++ k :: lines')) :
    Separate stack (lines ++ lines') ∧ ∀ cfg,
      applyLines stack (lines ++ k :: lines') cfg = applyLines stack (lines ++ lines') cfg := by
  induction lines with
  | nil =>
      obtain ⟨key, hkey, rfl | ⟨value, rfl⟩⟩ := hk
      · refine ⟨?_, fun cfg => ?_⟩
        · rw [show lines' = [] from h]
          trivial
        · exact if_pos hkey
      · have hvalid (cfg : ConfigAll) : applyPair stack cfg key value = some cfg := if_pos hkey
        refine ⟨h.resolve_left fun hinvalid => ?_, fun cfg => ?_⟩
        · rw [Invalid, hvalid] at hinvalid
          cases hinvalid
        · rw [List.nil_append, applyLines, hvalid]
          rfl
  | cons l lines ih =>
      cases l with
      | blank => exact ih h
      | word key => exact absurd h (List.append_ne_nil_of_right_ne_nil _ (List.cons_ne_nil _ _))
      | pair key value =>
          by_cases hinvalid : Invalid stack key value
          · refine ⟨Or.inl hinvalid, fun cfg => ?_⟩
            have hnone := (applyPair_eq_none stack cfg key value).mpr hinvalid
            rw [List.cons_append, List.cons_append, applyLines, applyLines, hnone]
          · obtain ⟨hseparate, happlies⟩ := ih (h.resolve_left hinvalid)
            refine ⟨Or.inr hseparate, fun cfg => ?_⟩
            rw [List.cons_append, List.cons_append, applyLines, applyLines]
            cases applyPair stack cfg key value with
            | none => rfl
            | some cfg => exact happlies cfg

/-- Every line of a config counts for itself, and its comments are inert, if and only if no line
with a single word, before the first one with an invalid value, is followed by a line with text
in it. -/
theorem config_lines (stack : Bytes → UInt64) (text : Bytes) (cfg : ConfigAll) :
    Independent stack text cfg ↔ Separate stack (contents text) := by
  have hreads (text : Bytes) := reads stack text ⟨0, cfg, false⟩ rfl (Nat.zero_le _)
  have hwithin := (hreads text).within
  constructor
  · intro independent
    exact hwithin.mp independent.within
  · intro separate
    have happlies (text : Bytes) (separate : Separate stack (contents text)) :
        (reload stack text cfg).cfg = applyLines stack (contents text) cfg :=
      (hreads text).applies separate _ (Nat.lt_succ_self _)
    refine ⟨fun before line after whole hcomment => ?_, happlies text separate,
      hwithin.mpr separate⟩
    obtain ⟨k, hk, hcontents⟩ := whole.contents_eq hcomment
    rw [hcontents] at separate
    obtain ⟨hseparate, heq⟩ := separate_comment hk _ _ separate
    rw [← contents_append whole.start] at hseparate
    rw [happlies _ hseparate, happlies text (hcontents ▸ separate), hcontents, heq,
      contents_append whole.start]

/-- A comment of one word takes the next line with it. -/
theorem not_config_lines_word :
    ¬ ∀ (stack : Bytes → UInt64) (text : Bytes) (cfg : ConfigAll), Independent stack text cfg := by
  intro h
  have hline : WholeLine (text "#\nhostname a") [] (text "#\n") (text "hostname a") :=
    ⟨rfl, (fun c hc => by cases hc), text "#", [lf], rfl, (fun c hc => by
      rw [List.mem_singleton.mp hc]
      rfl), Or.inl (by decide)⟩
  have hinert := (h (fun _ => 0) (text "#\nhostname a") ⟨fun _ => none⟩).inert _ _ _ hline rfl
  have hhostname := congrArg (fun cfg => cfg.value .hostname) hinert
  revert hhostname
  decide

end Comments

end Ervan.Main
