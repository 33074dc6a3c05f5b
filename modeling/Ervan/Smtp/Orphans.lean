import Ervan.Common.Filename
import Ervan.Smtp.Chunking
import Ervan.Smtp.DataPhase

/-!
# The spool directory

Which files a session has left under `./ingoing`, and which of them belong to messages that
it has answered with 250. They are the same files outside the data phase, as long as no file
is given up after it has been created and every removal succeeds. A session whose connection
ends in the data phase leaves a file behind.
-/

namespace Ervan.Smtp

/-- The path of the file that DATA creates. -/
def spoolPath (a : Answer) : Bytes := cString (text "./ingoing/" ++ a.filename ++ text ".tar")

/-- The names that the environment gives come from `get_unique_filename`, whose counter
does not repeat. -/
def Named (env : Env) : Prop :=
  ∃ (pid : Nat) (time counter rand : Nat → Nat), Function.Injective counter ∧
    ∀ n, (env n).filename = getUniqueFilename (text "msg") pid (time n) (counter n) (rand n)

/-- No two files of a session have the same path. -/
theorem Named.spoolPath_injective {env : Env} (h : Named env) {n m : Nat}
    (heq : spoolPath (env n) = spoolPath (env m)) : n = m := by
  obtain ⟨pid, time, counter, rand, hcounter, hname⟩ := h
  have hpath (n : Nat) : spoolPath (env n) =
      text "./ingoing/" ++ (env n).filename ++ text ".tar" := by
    apply List.takeWhile_eq_self_iff.mpr
    have hnul := nul_notMem_getUniqueFilename (show nul ∉ text "msg" by decide) pid (time n)
      (counter n) (rand n)
    rw [← hname] at hnul
    intro c hc
    rw [bne_iff_ne]
    rintro rfl
    simp only [List.mem_append] at hc
    rcases hc with (hc | hc) | hc
    · exact absurd hc (by decide)
    · exact hnul hc
    · exact absurd hc (by decide)
  rw [hpath, hpath, List.append_assoc, List.append_assoc] at heq
  have hnames := List.append_cancel_right (List.append_cancel_left heq)
  rw [hname, hname] at hnames
  exact hcounter (getUniqueFilename_counter hnames)

/-- The spool directory and the messages, as far as a log goes. -/
structure Ledger where
  /-- The number of events so far. -/
  size : Nat := 0
  /-- The files of the session that exist. -/
  files : List Bytes := []
  /-- The file that has been created since the last command line. -/
  current : Option Bytes := none
  /-- The files of the messages that have been answered with 250. -/
  answered : List Bytes := []

namespace Ledger

/-- One more event. Whether an `unlink` removes its file is given by its place in the log. -/
def record (removed : Nat → Bool) (l : Ledger) : Event → Ledger
  | .line _ => { l with size := l.size + 1, current := none }
  | .open_ path true =>
      { l with size := l.size + 1, files := l.files.insert path, current := some path }
  | .open_ _ false => { l with size := l.size + 1, current := none }
  | .unlink path =>
      { l with
        size := l.size + 1
        files := if removed l.size then l.files.filter (· ≠ path) else l.files }
  | .reply r =>
      { l with
        size := l.size + 1
        answered := if r.code = 250 then l.answered ++ l.current.toList else l.answered }
  | _ => { l with size := l.size + 1 }

end Ledger

def ledger (removed : Nat → Bool) (log : List Event) : Ledger := log.foldl (Ledger.record removed) {}

/-- The files that exist are those of the messages answered with 250. -/
def NoOrphans (l : Ledger) : Prop := ∀ path, path ∈ l.files ↔ path ∈ l.answered

section Ledgers

variable {removed : Nat → Bool} {log es : List Event} {e : Event}

theorem ledger_append (log es : List Event) :
    ledger removed (log ++ es) = es.foldl (Ledger.record removed) (ledger removed log) :=
  List.foldl_append

theorem ledger_size (removed : Nat → Bool) (log : List Event) : (ledger removed log).size = log.length := by
  induction log using List.reverseRecOn with
  | nil => rfl
  | append_singleton log e ih =>
      rw [ledger_append, List.length_append, ← ih]
      cases e with
      | open_ path ok => cases ok <;> rfl
      | _ => rfl

/-- Operations on the open file are not seen in the directory. -/
theorem ledger_isFile (removed : Nat → Bool) (log : List Event) (h : ∀ e ∈ es, e.isFile = true) :
    ledger removed (log ++ es) =
      { ledger removed log with size := (ledger removed log).size + es.length } := by
  rw [ledger_append]
  generalize ledger removed log = l
  induction es generalizing l with
  | nil => rfl
  | cons e es ih =>
      have hfirst : l.record removed e = { l with size := l.size + 1 } := by
        have hfile := h e List.mem_cons_self
        cases e <;> first | rfl | cases hfile
      rw [List.foldl_cons, ih fun e he => h e (List.mem_cons_of_mem _ he), hfirst]
      simp only [List.length_cons, Nat.add_assoc, Nat.add_comm 1]

end Ledgers

namespace Core

variable {env : Env} {c c' : Core}

theorem openFiles_path (env : Env) (c : Core) :
    (c.openFiles env).1.dataPath = spoolPath (c.answer env) ∧
      ∃ es, (c.openFiles env).1.log =
          c.log ++ Event.open_ (spoolPath (c.answer env)) (c.answer env).opened :: es ∧
        ∀ e ∈ es, e.isFile = true := by
  have hpath : spoolPath (c.answer env) =
      cString (text "./ingoing/" ++ (c.answer env).filename ++ text ".tar") := rfl
  by_cases hopened : (c.answer env).opened = true
  · simp only [openFiles, hopened, Bool.not_true, Bool.false_eq_true, if_false, ← hpath]
    have h := writeStart_writes env (c.created (spoolPath (c.answer env)))
    obtain ⟨es, hlog, hfile, -⟩ := h.log
    refine ⟨h.same Core.dataPath fun _ _ _ => rfl, es, hlog.trans ?_, hfile⟩
    simp [created]
  · simp only [openFiles, hopened, Bool.not_false, if_true, ← hpath]
    exact ⟨rfl, [], rfl, by simp⟩

/-- Writes that are all answered with success. -/
theorem writeAll_succeeds {datas : List Bytes} (hfile : c.dataFile.isSome = true)
    (h : ∀ i < datas.length, (env (c.log.length + i)).written = true) :
    (c.writeAll env datas).2 = true := by
  induction datas generalizing c with
  | nil => rfl
  | cons data datas ih =>
      obtain ⟨f, hf⟩ := Option.isSome_iff_exists.mp hfile
      have hwritten : (c.answer env).written = true := h 0 (Nat.zero_lt_succ _)
      have hok : (c.write env data).2 = true := by simp only [write, hf, hwritten, if_true]
      have hlog : (c.write env data).1.log.length = c.log.length + 1 := by
        rw [write_ok hf hok, List.length_append, List.length_singleton]
      simp only [writeAll, hok, Bool.not_true, Bool.false_eq_true, if_false]
      refine ih ((write_writes env data c).file.trans hfile) fun i hi => ?_
      rw [hlog, Nat.add_assoc, Nat.add_comm 1 i]
      exact h (i + 1) (Nat.succ_lt_succ hi)

/-- A file that is created is ready for the message if the header space and all of the trace
information can be written. -/
theorem openFiles_succeeds (hopened : (c.answer env).opened = true)
    (h : ∀ i ≤ (traceInfo (env (c.log.length + 2))).length,
      (env (c.log.length + 1 + i)).written = true) : (c.openFiles env).2 = true := by
  obtain ⟨path, heq⟩ := openFiles_eq env c hopened
  have hlog : (c.created path).log.length = c.log.length + 1 := by simp [created]
  have hspace : ((c.created path).writeHeaderSpace env).2 = true := by
    have hwritten : ((c.created path).answer env).written = true := by
      rw [answer, hlog]
      exact h 0 (Nat.zero_le _)
    simp only [writeHeaderSpace, write, created, answer] at hwritten ⊢
    simp only [hwritten, if_true]
  have hfile : (c.created path).dataFile = some ⟨[], 0⟩ := rfl
  have hfirst := write_ok hfile hspace
  have hlength : ((c.created path).writeHeaderSpace env).1.log.length = c.log.length + 2 := by
    rw [writeHeaderSpace, hfirst, List.length_append, hlog, List.length_singleton]
  rw [heq]
  simp only [hspace, Bool.not_true, Bool.false_eq_true, if_false]
  apply writeAll_succeeds
  · rw [writeHeaderSpace, hfirst]
    rfl
  · intro i hi
    rw [answer, hlength] at hi
    rw [hlength, Nat.add_assoc, Nat.add_comm 2 i, ← Nat.add_assoc]
    have hnext := h (i + 1) hi
    rwa [Nat.add_assoc, ← Nat.add_assoc 1, Nat.add_comm 1 i, Nat.add_assoc i] at hnext

/-- Outside the data phase nothing is left over. In it there is one file more, whose message
has not been answered. All messages have files that were named earlier in the run. -/
structure Kept (env : Env) (removed : Nat → Bool) (c : Core) : Prop where
  outside : c.state ≠ .data → NoOrphans (ledger removed c.log)
  inside : c.state = .data → (ledger removed c.log).current = some c.dataPath ∧
    c.dataPath ∉ (ledger removed c.log).answered ∧
    ∀ path, path ∈ (ledger removed c.log).files ↔
      path ∈ (ledger removed c.log).answered ∨ path = c.dataPath
  named : ∀ path ∈ (ledger removed c.log).answered, ∃ n < c.log.length, path = spoolPath (env n)
  path : c.state = .data → ∃ n < c.log.length, c.dataPath = spoolPath (env n)

variable {removed : Nat → Bool} {c₁ : Core}

/-- An aborted message: its file is removed, and nothing is answered with 250. -/
theorem ledger_abortData (env : Env) (h : Steps env c c₁) (hremoved : removed c₁.log.length = true) :
    (ledger removed (c₁.abortData env).log).files =
        (ledger removed c.log).files.filter (· ≠ c₁.dataPath) ∧
      (ledger removed (c₁.abortData env).log).answered = (ledger removed c.log).answered := by
  obtain ⟨es, hlog, hfile, -⟩ := h.log
  have hledger := ledger_isFile removed c.log hfile
  rw [← hlog] at hledger
  have hfiles : (ledger removed c₁.log).files = (ledger removed c.log).files := by rw [hledger]
  have hanswered : (ledger removed c₁.log).answered = (ledger removed c.log).answered := by
    rw [hledger]
  rw [← ledger_size removed] at hremoved
  rw [abortData_log, ledger_append, ← hfiles, ← hanswered]
  cases hr : c₁.abortReply with
  | none => simp [Ledger.record, hremoved]
  | some r => simp [Ledger.record, hremoved, abortReply_code hr]

/-- A message answered with 250: its file stays. -/
theorem ledger_finishReply (env : Env) (removed : Nat → Bool) (h : Steps env c c₁) :
    (ledger removed ((c₁.syncFile env).1.finishReply env).log).files =
        (ledger removed c.log).files ∧
      (ledger removed ((c₁.syncFile env).1.finishReply env).log).answered =
        (ledger removed c.log).answered ++ (ledger removed c.log).current.toList := by
  obtain ⟨es, hlog, hfile, -⟩ := h.log
  have hledger := ledger_isFile removed c.log hfile
  rw [← hlog] at hledger
  rw [finishReply_eq]
  simp [ledger_append, Ledger.record, hledger, Reply.ok, smtpReply]

/-- Outside the data phase it is enough that the files and the messages have not changed. -/
theorem Kept.same (h : Kept env removed c) (before : c.state ≠ .data) (after : c'.state ≠ .data)
    (longer : c.log.length ≤ c'.log.length)
    (files : (ledger removed c'.log).files = (ledger removed c.log).files)
    (answered : (ledger removed c'.log).answered = (ledger removed c.log).answered) :
    Kept env removed c' := by
  refine ⟨fun _ path => ?_, fun hdata => absurd hdata after, fun path hpath => ?_,
    fun hdata => absurd hdata after⟩
  · rw [files, answered]
    exact h.outside before path
  · rw [answered] at hpath
    obtain ⟨n, hn, rfl⟩ := h.named path hpath
    exact ⟨n, Nat.lt_of_lt_of_le hn longer, rfl⟩

/-- A command line with its reply, and nothing in between. -/
theorem Kept.replied {line : Bytes} {r : Reply} (h : Kept env removed c) (before : c.state ≠ .data)
    (after : c'.state ≠ .data) (log : c'.log = c.log ++ [.line line, .reply r]) :
    Kept env removed c' := by
  refine h.same before after ?_ ?_ ?_
  · rw [log, List.length_append]
    exact Nat.le_add_right _ _
  · rw [log, ledger_append]
    rfl
  · rw [log, ledger_append]
    simp [Ledger.record]

theorem Kept.stored (h : Kept env removed c) (hstate : c.state = .data) (line : Bytes) :
    Kept env removed (c.store env line) := by
  have hsteps := store_steps env line c
  obtain ⟨es, hlog, hfile, -⟩ := hsteps.log
  have hpath := hsteps.same Core.dataPath fun _ _ _ _ => rfl
  rw [measureLine_eq] at hlog hpath
  have hledger := ledger_isFile removed c.log hfile
  rw [← hlog] at hledger
  have hlength : c.log.length ≤ (c.store env line).log.length := by
    rw [hlog, List.length_append]
    exact Nat.le_add_right _ _
  refine ⟨fun hother => ?_, fun _ => ?_, fun path hmem => ?_, fun _ => ?_⟩
  · rw [store_state] at hother
    exact absurd hstate hother
  · rw [hledger, hpath]
    exact h.inside hstate
  · rw [hledger] at hmem
    obtain ⟨n, hn, rfl⟩ := h.named path hmem
    exact ⟨n, Nat.lt_of_lt_of_le hn hlength, rfl⟩
  · obtain ⟨n, hn, hname⟩ := h.path hstate
    exact ⟨n, Nat.lt_of_lt_of_le hn hlength, by rw [hpath, hname]⟩

/-- An aborted transaction leaves nothing over, if the removal of its file succeeds. -/
theorem Kept.aborted {c₁ : Core} (h : Kept env removed c) (hstate : c.state = .data)
    (hsteps : Steps env c c₁)
    (removes : ∀ i path, (c₁.abortData env).log[i]? = some (.unlink path) → removed i = true) :
    Kept env removed (c₁.abortData env) := by
  obtain ⟨hcurrent, hnew, hfiles⟩ := h.inside hstate
  have hcmd : (c₁.abortData env).state ≠ .data := by
    rw [abortData_eq]
    exact fun hdata => by cases hdata
  have hpath : c₁.dataPath = c.dataPath := hsteps.same Core.dataPath fun _ _ _ _ => rfl
  obtain ⟨es, hlog, -⟩ := hsteps.log
  have hremoved : removed c₁.log.length = true := by
    apply removes _ c₁.dataPath
    rw [abortData_log, List.getElem?_append_right (Nat.le_refl _), Nat.sub_self]
    rfl
  obtain ⟨hleft, hanswered⟩ := ledger_abortData env hsteps hremoved
  refine ⟨fun _ path => ?_, fun hdata => absurd hdata hcmd, fun path hmem => ?_,
    fun hdata => absurd hdata hcmd⟩
  · rw [hleft, hanswered, List.mem_filter, hfiles, hpath, decide_eq_true_eq]
    constructor
    · rintro ⟨hmem | rfl, hne⟩
      · exact hmem
      · exact absurd rfl hne
    · intro hmem
      refine ⟨Or.inl hmem, ?_⟩
      rintro rfl
      exact hnew hmem
  · rw [hanswered] at hmem
    obtain ⟨n, hn, rfl⟩ := h.named path hmem
    refine ⟨n, Nat.lt_of_lt_of_le hn ?_, rfl⟩
    rw [abortData_log, hlog, List.append_assoc, List.length_append]
    exact Nat.le_add_right _ _

/-- The file of a transaction that is answered with 250 stays. -/
theorem Kept.done {c₁ : Core} (h : Kept env removed c) (hstate : c.state = .data)
    (hsteps : Steps env c c₁) : Kept env removed ((c₁.syncFile env).1.finishReply env) := by
  obtain ⟨hcurrent, hnew, hfiles⟩ := h.inside hstate
  have hcmd : ((c₁.syncFile env).1.finishReply env).state ≠ .data := by
    rw [finishReply_eq]
    exact fun hdata => by cases hdata
  obtain ⟨es, hlog, -⟩ := hsteps.log
  obtain ⟨hleft, hanswered⟩ := ledger_finishReply env removed hsteps
  have hlength : c.log.length ≤ ((c₁.syncFile env).1.finishReply env).log.length := by
    rw [finishReply_eq, hlog, List.append_assoc, List.length_append]
    exact Nat.le_add_right _ _
  refine ⟨fun _ path => ?_, fun hdata => absurd hdata hcmd, fun path hmem => ?_,
    fun hdata => absurd hdata hcmd⟩
  · rw [hleft, hanswered, hcurrent, hfiles]
    simp
  · rw [hanswered, hcurrent, Option.toList_some, List.mem_append, List.mem_singleton] at hmem
    rcases hmem with hmem | rfl
    · obtain ⟨n, hn, rfl⟩ := h.named path hmem
      exact ⟨n, Nat.lt_of_lt_of_le hn hlength, rfl⟩
    · obtain ⟨n, hn, hname⟩ := h.path hstate
      exact ⟨n, Nat.lt_of_lt_of_le hn hlength, hname⟩

/-- The end of the data leaves nothing over, if the removal of its file succeeds. -/
theorem Kept.ended (h : Kept env removed c) (hstate : c.state = .data) (step : Ended env c c')
    (removes : ∀ i path, c'.log[i]? = some (.unlink path) → removed i = true) :
    Kept env removed c' := by
  cases step with
  | tooLong hlong => exact h.aborted hstate (Steps.refl env c) removes
  | finished short small _ hfinished =>
      cases hfinished with
      | unknown hunknown => exact h.aborted hstate (tellg_steps env c) removes
      | failed known c₁ hsteps error => exact h.aborted hstate hsteps removes
      | done known c₁ hsteps clear eq accepted => exact h.done hstate hsteps

/-- A file that could not be created is not there. -/
theorem Kept.notOpened (h : Kept env removed c) (hcmd : c.state ≠ .data) (hcmd' : c'.state ≠ .data)
    {line path : Bytes} {es : List Event} (hfile : ∀ e ∈ es, e.isFile = true)
    (hlog : c'.log = c.log ++ [.line line, .open_ path false] ++ es) :
    Kept env removed (c'.reply .localError) := by
  have hsame : (ledger removed (c'.reply .localError).log).files = (ledger removed c.log).files ∧
      (ledger removed (c'.reply .localError).log).answered = (ledger removed c.log).answered := by
    rw [reply_log, hlog, ledger_append, ledger_isFile removed _ hfile]
    simp [ledger_append, Ledger.record]
  have hclosed : (c'.reply .localError).state ≠ .data := hcmd'
  refine h.same hcmd hclosed ?_ hsame.1 hsame.2
  rw [reply_log, hlog, List.append_assoc, List.append_assoc, List.length_append]
  exact Nat.le_add_right _ _

/-- A file that has been created is there until the data phase ends. -/
theorem Kept.opened (named : Named env) (h : Kept env removed c) (hcmd : c.state ≠ .data)
    {line : Bytes} {es : List Event} (hfile : ∀ e ∈ es, e.isFile = true)
    (hpath : c'.dataPath = spoolPath (env (c.log.length + 1)))
    (hlog : c'.log =
      c.log ++ [.line line, .open_ (spoolPath (env (c.log.length + 1))) true] ++ es) :
    Kept env removed (c'.dataEntered.reply .startData) := by
  have hledger := ledger_isFile removed
    (c.log ++ [.line line, .open_ (spoolPath (env (c.log.length + 1))) true]) hfile
  rw [← hlog] at hledger
  have hfinal : ledger removed ((c'.dataEntered.reply .startData).log) =
      (ledger removed c'.log).record removed (.reply .startData) := ledger_append _ _
  have hfiles : (ledger removed c'.log).files =
      (ledger removed c.log).files.insert (spoolPath (env (c.log.length + 1))) := by
    rw [hledger, ledger_append]
    rfl
  have hanswered : (ledger removed c'.log).answered = (ledger removed c.log).answered := by
    rw [hledger, ledger_append]
    rfl
  have hcurrent : (ledger removed c'.log).current =
      some (spoolPath (env (c.log.length + 1))) := by
    rw [hledger, ledger_append]
    rfl
  have hnew : spoolPath (env (c.log.length + 1)) ∉ (ledger removed c.log).answered := by
    intro hmem
    obtain ⟨n, hn, heq⟩ := h.named _ hmem
    have hsame := named.spoolPath_injective heq
    omega
  have hlength : c.log.length + 1 < (c'.dataEntered.reply .startData).log.length := by
    rw [reply_log, dataEntered, hlog]
    simp
  refine ⟨fun hother => absurd rfl hother, fun _ => ?_, fun path hmem => ?_, fun _ => ?_⟩
  · change _ = some c'.dataPath ∧ c'.dataPath ∉ _ ∧ ∀ path, _ ↔ _ ∨ path = c'.dataPath
    rw [hfinal, hpath]
    simp only [Ledger.record, hcurrent, hfiles, hanswered, List.mem_insert_iff]
    refine ⟨trivial, hnew, fun path => ?_⟩
    rw [h.outside hcmd path]
    exact Or.comm
  · rw [hfinal] at hmem
    simp only [Ledger.record, hanswered] at hmem
    obtain ⟨n, hn, rfl⟩ := h.named path hmem
    exact ⟨n, by omega, rfl⟩
  · exact ⟨c.log.length + 1, hlength, hpath⟩

/-- An in-sequence DATA, whose file can be written if it can be created. -/
theorem Kept.data (named : Named env) (h : Kept env removed c) (hstate : c.state = .cmd)
    (line : Bytes)
    (written : c.reverseSet = true → c.metadata.forwardPaths ≠ [] →
      (env (c.log.length + 1)).opened = true →
        ∀ i ≤ (traceInfo (env (c.log.length + 3))).length,
          (env (c.log.length + 2 + i)).written = true) :
    Kept env removed ((c.emit (.line line)).data env) := by
  have hcmd : c.state ≠ .data := by
    rw [hstate]
    decide
  unfold Core.data
  split
  · exact h.replied hcmd hcmd (List.append_assoc c.log [.line line] [.reply .badSequence])
  · rename_i hseq
    simp only [Bool.or_eq_true, Bool.not_eq_true', not_or, Bool.not_eq_false, beq_iff_eq,
      List.length_eq_zero_iff] at hseq
    have hsame : ((c.emit (.line line)).openFiles env).1.state = c.state :=
      (openFiles_opened env (c.emit (.line line))).same Core.state fun _ _ _ _ => rfl
    obtain ⟨hpath, es, hlog, hfile⟩ := openFiles_path env (c.emit (.line line))
    have hlength : (c.emit (.line line)).log.length = c.log.length + 1 := by
      rw [emit_log, List.length_append, List.length_singleton]
    have hanswer : (c.emit (.line line)).answer env = env (c.log.length + 1) := by
      rw [answer, hlength]
    rw [hanswer] at hpath hlog
    have hsplit (ok : Bool) : (c.emit (.line line)).log ++
        Event.open_ (spoolPath (env (c.log.length + 1))) ok :: es =
          c.log ++ [.line line, .open_ (spoolPath (env (c.log.length + 1))) ok] ++ es := by
      simp
    cases hok : (env (c.log.length + 1)).opened with
    | false =>
        have hfailed : ((c.emit (.line line)).openFiles env).2 = false := by
          simp only [openFiles, hanswer, hok, Bool.not_false, if_true]
        rw [hok, hsplit] at hlog
        simp only [hfailed, Bool.not_false, if_true]
        exact h.notOpened hcmd (hsame.symm ▸ hcmd) hfile hlog
    | true =>
        have hsucceeded : ((c.emit (.line line)).openFiles env).2 = true := by
          apply openFiles_succeeds
          · rw [hanswer]
            exact hok
          · rw [hlength]
            exact written hseq.1 hseq.2 hok
        rw [hok, hsplit] at hlog
        simp only [hsucceeded, Bool.not_true, Bool.false_eq_true, if_false]
        exact h.opened named hcmd hfile hpath hlog

/-- A command other than DATA opens no file. -/
theorem Kept.commanded {exact : Prop} {line : Bytes} (h : Kept env removed c) (hstate : c.state = .cmd)
    (other : verbOf line ≠ some .data) (step : Commanded env exact line (c.emit (.line line)) c') :
    Kept env removed c' := by
  have hcmd : c.state ≠ .data := by
    rw [hstate]
    decide
  have hlog (r : Reply) : c.log ++ [.line line] ++ [.reply r] = c.log ++ [.line line, .reply r] :=
    List.append_assoc _ _ _
  cases step with
  | refused r code => exact h.replied hcmd hcmd (hlog r)
  | noop verb => exact h.replied hcmd hcmd (hlog .ok)
  | greeted d r code verb named => exact h.replied hcmd (by decide : State.cmd ≠ .data) (hlog r)
  | sender p verb begun unset named => exact h.replied hcmd hcmd (hlog .ok)
  | recipient p verb begun room named => exact h.replied hcmd hcmd (hlog .ok)
  | notOpened verb failed => exact absurd verb other
  | entered verb set recipients opened => exact absurd verb other
  | reset verb => exact h.replied hcmd (by decide : State.cmd ≠ .data) (hlog .ok)
  | closed verb r code => exact h.replied hcmd (by decide : State.closed ≠ .data) (hlog r)

end Core

namespace Session

variable {env : Env} {removed : Nat → Bool} {s : Session} {sp : Bytes}

/-- The step handles a DATA that is in sequence. -/
def Opens (x : Progress) : Prop :=
  x.1.state = .cmd ∧ x.1.reverseSet = true ∧ x.1.metadata.forwardPaths ≠ [] ∧
    ∃ sp ∈ x.2.head?, ∃ line ∈ x.1.delivered sp, verbOf line = some .data

/-- A file that the step creates can be written, and a file that it gives up is removed. -/
structure Cleans (env : Env) (removed : Nat → Bool) (x : Progress) : Prop where
  written : Opens x → (env (x.1.log.length + 1)).opened = true →
    ∀ i ≤ (Core.traceInfo (env (x.1.log.length + 3))).length,
      (env (x.1.log.length + 2 + i)).written = true
  removes : ∀ i path, (advance env x).1.log[i]? = some (.unlink path) → removed i = true

theorem kept_feedCmd (named : Named env) (h : s.Kept env removed) (hstate : s.state = .cmd)
    (written : (∃ line ∈ s.delivered sp, verbOf line = some .data) → s.reverseSet = true →
      s.metadata.forwardPaths ≠ [] → (env (s.log.length + 1)).opened = true →
        ∀ i ≤ (Core.traceInfo (env (s.log.length + 3))).length,
          (env (s.log.length + 2 + i)).written = true) :
    (s.feedCmd env sp).1.Kept env removed := by
  have hcmd : s.state ≠ .data := by
    rw [hstate]
    decide
  have joined := join_joined (by decide) s.cmdBuffer sp s.cmdOffset cmdTerminator
  unfold feedCmd
  unfold delivered at written
  generalize join s.cmdBuffer sp s.cmdOffset cmdTerminator = r at joined written ⊢
  cases joined with
  | quiet b offset quiet window => exact h
  | gaveUp b offset hlong => exact h
  | tooLong b pre rest c eq quiet complete window =>
      refine h.same hcmd hcmd ?_ ?_ ?_
      · exact Nat.le_of_lt (by simp)
      · change (ledger removed (s.log ++ [.reply .exceededLine])).files = _
        rw [ledger_append]
        rfl
      · change (ledger removed (s.log ++ [.reply .exceededLine])).answered = _
        rw [ledger_append]
        rfl
  | line b pre rest c eq quiet complete line delivers =>
      simp only [handleLine, delivers.read, Bool.false_eq_true, if_false]
      by_cases hdata : verbOf line = some .data
      · have hlen : 4 ≤ line.length := by
          by_contra hshort
          rw [verbOf, if_pos (Nat.lt_of_not_le hshort)] at hdata
          cases hdata
        have heffect := Core.callCommand_dispatch env (s.emit (.line line)) delivers hlen
        rw [hdata] at heffect
        rw [heffect]
        refine h.data named hstate line (written ⟨line, ?_, hdata⟩)
        change some (b.mem.read 0 line.length) = some line
        rw [delivers.read]
      · have hcommanded := Core.callCommand_commanded env False
          (c := s.emit (.line line)) delivers False.elim
        exact h.commanded hstate hdata hcommanded

theorem kept_advance {x : Progress} (named : Named env) (h : x.1.Kept env removed)
    (cleans : Cleans env removed x) : (advance env x).1.Kept env removed := by
  obtain ⟨s, _ | ⟨_ | ⟨c, sp⟩, chunks⟩⟩ := x
  · exact h
  · exact h
  · have step := turn_turned env s (c :: sp)
    have hremoves := cleans.removes
    change ∀ i path, (s.turn env (c :: sp)).1.log[i]? = _ → _ at hremoves
    change (s.turn env (c :: sp)).1.Kept env removed
    cases hstate : s.state with
    | closed =>
        rw [turn, hstate]
        exact h
    | cmd =>
        rw [turn_cmd env (c :: sp) hstate]
        exact kept_feedCmd named h hstate fun hdata set recipients =>
          cleans.written ⟨hstate, set, recipients, c :: sp, rfl, hdata⟩
    | data =>
        generalize (s.turn env (c :: sp)).1.toCore = c' at step hremoves ⊢
        cases step with
        | idle => exact h
        | longCommand state => exact absurd (hstate.symm.trans state) (by decide)
        | command state line _ step => exact absurd (hstate.symm.trans state) (by decide)
        | longData state => exact ⟨h.outside, h.inside, h.named, h.path⟩
        | stored state line => exact h.stored state line
        | ended state => exact h.ended state (Core.endData_ended env s.toCore) hremoves

/-- The bytes that `recv` returns before an error or the end of the connection. -/
def chunksOf : List (Option Bytes) → List Bytes
  | some (c :: sp) :: results => (c :: sp) :: chunksOf results
  | _ => []

/-- The loop of `handle` over the results of `recv`, of which the last ones may still be
missing, and whether it has ended. No result is an error, and no bytes are the end of the
connection. -/
def handleLoop (env : Env) : Session → List (Option Bytes) → Session × Bool
  | s, [] => (s, s.state = .closed)
  | s, result :: results =>
      if s.state = .closed then (s, true)
      else
        match result with
        | none => (s, true)
        | some [] => (s, true)
        | some sp => handleLoop env (s.feed env sp) results

/-- `session::handle`. -/
def handle (env : Env) (mem : Memory) (results : List (Option Bytes)) : Session × Bool :=
  handleLoop env (start env mem) results

/-- `handle` feeds what it receives. -/
theorem handleLoop_feedAll (env : Env) (s : Session) (results : List (Option Bytes)) :
    (handleLoop env s results).1 = s.feedAll env (chunksOf results) := by
  induction results generalizing s with
  | nil => rfl
  | cons result results ih =>
      by_cases hclosed : s.state = .closed
      · unfold handleLoop
        rw [if_pos hclosed]
        exact (feedAll_closed env _ hclosed).symm
      · unfold handleLoop
        rw [if_neg hclosed]
        cases result with
        | none => rfl
        | some sp =>
            cases sp with
            | nil => rfl
            | cons c sp => exact ih (s.feed env (c :: sp))

theorem Kept.noOrphans_iff {c : Core} (h : c.Kept env removed) :
    NoOrphans (ledger removed c.log) ↔ c.state ≠ .data := by
  refine ⟨fun hnone hdata => ?_, h.outside⟩
  obtain ⟨-, hnew, hfiles⟩ := h.inside hdata
  exact hnew ((hnone c.dataPath).mp ((hfiles c.dataPath).mpr (Or.inr rfl)))

/-- In every run whose files can be written once they are created, and whose removals succeed,
the files that exist are those of the messages answered with 250 exactly outside the data
phase, at every step and when `handle` has returned. -/
theorem no_orphans (env : Env) (removed : Nat → Bool) (named : Named env) (mem : Memory)
    (results : List (Option Bytes))
    (cleans : Run.Always (advance env) (Cleans env removed) (start env mem, chunksOf results)) :
    Run.Always (advance env) (fun x => NoOrphans (ledger removed x.1.log) ↔ x.1.state ≠ .data)
      (start env mem, chunksOf results) ∧
    ∀ s, handle env mem results = (s, true) →
      (NoOrphans (ledger removed s.log) ↔ s.state ≠ .data) := by
  have hstart : (start env mem).Kept env removed := by
    refine ⟨fun _ path => Iff.rfl, fun hdata => ?_, fun path hmem => ?_, fun hdata => ?_⟩
    · cases hdata
    · cases hmem
    · cases hdata
  have hkept := cleans.invariant (I := fun x => x.1.Kept env removed) hstart
    fun x cleans h => kept_advance named h cleans
  refine ⟨hkept.mono fun x h => Kept.noOrphans_iff h, fun s hs => ?_⟩
  obtain ⟨k, hk⟩ := feedAll_reached env (start env mem) (chunksOf results)
  have hfinal := hkept k
  rw [hk, ← handleLoop_feedAll] at hfinal
  change (handle env mem results).1.Kept env removed at hfinal
  rw [hs] at hfinal
  exact Kept.noOrphans_iff hfinal

/-- An environment in which every operation succeeds, with a counter in its filenames. -/
def numbered : Env := fun n =>
  { Answer.ideal with filename := getUniqueFilename (text "msg") 1 2 n 3 }

theorem numbered_named : Named numbered :=
  ⟨1, fun _ => 2, id, fun _ => 3, Function.injective_id, fun _ => rfl⟩

/-- A whole message, and then the end of the connection. -/
theorem no_orphans_message :
    Run.Always (advance numbered)
        (fun x => NoOrphans (ledger (fun _ => true) x.1.log) ↔ x.1.state ≠ .data)
        (start numbered .zeroed, chunksOf [some (upToData ++ text "DATA\r\nx\r\n.\r\n"), some []]) ∧
      ∀ s, handle numbered .zeroed [some (upToData ++ text "DATA\r\nx\r\n.\r\n"), some []] =
          (s, true) →
        (NoOrphans (ledger (fun _ => true) s.log) ↔ s.state ≠ .data) :=
  no_orphans numbered (fun _ => true) numbered_named .zeroed _
    fun _ => ⟨fun _ _ _ _ => rfl, fun _ _ _ => rfl⟩

/-- A peer that closes the connection after DATA leaves a file behind. -/
theorem not_no_orphans_closed :
    ¬ ∀ (env : Env) (removed : Nat → Bool) (mem : Memory) (results : List (Option Bytes)),
      Named env →
      Run.Always (advance env) (fun x => x.1.state ≠ .data → NoOrphans (ledger removed x.1.log))
        (start env mem, chunksOf results) ∧
      ∀ s, handle env mem results = (s, true) → NoOrphans (ledger removed s.log) := by
  intro h
  have hended : (handle numbered .zeroed
      [some (upToData ++ text "DATA\r\n"), some []]).2 = true := by decide +kernel
  have hpair (r : Session × Bool) (hr : r.2 = true) : r = (r.1, true) := by
    rw [← hr]
  have hreturned := (h numbered (fun _ => true) .zeroed
    [some (upToData ++ text "DATA\r\n"), some []] numbered_named).2 _ (hpair _ hended)
  have hanswered : (ledger (fun _ => true) (handle numbered .zeroed
      [some (upToData ++ text "DATA\r\n"), some []]).1.log).answered = [] := by decide +kernel
  have hfiles : (ledger (fun _ => true) (handle numbered .zeroed
      [some (upToData ++ text "DATA\r\n"), some []]).1.log).files ≠ [] := by decide +kernel
  obtain ⟨path, hpath⟩ := List.exists_mem_of_ne_nil _ hfiles
  have hmem := (hreturned path).mp hpath
  rw [hanswered] at hmem
  cases hmem

end Session

end Ervan.Smtp
