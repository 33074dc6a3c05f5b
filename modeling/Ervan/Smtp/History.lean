import Ervan.Smtp.Turn

/-!
# Histories

The log only grows, and a turn is known by the events it adds. The turns that answer
the end of the data with 250 are exactly those in which the spool file is completed.
-/

namespace Ervan.Smtp

namespace Core

variable {env : Env} {exact : Prop} {line : Bytes} {c c' : Core}

/-- A command line is answered by one reply, after any operations on the spool file. -/
theorem Commanded.log (h : Commanded env exact line c c') :
    ∃ es r, c'.log = c.log ++ (es ++ [.reply r]) ∧
      ∀ e ∈ es, e.isFile = true ∨ ∃ path ok, e = Event.open_ path ok := by
  have hopened := openFiles_opened env c
  obtain ⟨path, ok, es, hlog, hfile, -⟩ := hopened.log
  have hevents : ∀ e ∈ Event.open_ path ok :: es, e.isFile = true ∨ ∃ path ok, e = .open_ path ok := by
    intro e he
    rcases List.mem_cons.mp he with rfl | he
    · exact Or.inr ⟨path, ok, rfl⟩
    · exact Or.inl (hfile e he)
  cases h with
  | refused r h => exact ⟨[], r, rfl, by simp⟩
  | noop verb => exact ⟨[], .ok, rfl, by simp⟩
  | greeted d r code verb named => exact ⟨[], r, rfl, by simp⟩
  | sender p verb begun unset named => exact ⟨[], .ok, rfl, by simp⟩
  | recipient p verb begun room named => exact ⟨[], .ok, rfl, by simp⟩
  | notOpened verb failed =>
      refine ⟨_, .localError, ?_, hevents⟩
      rw [reply_log, hlog]
      simp
  | entered verb set recipients opened =>
      refine ⟨_, .startData, ?_, hevents⟩
      rw [reply_log, dataEntered, hlog]
      simp
  | reset verb => exact ⟨[], .ok, rfl, by simp⟩
  | closed verb r h => exact ⟨[], r, rfl, by simp⟩

/-- The spool file has been completed, up to its synchronisation. -/
structure Completed (env : Env) (c c₁ : Core) : Prop where
  short : c.lineTooLong = false
  small : c.dataTooLong = false
  known : ¬ (c.tellg env).2 < 0
  steps : Steps env c c₁
  clear : c₁.dataError = false
  eq : c₁ = ((c.tellg env).1.finishMessage env (c.tellg env).2).finishMetadata env
  accepted : (c₁.answer env).fsync ≠ .refused

/-- An aborted transaction adds operations on the spool file, removes it and sends, if any, a
refusal. -/
theorem abortData_events {c₁ : Core} (h : Steps env c c₁) :
    ∃ es, (c₁.abortData env).log = c.log ++ es ∧ ∀ e ∈ es,
      e.isFile = true ∨ (∃ path, e = .unlink path) ∨ e = .close [] ∨
        ∃ r : Reply, e = .reply r ∧ r.code ≠ 250 := by
  obtain ⟨es, hlog, hfile, -⟩ := h.log
  refine ⟨es ++ ([.unlink c₁.dataPath, .truncate, .close []] ++
    c₁.abortReply.toList.map .reply), by rw [abortData_log, hlog, List.append_assoc], ?_⟩
  intro e he
  simp only [List.mem_append, List.mem_cons, List.not_mem_nil, or_false, List.mem_map,
    Option.mem_toList] at he
  rcases he with he | (rfl | rfl | rfl) | ⟨r, hr, rfl⟩
  · exact Or.inl (hfile e he)
  · exact Or.inr (Or.inl ⟨_, rfl⟩)
  · exact Or.inl rfl
  · exact Or.inr (Or.inr (Or.inl rfl))
  · exact Or.inr (Or.inr (Or.inr ⟨r, rfl, abortReply_code hr⟩))

/-- The end of the data adds operations on the spool file and, at the end, the reply. -/
theorem Ended.log (h : Ended env c c') :
    ∃ es, c'.log = c.log ++ es ∧ (∀ line, Event.line line ∉ es) ∧
      (Event.reply .ok ∈ es → ∃ c₁, Completed env c c₁ ∧
        c' = (c₁.syncFile env).1.finishReply env) ∧
      (Event.fsync .failed ∈ es → Event.reply .ok ∈ es) := by
  have haborted (c₁ : Core) (hsteps : Steps env c c₁) :
      ∃ es, (c₁.abortData env).log = c.log ++ es ∧ (∀ line, Event.line line ∉ es) ∧
        (Event.reply .ok ∈ es → ∃ c₂, Completed env c c₂ ∧
          c₁.abortData env = (c₂.syncFile env).1.finishReply env) ∧
        (Event.fsync .failed ∈ es → Event.reply .ok ∈ es) := by
    obtain ⟨es, hlog, hes⟩ := abortData_events hsteps
    refine ⟨es, hlog, fun line hmem => ?_, fun hmem => ?_, fun hmem => ?_⟩
    · rcases hes _ hmem with h | ⟨path, h⟩ | h | ⟨r, h, -⟩ <;> cases h
    · rcases hes _ hmem with h | ⟨path, h⟩ | h | ⟨r, h, hcode⟩
      · cases h
      · cases h
      · cases h
      · cases h
        exact absurd rfl hcode
    · rcases hes _ hmem with h | ⟨path, h⟩ | h | ⟨r, h, -⟩ <;> cases h
  cases h with
  | tooLong h => exact haborted c (Steps.refl env c)
  | finished short small _ h =>
      cases h with
      | unknown h => exact haborted _ (tellg_steps env c)
      | failed known c₁ h error => exact haborted c₁ h
      | done known c₁ h clear eq accepted =>
          obtain ⟨es, hlog, hfile, -⟩ := h.log
          refine ⟨es ++ [.fsync (c₁.answer env).fsync,
            .close ((c₁.dataFile.map DataFile.contents).getD []), .reply .ok], ?_, ?_, ?_, ?_⟩
          · rw [finishReply_eq, hlog, List.append_assoc]
          · intro line hmem
            rcases List.mem_append.mp hmem with hmem | hmem
            · exact Bool.noConfusion (hfile _ hmem)
            · simp at hmem
          · exact fun _ => ⟨c₁, ⟨short, small, known, h, clear, eq, accepted⟩, rfl⟩
          · simp

theorem Commanded.mono {exact' : Prop} (h : Commanded env exact line c c')
    (imp : exact' → exact) : Commanded env exact' line c c' := by
  cases h with
  | refused r h => exact .refused r h
  | noop verb => exact .noop verb
  | greeted d r code verb named =>
      exact .greeted d r code verb fun h => named (h.imp_left imp)
  | sender p verb begun unset named => exact .sender p verb begun unset named
  | recipient p verb begun room named => exact .recipient p verb begun room named
  | notOpened verb failed => exact .notOpened verb failed
  | entered verb set recipients opened => exact .entered verb set recipients opened
  | reset verb => exact .reset verb
  | closed verb r h => exact .closed verb r h

theorem Turned.mono {exact' : Prop} (h : Turned env exact c c')
    (imp : c.state = .cmd → exact' → exact) : Turned env exact' c c' := by
  cases h with
  | idle => exact .idle
  | longCommand state => exact .longCommand state
  | command state line c' h => exact .command state line c' (h.mono (imp state))
  | longData state => exact .longData state
  | stored state line => exact .stored state line
  | ended state => exact .ended state

/-- What a turn adds to the log. -/
theorem Turned.log (h : Turned env exact c c') : ∃ es, c'.log = c.log ++ es := by
  cases h with
  | idle => exact ⟨[], by simp⟩
  | longCommand state => exact ⟨_, rfl⟩
  | command state line _ h =>
      obtain ⟨es, r, hlog, -⟩ := h.log
      exact ⟨[.line line] ++ (es ++ [.reply r]), by rw [hlog, emit_log, List.append_assoc]⟩
  | longData state => exact ⟨[], by simp⟩
  | stored state line =>
      obtain ⟨es, hlog, -⟩ := (store_steps env line c).log
      exact ⟨es, by rw [hlog, measureLine_eq]⟩
  | ended state =>
      obtain ⟨es, hlog, -⟩ := (endData_ended env c).log
      exact ⟨es, hlog⟩

end Core

namespace Session

variable {env : Env} {x : Progress}

/-- The offset of the command buffer is in range whenever a command is read. -/
def Progress.InRange (x : Progress) : Prop :=
  match x.2 with
  | [] => True
  | sp :: _ => x.1.state = .cmd → x.1.InRange sp

theorem advance_turned (env : Env) (x : Progress) :
    Core.Turned env (Progress.InRange x) x.1.toCore (advance env x).1.toCore := by
  obtain ⟨s, _ | ⟨_ | ⟨c, sp⟩, chunks⟩⟩ := x
  · exact .idle
  · exact .idle
  · exact (turn_turned env s (c :: sp)).mono fun hstate hrange => hrange hstate

theorem advance_log (env : Env) (x : Progress) :
    ∃ es, (advance env x).1.log = x.1.log ++ es := (advance_turned env x).log

/-- The events that a step adds to the log. -/
def events (env : Env) (x : Progress) : List Event :=
  (advance env x).1.log.drop x.1.log.length

theorem events_eq (es : List Event) (h : (advance env x).1.log = x.1.log ++ es) :
    events env x = es := by
  rw [events, h, List.drop_left]

theorem advance_log_events (env : Env) (x : Progress) :
    (advance env x).1.log = x.1.log ++ events env x := by
  obtain ⟨es, h⟩ := advance_log env x
  rw [events_eq es h, h]

theorem iterate_log (env : Env) (n : Nat) (x : Progress) :
    x.1.log <+: ((advance env)^[n] x).1.log := by
  induction n generalizing x with
  | zero => exact List.prefix_rfl
  | succ n ih =>
      obtain ⟨es, h⟩ := advance_log env x
      rw [Function.iterate_succ_apply]
      exact (h ▸ List.prefix_append _ es).trans (ih (advance env x))

/-- A session that has read all its chunks rests. -/
theorem advance_done (env : Env) (h : x.2 = []) : advance env x = x := by
  obtain ⟨s, chunks⟩ := x
  cases h
  rfl

theorem always_of_done {P : Progress → Prop} (k : Nat) (done : ((advance env)^[k] x).2 = [])
    (h : ∀ n ≤ k, P ((advance env)^[n] x)) : Run.Always (advance env) P x :=
  Run.always_of_fixed k (advance_done env done) h

/-- Every event of a run is in the log at its end. -/
theorem log_final (env : Env) (s : Session) (chunks : List Bytes) (n : Nat) :
    ((advance env)^[n] (s, chunks)).1.log <+: (feedAll env s chunks).log := by
  obtain ⟨k, hk⟩ := feedAll_reached env s chunks
  refine always_of_done (P := fun x => x.1.log <+: (feedAll env s chunks).log) k
    (by rw [hk]) (fun n hle => ?_) n
  have hprefix := iterate_log env (k - n) ((advance env)^[n] (s, chunks))
  rwa [← Function.iterate_add_apply, Nat.sub_add_cancel hle, hk] at hprefix

/-- The step answers the end of the data with 250. -/
def Acknowledges (env : Env) (x : Progress) : Prop :=
  x.1.state = .data ∧ Event.reply .ok ∈ events env x

instance (x : Progress) : Decidable (Acknowledges env x) := inferInstanceAs (Decidable (_ ∧ _))

/-- In the data state only the end of the data sends a reply. -/
theorem events_data (env : Env) (hstate : x.1.state = .data) :
    (Event.reply .ok ∈ events env x → ∃ c₁, Core.Completed env x.1.toCore c₁ ∧
      (advance env x).1.toCore = (c₁.syncFile env).1.finishReply env) ∧
    (Event.fsync .failed ∈ events env x → Event.reply .ok ∈ events env x) := by
  have h := advance_turned env x
  generalize hc : (advance env x).1.toCore = c' at h
  have hlog : (advance env x).1.log = c'.log := by rw [← hc]
  cases h with
  | idle => simp [events_eq [] (by rw [hlog]; simp)]
  | longCommand state => rw [hstate] at state; cases state
  | command state line _ h => rw [hstate] at state; cases state
  | longData state => simp [events_eq [] (by rw [hlog]; simp)]
  | stored state line =>
      obtain ⟨es, hstored, hfile, -⟩ := (Core.store_steps env line x.1.toCore).log
      rw [events_eq es (by rw [hlog, hstored, Core.measureLine_eq])]
      exact ⟨fun hmem => Bool.noConfusion (hfile _ hmem), fun hmem => Bool.noConfusion (hfile _ hmem)⟩
  | ended state =>
      obtain ⟨es, hended, -, hreply, hfsync⟩ := (Core.endData_ended env x.1.toCore).log
      rw [events_eq es (by rw [hlog, hended])]
      exact ⟨hreply, hfsync⟩

/-- A synchronisation fails, after it has been accepted, in the data state only. -/
theorem data_of_fsync (h : Event.fsync .failed ∈ events env x) : x.1.state = .data := by
  have step := advance_turned env x
  generalize hc : (advance env x).1.toCore = c' at step
  have hlog : (advance env x).1.log = c'.log := by rw [← hc]
  cases step with
  | idle => simp [events_eq [] (by rw [hlog]; simp)] at h
  | longCommand state => simp [events_eq [.reply .exceededLine] hlog] at h
  | command state line _ step =>
      obtain ⟨es, r, hcommand, hes⟩ := step.log
      rw [events_eq (.line line :: (es ++ [.reply r])) (by rw [hlog, hcommand]; simp)] at h
      simp only [List.mem_cons, List.mem_append, reduceCtorEq, List.not_mem_nil, or_false,
        false_or] at h
      rcases hes _ h with hfile | ⟨path, ok, heq⟩
      · cases hfile
      · cases heq
  | longData state => exact state
  | stored state line => exact state
  | ended state => exact state

/-- The events of a step that completes the spool file. -/
theorem events_completed {c₁ : Core} (done : Core.Completed env x.1.toCore c₁)
    (eq : (advance env x).1.toCore = (c₁.syncFile env).1.finishReply env) :
    ∃ es, c₁.log = x.1.log ++ es ∧ (∀ e ∈ es, e.isFile = true) ∧
      events env x = es ++ [.fsync (c₁.answer env).fsync,
        .close ((c₁.dataFile.map DataFile.contents).getD []), .reply .ok] := by
  obtain ⟨es, hlog, hfile, -⟩ := done.steps.log
  refine ⟨es, hlog, hfile, events_eq _ ?_⟩
  rw [eq, Core.finishReply_eq, hlog, List.append_assoc]

theorem acknowledges_completed (h : Acknowledges env x) :
    ∃ c₁, Core.Completed env x.1.toCore c₁ ∧
      (advance env x).1.toCore = (c₁.syncFile env).1.finishReply env :=
  (events_data env h.1).1 h.2

end Session

/-- An environment in which every operation succeeds. -/
def Answer.ideal : Answer where
  cfg := ⟨text "mx.example", 65536, 100⟩
  filename := text "msg.1.2.3.4"
  opened := true
  written := true
  torn := 0
  told := true
  fsync := .done
  now := 0
  strftime := id
  stack := 0

/-- Cleared memory. -/
def Memory.zeroed : Memory where
  cmdBuffer := ⟨List.replicate 510 0, [0, 0], List.length_replicate, rfl⟩
  lineBuffer := ⟨List.replicate 1022 0, [0, 0], List.length_replicate, rfl⟩
  dataSize := 0
  dataTooLong := false
  dataError := false
  lineTooLong := false

/-- Commands after which DATA is accepted. -/
def upToData : Bytes := text "EHLO a\r\nMAIL FROM:<>\r\nRCPT TO:<b@c>\r\n"

end Ervan.Smtp
