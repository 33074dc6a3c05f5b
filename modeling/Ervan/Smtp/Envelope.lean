import Ervan.Smtp.Dialogue

/-!
# The envelope

What is recorded for a message that is answered with 250, compared with what its client
has been told. The record is always the session's envelope; that this is the envelope of
the client depends on the order of the commands.
-/

namespace Ervan.Smtp

namespace Session

variable {env : Env} {x : Progress}

/-- The command lines among the events. -/
def lines (es : List Event) : List Bytes :=
  es.filterMap fun e => match e with
    | .line line => some line
    | _ => none

theorem mem_lines {es : List Event} {line : Bytes} : line ∈ lines es ↔ Event.line line ∈ es := by
  simp only [lines, List.mem_filterMap]
  constructor
  · rintro ⟨e, he, heq⟩
    cases e <;> cases heq
    exact he
  · exact fun h => ⟨_, h, rfl⟩

/-- The step hands this line to its command. -/
def Handles (env : Env) (x : Progress) (line : Bytes) : Prop := line ∈ lines (events env x)

/-- The step writes this record, one write after another, and every write succeeds. -/
def Records (env : Env) (x : Progress) (md : Metadata) : Prop :=
  md.writes.map (Event.write · true) <:+: events env x

instance (md : Metadata) : Decidable (Records env x md) := inferInstanceAs (Decidable (_ <:+: _))

/-- A message is answered with 250 after its envelope has been recorded. -/
theorem acknowledges_records (h : Acknowledges env x) : Records env x x.1.metadata := by
  obtain ⟨c₁, done, heq⟩ := acknowledges_completed h
  obtain ⟨es, hlog, -, hevents⟩ := events_completed done heq
  obtain ⟨tail, hevents⟩ : ∃ tail, events env x = es ++ tail := ⟨_, hevents⟩
  have hclear := done.clear
  have hmessage := (Core.tellg_steps env x.1.toCore).trans
    (Core.finishMessage_steps env (x.1.tellg env).2 (x.1.tellg env).1)
  obtain ⟨front, hfront, -⟩ := hmessage.log
  have hmetadata := hmessage.same Core.metadata fun _ _ _ _ => rfl
  rw [done.eq] at hclear hlog
  obtain ⟨pre, post, hrecord⟩ := Core.finishMetadata_log hclear
  rw [hrecord, hfront, hmetadata, List.append_assoc] at hlog
  rw [Records, hevents, ← List.append_cancel_left hlog]
  exact ⟨front ++ pre, post ++ tail, by simp only [List.append_assoc]⟩

theorem agrees_always (env : Env) (mem : Memory) (chunks : List Bytes) :
    Run.Always (advance env) (fun x => Agrees (dialogue x.1.log) x.1.toCore)
      (start env mem, chunks) := by
  refine Run.always_of_step (advance env) ?_ fun x h => h.turned (advance_turned env x)
  exact Agrees.reset (fun h => nomatch h) rfl rfl rfl rfl fun g hg => nomatch hg

/-- A step of a session that hands a line to a command. -/
theorem handles_commanded {line : Bytes} (h : Handles env x line) :
    ∃ es r, events env x = .line line :: (es ++ [.reply r]) ∧
      (∀ e ∈ es, e.isFile = true ∨ ∃ path ok, e = Event.open_ path ok) ∧
      Core.Commanded env (Progress.InRange x) line (x.1.emit (.line line))
        (advance env x).1.toCore := by
  have step := advance_turned env x
  generalize hc : (advance env x).1.toCore = c' at step ⊢
  have hlog : (advance env x).1.log = c'.log := by rw [← hc]
  rw [Handles, mem_lines] at h
  have hfile {es : List Event} (hes : ∀ e ∈ es, e.isFile = true) : Event.line line ∉ es :=
    fun hmem => Bool.noConfusion (hes _ hmem)
  cases step with
  | idle => simp [events_eq [] (by rw [hlog]; simp)] at h
  | longCommand state => simp [events_eq [.reply .exceededLine] hlog] at h
  | command state line' _ step =>
      obtain ⟨es, r, hcommand, hes⟩ := step.log
      have hevents : events env x = .line line' :: (es ++ [.reply r]) :=
        events_eq _ (by rw [hlog, hcommand]; simp)
      rw [hevents] at h
      rcases List.mem_cons.mp h with heq | hmem
      · cases heq
        exact ⟨es, r, hevents, hes, step⟩
      · rcases List.mem_append.mp hmem with hmem | hmem
        · rcases hes _ hmem with hfile | ⟨path, ok, heq⟩
          · cases hfile
          · cases heq
        · cases List.mem_singleton.mp hmem
  | longData state => simp [events_eq [] (by rw [hlog]; simp)] at h
  | stored state line' =>
      obtain ⟨es, hstored, hes, -⟩ := (Core.store_steps env line' x.1.toCore).log
      rw [events_eq es (by rw [hlog, hstored, Core.measureLine_eq])] at h
      exact absurd h (hfile hes)
  | ended state =>
      obtain ⟨es, hended, hline, -⟩ := (Core.endData_ended env x.1.toCore).log
      rw [events_eq es (by rw [hlog, hended])] at h
      exact absurd h (hline line)

/-- A command that is accepted is a step of the session that handles its line. -/
theorem handles_of_log {line : Bytes} {es : List Event}
    (hlog : (advance env x).1.log = x.1.log ++ (.line line :: es)) : Handles env x line := by
  rw [Handles, mem_lines, events_eq _ hlog]
  exact List.mem_cons_self

/-- What a command adds to the log behind its line. -/
theorem log_behind_line {line : Bytes} {es : List Event}
    (hlog : (advance env x).1.log = x.1.log ++ (.line line :: es)) :
    (advance env x).1.log = (x.1.emit (.line line)).log ++ es := by
  rw [hlog, Core.emit_log, List.append_assoc, List.singleton_append]

theorem verbOf_length {line : Bytes} {verb : Verb} (h : verbOf line = some verb) :
    4 ≤ line.length := by
  unfold verbOf at h
  split at h
  · cases h
  · omega

/-! ### Recipients -/

/-- A RCPT gets as far as its path after a MAIL only. Without an argument it always does. -/
def SenderFirst (env : Env) (x : Progress) : Prop :=
  ∀ line, Handles env x line → verbOf line = some .rcpt → x.1.sessionBegun = true →
    x.1.metadata.forwardPaths.length < x.1.maxForwardPaths →
    line.length = 4 ∨ (recipientOf line).isSome = true → x.1.reverseSet = true

instance : Decidable (SenderFirst env x) :=
  inferInstanceAs (Decidable (∀ line ∈ lines (events env x), _))

/-- RCPT is accepted after a MAIL only, and the record of a message lists, in order, every
recipient accepted since the last reset. -/
def RecipientsKept (env : Env) (x : Progress) : Prop :=
  (∀ line, Handles env x line → verbOf line = some .rcpt → Event.reply .ok ∈ events env x →
    (dialogue x.1.log).sender.isSome = true) ∧
  (Acknowledges env x → Records env x x.1.metadata ∧
    List.Forall₂ Names (dialogue x.1.log).recipients x.1.metadata.forwardPaths)

/-- Under the condition a RCPT that is accepted finds a sender. -/
theorem SenderFirst.of_accepted (h : SenderFirst env x)
    (agrees : Agrees (dialogue x.1.log) x.1.toCore) {line : Bytes} {exact : Prop}
    (verb : verbOf line = some .rcpt) {es : List Event} {r : Reply}
    (hlog : (advance env x).1.log = x.1.log ++ (.line line :: (es ++ [.reply r])))
    (hcode : r.code = 250)
    (step : Core.Commanded env exact line (x.1.emit (.line line)) (advance env x).1.toCore) :
    (dialogue x.1.log).sender.isSome = true := by
  obtain ⟨begun, room, hargument⟩ := (step.of_accepted (log_behind_line hlog) hcode).2 verb
  have hset : x.1.reverseSet = true := by
    refine h line (handles_of_log hlog) verb begun room ?_
    rcases Nat.lt_or_eq_of_le (verbOf_length verb) with hlen | hlen
    · exact Or.inr (hargument hlen)
    · exact Or.inl hlen.symm
  rw [agrees.sender, if_pos hset]
  rfl

/-- All recipients since the last reset have come after the MAIL. -/
def InOrder (d : Dialogue) : Prop := d.recipients = d.later ∧ (d.sender = none → d.later = [])

theorem inOrder_advance (first : SenderFirst env x)
    (agrees : Agrees (dialogue x.1.log) x.1.toCore) (h : InOrder (dialogue x.1.log)) :
    InOrder (dialogue (advance env x).1.log) := by
  refine dialogue_turned (fun d line h => h) (fun d _ => ⟨rfl, fun _ => rfl⟩)
    (advance_turned env x) (fun line es r hlog hcode step => ?_) h
  unfold Dialogue.accepted
  cases hverb : verbOf line with
  | none => exact h
  | some verb =>
      cases verb with
      | ehlo => exact ⟨rfl, fun _ => rfl⟩
      | helo => exact ⟨rfl, fun _ => rfl⟩
      | mail =>
          obtain ⟨unset, -⟩ := (step.of_accepted (log_behind_line hlog) hcode).1 hverb
          have hnone : (dialogue x.1.log).sender = none := by
            rw [agrees.sender]
            exact if_neg (by rw [show x.1.reverseSet = false from unset]; decide)
          exact ⟨h.1.trans (h.2 hnone), fun _ => rfl⟩
      | rcpt =>
          have hsome := first.of_accepted agrees hverb hlog hcode step
          exact ⟨congrArg (· ++ _) h.1, fun hnone => by rw [hnone] at hsome; cases hsome⟩
      | rset => exact ⟨rfl, fun _ => rfl⟩
      | data => exact h
      | vrfy => exact h
      | noop => exact h
      | quit => exact h

/-- In every run in which a RCPT gets as far as its path after a MAIL only, no recipient
that has been accepted is lost. -/
theorem recipients_kept (env : Env) (mem : Memory) (chunks : List Bytes)
    (h : Run.Always (advance env) (SenderFirst env) (start env mem, chunks)) :
    Run.Always (advance env) (RecipientsKept env) (start env mem, chunks) := by
  have hagrees := agrees_always env mem chunks
  have horder : Run.Always (advance env) (fun x => InOrder (dialogue x.1.log))
      (start env mem, chunks) :=
    Run.Always.invariant (P := fun x => SenderFirst env x ∧ Agrees (dialogue x.1.log) x.1.toCore)
      (fun n => ⟨h n, hagrees n⟩) ⟨rfl, fun _ => rfl⟩
      fun x hx horder => inOrder_advance hx.1 hx.2 horder
  intro n
  refine ⟨fun line hline verb hreply => ?_, fun hack => ⟨acknowledges_records hack, ?_⟩⟩
  · obtain ⟨es, r, hevents, hes, step⟩ := handles_commanded hline
    have hlog := advance_log_events env ((advance env)^[n] (start env mem, chunks))
    rw [hevents] at hlog hreply
    have hr : r = .ok := by
      simp only [List.mem_cons, reduceCtorEq, false_or, List.mem_append, List.not_mem_nil,
        or_false, Event.reply.injEq] at hreply
      rcases hreply with hmem | heq
      · rcases hes _ hmem with hfile | ⟨path, ok, heq⟩
        · cases hfile
        · cases heq
      · exact heq.symm
    exact (h n).of_accepted (hagrees n) verb hlog (by rw [hr]; rfl) step
  · rw [(horder n).1]
    exact (hagrees n).later

/-- Two recipients, after a third one whose path is refused. -/
theorem recipients_kept_two :
    Run.Always (advance fun _ => .ideal) (RecipientsKept fun _ => .ideal)
      (start (fun _ => .ideal) .zeroed, [text "EHLO a\r\nRCPT TO:b\r\nMAIL FROM:<>\r\n",
        text "RCPT TO:<b@c>\r\nRCPT TO:<d@e>\r\nDATA\r\n.\r\n"]) := by
  refine recipients_kept _ .zeroed _ (always_of_done 10 ?_ ?_)
  · decide +kernel
  · decide +kernel

/-- A recipient that comes before the sender is accepted and forgotten. -/
theorem not_recipients_kept_early :
    ¬ ∀ (env : Env) (mem : Memory) (chunks : List Bytes),
      Run.Always (advance env) (RecipientsKept env) (start env mem, chunks) := by
  intro h
  have hstep := h (fun _ => .ideal) .zeroed
    [text "EHLO a\r\n", text "RCPT TO:<b@c>\r\n", text "MAIL FROM:<>\r\n",
      text "RCPT TO:<d@e>\r\n", text "DATA\r\n", text ".\r\n"] 10
  have hlength := (hstep.2 (by decide +kernel)).2.length_eq
  revert hlength
  decide +kernel

/-! ### The greeting -/

/-- What is recorded for a message comes from the domain of the last accepted greeting. -/
def SenderIdentified (env : Env) (x : Progress) : Prop :=
  Acknowledges env x → Records env x x.1.metadata ∧
    (dialogue x.1.log).greeting = some x.1.metadata.from_

instance : Decidable (SenderIdentified env x) := inferInstanceAs (Decidable (_ → _))

/-- The last accepted greeting names a domain, and nothing has been reset since, unless the
domain is empty. -/
def GreetingCurrent (env : Env) (x : Progress) : Prop :=
  Acknowledges env x → (dialogue x.1.log).greeting.isSome = true ∧
    ((dialogue x.1.log).renewed = false ∨ (dialogue x.1.log).greeting = some [])

/-- In every run, every message is recorded with the domain of the last accepted greeting if
and only if it is the first one under a greeting that names its domain, with no RSET before
it, or the domain is empty. -/
theorem sender_identified (env : Env) (mem : Memory) (chunks : List Bytes) :
    Run.Always (advance env) (SenderIdentified env) (start env mem, chunks) ↔
      Run.Always (advance env) (GreetingCurrent env) (start env mem, chunks) := by
  refine forall_congr' fun n => ?_
  have hagrees := agrees_always env mem chunks n
  generalize (advance env)^[n] (start env mem, chunks) = x at hagrees ⊢
  refine imp_congr_right fun hack => ?_
  have hrecords := acknowledges_records hack
  cases hgreeting : (dialogue x.1.log).greeting with
  | none => simp
  | some g =>
      have hfrom := hagrees.greeting g hgreeting
      rw [hfrom]
      cases hrenewed : (dialogue x.1.log).renewed <;> simp [hrecords]

/-- After a RSET the sender of a message is recorded as unknown. -/
theorem not_sender_identified_rset :
    ¬ ∀ (env : Env) (mem : Memory) (chunks : List Bytes),
      Run.Always (advance env) (SenderIdentified env) (start env mem, chunks) := by
  intro h
  have hstep := h (fun _ => .ideal) .zeroed
    [text "EHLO a\r\n", text "RSET\r\n", text "MAIL FROM:<>\r\n",
      text "RCPT TO:<d@e>\r\n", text "DATA\r\n", text ".\r\n"] 10
  revert hstep
  decide +kernel

/-! ### The envelope -/

/-- No RCPT without an argument gets as far as its path. -/
def RecipientsNamed (env : Env) (x : Progress) : Prop :=
  ∀ line, Handles env x line → ¬ Core.StaleRecipient line x.1.toCore

instance : Decidable (RecipientsNamed env x) :=
  inferInstanceAs (Decidable (∀ line ∈ lines (events env x), _))

/-- What is recorded for a message is its envelope: the sender of the MAIL accepted since the
last reset and the recipients accepted after it, at least one and not too many. -/
def EnvelopeRecorded (env : Env) (x : Progress) : Prop :=
  Acknowledges env x → Records env x x.1.metadata ∧
    (dialogue x.1.log).sender = some x.1.metadata.reversePath ∧
    (dialogue x.1.log).later = x.1.metadata.forwardPaths.map some ∧
    1 ≤ x.1.metadata.forwardPaths.length ∧
    x.1.metadata.forwardPaths.length ≤ x.1.maxForwardPaths

instance : Decidable (EnvelopeRecorded env x) := inferInstanceAs (Decidable (_ → _))

/-- Every recipient since the MAIL is named by its line. -/
def AllNamed (d : Dialogue) : Prop := ∀ name ∈ d.later, name.isSome = true

theorem AllNamed.eq {names : List (Option Bytes)} {paths : List Bytes}
    (h : List.Forall₂ Names names paths) (named : ∀ name ∈ names, name.isSome = true) :
    names = paths.map some := by
  induction h with
  | nil => rfl
  | @cons name path names paths hname _ ih =>
      obtain ⟨p, rfl⟩ := Option.isSome_iff_exists.mp (named name List.mem_cons_self)
      rw [ih fun name hname => named name (List.mem_cons_of_mem _ hname), hname p rfl]
      rfl

theorem allNamed_advance (named : RecipientsNamed env x) (h : AllNamed (dialogue x.1.log)) :
    AllNamed (dialogue (advance env x).1.log) := by
  have hnone : AllNamed { } := fun name hname => nomatch hname
  refine dialogue_turned (fun d line h => h) (fun d _ => hnone) (advance_turned env x)
    (fun line es r hlog hcode step => ?_) h
  unfold Dialogue.accepted
  cases hverb : verbOf line with
  | none => exact h
  | some verb =>
      cases verb with
      | ehlo => exact hnone
      | helo => exact hnone
      | mail => exact hnone
      | rcpt =>
          obtain ⟨begun, room, hargument⟩ := (step.of_accepted (log_behind_line hlog) hcode).2 hverb
          have hlen : 5 ≤ line.length := by
            have hfour := verbOf_length hverb
            have hne : line.length ≠ 4 := fun hlen =>
              named line (handles_of_log hlog) ⟨hlen, hverb, begun, room⟩
            omega
          intro name hname
          rcases List.mem_append.mp hname with hname | hname
          · exact h name hname
          · rw [List.mem_singleton.mp hname]
            exact hargument hlen
      | rset => exact hnone
      | data => exact h
      | vrfy => exact h
      | noop => exact h
      | quit => exact h

/-- In every run in which no RCPT without an argument gets as far as its path, what is
recorded for a message is its envelope. -/
theorem envelope_recorded (env : Env) (mem : Memory) (chunks : List Bytes)
    (h : Run.Always (advance env) (RecipientsNamed env) (start env mem, chunks)) :
    Run.Always (advance env) (EnvelopeRecorded env) (start env mem, chunks) := by
  have hnamed : Run.Always (advance env) (fun x => AllNamed (dialogue x.1.log))
      (start env mem, chunks) :=
    Run.Always.invariant h (fun name hname => nomatch hname) fun x => allNamed_advance
  intro n hack
  have hagrees := agrees_always env mem chunks n
  obtain ⟨hset, hpaths⟩ := hagrees.data hack.1
  refine ⟨acknowledges_records hack, ?_, AllNamed.eq hagrees.later (hnamed n), ?_, hagrees.room⟩
  · rw [hagrees.sender, if_pos hset]
  · exact List.length_pos_iff.mpr hpaths

/-- A second MAIL and a RCPT that are refused, and a NOOP, leave no trace. -/
theorem envelope_recorded_two :
    Run.Always (advance fun _ => .ideal) (EnvelopeRecorded fun _ => .ideal)
      (start (fun _ => .ideal) .zeroed, [text "EHLO a\r\nMAIL FROM:<a@b>\r\nMAIL FROM:<>\r\n",
        text "RCPT TO:<b@c>\r\nRCPT TO:b\r\nNOOP\r\nRCPT TO:<d@e>\r\nDATA\r\n.\r\n"]) := by
  refine envelope_recorded _ .zeroed _ (always_of_done 12 ?_ ?_)
  · decide +kernel
  · decide +kernel

/-- A RCPT without an argument finds a path in the line that comes after it. -/
theorem not_envelope_recorded_stale :
    ¬ ∀ (env : Env) (mem : Memory) (chunks : List Bytes),
      Run.Always (advance env) (EnvelopeRecorded env) (start env mem, chunks) := by
  intro h
  have hstep := h (fun _ => .ideal) .zeroed
    [text "EHLO a\r\n", text "MAIL FROM:<>\r\n", text "RCPT\r\nNO<a@b>\r\n",
      text "DATA\r\n", text ".\r\n"] 9
  revert hstep
  decide +kernel

end Session

end Ervan.Smtp
