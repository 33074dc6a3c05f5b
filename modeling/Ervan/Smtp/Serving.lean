import Ervan.Smtp.Delivery
import Ervan.Smtp.Envelope
import Ervan.Smtp.LineMachine
import Ervan.Smtp.Recovery
import Ervan.Smtp.Service
import Ervan.Smtp.Working

/-!
# A session serves

The session does for its client what the service does: it sends the same replies, and its delivered
files contain the messages that the service has accepted, in their order. The service follows it
line by line, and chooses for each line whether the operations behind it work.
-/

namespace Ervan.Smtp

open Framing Parse

/-- The bytes of a file with this message in it: header, contents and padding of the two members.
A tar reader finds both of them only under the condition of `archived_runs`. -/
def Message.Filed (env : Env) (m : Message) (contents : Bytes) : Prop :=
  ∃ k now now', let body := (Core.traceInfo (env k)).flatten ++ terminated m.lines
    contents = (Io.TarHeader.filled (text "message.mbox") (sizeT body.length) now).bytes ++
      (body ++ (Core.padding body.length ++
        ((Io.TarHeader.filled (text "metadata.ervan") (sizeT m.envelope.record.length) now').bytes ++
          (m.envelope.record ++ Core.padding m.envelope.record.length))))

/-- What a client is told, and what it has announced, are the same. -/
structure Service.Shows (cfg : Config) (v : Service) (c : Core) : Prop where
  state : c.state = v.phase.state
  begun : c.sessionBegun = v.begun
  senderSet : c.reverseSet = v.senderSet
  envelope : c.metadata = v.envelope
  size : c.maxDataSize = cfg.maxmessagesize
  paths : c.maxForwardPaths = cfg.maxrcpt
  replies : Smtp.replies c.log = v.replies

namespace Service.Shows

variable {env : Env} {cfg : Config} {v : Service} {c c' : Core} {line : Bytes}

theorem say (h : v.Shows cfg c) (r : Reply) : (v.say r).Shows cfg (c.reply r) where
  state := h.state
  begun := h.begun
  senderSet := h.senderSet
  envelope := h.envelope
  size := h.size
  paths := h.paths
  replies := by rw [Core.reply_log, replies_append, h.replies]; rfl

theorem renew (h : v.Shows cfg c) (fixed : ∀ n, (env n).cfg = cfg) :
    v.renew.Shows cfg (c.reset env) where
  state := rfl
  begun := h.begun
  senderSet := rfl
  envelope := rfl
  size := by rw [Core.reset, Core.answer, fixed]
  paths := by rw [Core.reset, Core.answer, fixed]
  replies := h.replies

/-- A reply with the hostname. -/
theorem hostname (h : v.Shows cfg c) (fixed : ∀ n, (env n).cfg = cfg) (r : Bytes → Reply) :
    (v.say (r cfg.hostname)).Shows cfg (c.reply (r (c.answer env).cfg.hostname)) := by
  rw [Core.answer, fixed]
  exact h.say _

/-- The operations of a step are not replies. -/
theorem files (h : v.Shows cfg c) (same : Core.SameEnvelope c c') {es : List Event}
    (hlog : c'.log = c.log ++ es) (hes : Smtp.replies es = []) : v.Shows cfg c' where
  state := same.state.trans h.state
  begun := same.sessionBegun.trans h.begun
  senderSet := same.reverseSet.trans h.senderSet
  envelope := same.metadata.trans h.envelope
  size := same.maxDataSize.trans h.size
  paths := same.maxForwardPaths.trans h.paths
  replies := by rw [hlog, replies_append, hes, List.append_nil, h.replies]

theorem greet (h : v.Shows cfg c) (fixed : ∀ n, (env n).cfg = cfg) (r : Bytes → Reply)
    (hnone : domain (Mem.ofBytes line) ⟨5, line.length - 5⟩ = none →
      c' = c.reply .invalidParameters)
    (hsome : ∀ d, domain (Mem.ofBytes line) ⟨5, line.length - 5⟩ = some d →
      ∃ c₁, c₁ = c.greeted env ((Mem.ofBytes line).read d.body.start d.body.len) ∧
        c' = c₁.reply (r (c₁.answer env).cfg.hostname)) :
    (v.greet line (r cfg.hostname)).Shows cfg
      (if line.length < 5 then c.reply .invalidParameters else c') := by
  by_cases hshort : line.length < 5
  · simp only [Service.greet, greetingOf, if_pos hshort]
    exact h.say .invalidParameters
  · simp only [Service.greet, greetingOf, if_neg hshort]
    cases hd : domain (Mem.ofBytes line) ⟨5, line.length - 5⟩ with
    | none =>
        rw [hnone hd]
        exact h.say .invalidParameters
    | some d =>
        obtain ⟨c₁, rfl, rfl⟩ := hsome d hd
        have hgreeted : Shows cfg { v.renew with
            envelope := { from_ := (Mem.ofBytes line).read d.body.start d.body.len }
            begun := true } (c.greeted env ((Mem.ofBytes line).read d.body.start d.body.len)) :=
          { h.renew fixed with begun := rfl, envelope := rfl }
        exact hgreeted.hostname fixed r

/-- A MAIL with an argument. -/
theorem mail (h : v.Shows cfg c) (hlen : 5 ≤ line.length) :
    (v.mail line).Shows cfg
      (if 5 ≤ line.length ∧ line.length < 10 then c.reply .invalidParameters
        else c.mailPath (Mem.ofBytes line) ⟨10, line.length - 10⟩) := by
  by_cases hshort : line.length < 10
  · have hsender : senderOf line = none := by rw [senderOf, if_pos hshort]
    rw [Service.mail, hsender, if_pos ⟨hlen, hshort⟩]
    exact h.say .invalidParameters
  · have hlong : ¬ (5 ≤ line.length ∧ line.length < 10) := by omega
    rw [if_neg hlong]
    unfold Service.mail senderOf parametersOf Core.mailPath
    rw [if_neg hshort]
    cases reversePath (Mem.ofBytes line) ⟨10, line.length - 10⟩ with
    | none => exact h.say .invalidParameters
    | some p =>
        have hturn : (v.senderSet || !v.begun) = (c.reverseSet || !c.sessionBegun) := by
          rw [h.senderSet, h.begun]
        rw [Option.map_some]
        dsimp only
        rw [hturn]
        split
        · exact h.say .badSequence
        · split
          · exact h.say .invalidParameters
          · have hset : Shows cfg { v with
                envelope := { v.envelope with
                  reversePath := p.mailbox.text (Mem.ofBytes line)
                  forwardPaths := [] }
                senderSet := true } (c.senderSet (p.mailbox.text (Mem.ofBytes line))) :=
              { h with senderSet := rfl, envelope := by rw [← h.envelope]; rfl }
            exact hset.say .ok

theorem rcpt (h : v.Shows cfg c) (hlen : 5 ≤ line.length) :
    (v.rcpt cfg line).Shows cfg
      (if 5 ≤ line.length ∧ line.length < 8 then c.reply .invalidParameters
        else c.rcptPath (Mem.ofBytes line) ⟨8, line.length - 8⟩) := by
  have hbegun : (!v.begun) = !c.sessionBegun := by rw [h.begun]
  have hfull : cfg.maxrcpt ≤ v.envelope.forwardPaths.length ↔
      c.maxForwardPaths ≤ c.metadata.forwardPaths.length := by rw [h.paths, h.envelope]
  unfold Service.rcpt Core.rcptPath
  rw [hbegun]
  simp only [hfull]
  split
  · exact h.say .invalidParameters
  · rename_i hshort
    have hshort : ¬ line.length < 8 := by omega
    split
    · exact h.say .badSequence
    · split
      · exact h.say .tooManyRecipients
      · unfold recipientOf
        rw [if_neg hshort]
        cases path (Mem.ofBytes line) ⟨8, line.length - 8⟩ with
        | none => exact h.say .invalidParameters
        | some p =>
            have hadded : Shows cfg { v with
                envelope := { v.envelope with
                  forwardPaths :=
                    v.envelope.forwardPaths ++ [p.mailbox.text (Mem.ofBytes line)] } }
                (c.recipientAdded (p.mailbox.text (Mem.ofBytes line))) :=
              { h with envelope := by rw [← h.envelope]; rfl }
            exact hadded.say .ok

theorem openFiles_replies (env : Env) (c : Core) :
    ∃ es, (c.openFiles env).1.log = c.log ++ es ∧ Smtp.replies es = [] := by
  obtain ⟨path, ok, es, hlog, hfile, -⟩ := (Core.openFiles_opened env c).log
  refine ⟨_, hlog, replies_eq_nil fun e he => ?_⟩
  rcases List.mem_cons.mp he with rfl | he
  · exact Or.inr ⟨path, ok, rfl⟩
  · exact Or.inl (hfile e he)

theorem data (h : v.Shows cfg c) : (v.data (c.openFiles env).2).Shows cfg (c.data env) := by
  have hturn : (!v.senderSet || v.envelope.forwardPaths.length == 0) =
      (!c.reverseSet || c.metadata.forwardPaths.length == 0) := by rw [h.senderSet, h.envelope]
  unfold Service.data Core.data
  rw [hturn]
  split
  · exact h.say .badSequence
  · obtain ⟨es, hlog, hes⟩ := openFiles_replies env c
    have hopened := h.files (Core.openFiles_sameEnvelope env c) hlog hes
    dsimp only
    split
    · exact hopened.say .localError
    · have hentered : Shows cfg { v with phase := .data [] } (c.openFiles env).1.dataEntered :=
        { hopened with state := rfl }
      exact hentered.say .startData

/-- A command that is not a MAIL or a RCPT without an argument. -/
theorem command (h : v.Shows cfg c) (fixed : ∀ n, (env n).cfg = cfg) (argued : ¬ Bare line) :
    (v.command cfg (c.openFiles env).2 line).Shows cfg (c.command env line) := by
  unfold Service.command Core.command
  have hargument (hpath : verbOf line = some .mail ∨ verbOf line = some .rcpt) :
      5 ≤ line.length := by
    have hfour : 4 ≤ line.length := by
      rcases hpath with hverb | hverb <;> exact Session.verbOf_length hverb
    have hne : line.length ≠ 4 := fun hlen => argued ⟨hlen, hpath⟩
    omega
  cases hverb : verbOf line with
  | none => exact h.say .invalidCommand
  | some verb =>
      cases verb with
      | ehlo =>
          exact h.greet fixed .ehlo (fun hd => by rw [Core.ehlo, hd])
            fun d hd => ⟨_, rfl, by rw [Core.ehlo, hd]; rfl⟩
      | helo =>
          exact h.greet fixed .helo (fun hd => by rw [Core.helo, hd])
            fun d hd => ⟨_, rfl, by rw [Core.helo, hd]; rfl⟩
      | mail => exact h.mail (hargument (Or.inl hverb))
      | rcpt => exact h.rcpt (hargument (Or.inr hverb))
      | data => exact h.data
      | rset => exact (h.renew fixed).say .ok
      | vrfy => exact h.say .notImplemented
      | noop => exact h.say .ok
      | quit => exact { h.hostname fixed .quit with state := rfl }

/-- A line of the data phase that does not end it. -/
theorem received (h : v.Shows cfg c) (env : Env) {lines : List Bytes} (hphase : v.phase = .data lines)
    (going : ¬ (EndsData line ∧ line.length ≤ 1022)) :
    Shows cfg { v with phase := .data (lines ++ [line]) } (c.received env line) := by
  have hadded : Shows cfg { v with phase := .data (lines ++ [line]) } c :=
    { h with state := by rw [h.state, hphase]; rfl }
  unfold Core.received
  by_cases hlen : line.length ≤ 1022
  · have hends : ¬ EndsData line := fun hends => going ⟨hends, hlen⟩
    rw [if_pos hlen, Core.dataLine, if_neg hends]
    obtain ⟨es, hlog, hes⟩ := (Core.store_steps env line c).replies
    rw [Core.measureLine_eq] at hlog
    exact hadded.files (Core.store_sameEnvelope env line c) hlog hes
  · rw [if_neg hlen]
    exact hadded.files ⟨rfl, rfl, rfl, rfl, rfl, rfl⟩ (List.append_nil _).symm rfl

/-- A transaction that is aborted. -/
theorem aborted (h : v.Shows cfg c) (fixed : ∀ n, (env n).cfg = cfg) {c₁ : Core}
    (hsteps : Core.Steps env c c₁) {r : Reply} (hr : c₁.abortReply = some r) :
    (v.renew.say r).Shows cfg (c₁.abortData env) := by
  obtain ⟨es, hlog, hes⟩ := hsteps.replies
  rw [Core.abortData_eq, hr, hlog]
  constructor
  · rfl
  · exact (hsteps.same Core.sessionBegun fun _ _ _ _ => rfl).trans h.begun
  · rfl
  · rfl
  · exact congrArg Config.maxmessagesize (fixed _)
  · exact congrArg Config.maxrcpt (fixed _)
  · simp only [replies_append, hes, h.replies, List.append_assoc]
    rfl

/-- A transaction whose file is complete. -/
theorem finished (h : v.Shows cfg c) (fixed : ∀ n, (env n).cfg = cfg) {c₁ : Core}
    (hsteps : Core.Steps env c c₁) (messages : List Message) :
    ({ v.renew with messages := messages }.say .ok).Shows cfg
      ((c₁.syncFile env).1.finishReply env) := by
  obtain ⟨es, hlog, hes⟩ := hsteps.replies
  rw [Core.finishReply_eq, hlog]
  constructor
  · rfl
  · exact (hsteps.same Core.sessionBegun fun _ _ _ _ => rfl).trans h.begun
  · rfl
  · rfl
  · exact congrArg Config.maxmessagesize (fixed _)
  · exact congrArg Config.maxrcpt (fixed _)
  · simp only [replies_append, hes, h.replies, List.append_assoc]
    rfl

end Service.Shows

namespace Core

variable {env : Env} {exact : Prop} {cfg : Config} {c c' : Core} {line : Bytes} {lines : List Bytes}

/-- The limits are exceeded when the lines received so far exceed them. -/
structure Gathers (cfg : Config) (c : Core) (lines : List Bytes) : Prop where
  long : c.lineTooLong = overlong lines
  big : c.dataTooLong = decide (cfg.maxmessagesize < receivedSize lines)
  size : c.dataTooLong = false → c.dataSize = receivedSize lines

theorem Gathers.stored (h : c.Gathers cfg lines) (hmax : c.maxDataSize = cfg.maxmessagesize)
    (room : cfg.maxmessagesize + 1024 < 2 ^ 64) (hlen : line.length ≤ 1022) :
    (c.store env line).Gathers cfg (lines ++ [line]) := by
  have hsize : receivedSize (lines ++ [line]) =
      receivedSize lines + ((unstuff line).length + 2) := by
    simp [receivedSize, wireSize, hlen]
  have hunstuffed : (unstuff line).length ≤ line.length := by
    unfold unstuff
    split <;> simp
  obtain ⟨hdataSize, hlong, hbig⟩ := store_members env line c
  rw [hmax] at hbig
  have hcount (hsmall : c.dataTooLong = false) :
      (c.dataSize + ((unstuff line).length + 2)) % 2 ^ 64 = receivedSize (lines ++ [line]) := by
    have hlimit := h.big
    rw [hsmall, Bool.false_eq, decide_eq_false_iff_not] at hlimit
    rw [hsize, h.size hsmall]
    exact Nat.mod_eq_of_lt (by omega)
  refine ⟨?_, ?_, fun hsmall => ?_⟩
  · rw [hlong, h.long]
    simp [overlong]
  · rw [hbig]
    cases hflag : c.dataTooLong with
    | false => rw [hcount hflag, Bool.false_or]
    | true =>
        have hlimit := h.big
        rw [hflag, Bool.true_eq, decide_eq_true_eq] at hlimit
        rw [Bool.true_or, Bool.true_eq, decide_eq_true_eq, hsize]
        omega
  · rw [hbig, Bool.or_eq_false_iff] at hsmall
    rw [hdataSize, hcount hsmall.1]

theorem Gathers.received (h : c.Gathers cfg lines) (hmax : c.maxDataSize = cfg.maxmessagesize)
    (room : cfg.maxmessagesize + 1024 < 2 ^ 64)
    (going : ¬ (EndsData line ∧ line.length ≤ 1022)) :
    (c.received env line).Gathers cfg (lines ++ [line]) := by
  unfold Core.received
  by_cases hlen : line.length ≤ 1022
  · have hends : ¬ EndsData line := fun hends => going ⟨hends, hlen⟩
    rw [if_pos hlen, dataLine, if_neg hends]
    exact h.stored hmax room hlen
  · have hsize : receivedSize (lines ++ [line]) = receivedSize lines := by
      simp [receivedSize, hlen]
    have hunstuffed : line.length ≤ (unstuff line).length + 1 := by
      unfold unstuff
      split <;> simp
      omega
    rw [if_neg hlen]
    refine ⟨?_, by rw [hsize]; exact h.big, by rw [hsize]; exact h.size⟩
    simp [overlong, dataLine]
    omega

/-- A command line has one of its outcomes. -/
theorem command_argued (env : Env) (exact : Prop) (c : Core) (argued : ¬ Bare line) :
    Commanded env exact line c (c.command env line) := by
  by_cases hlen : 5 ≤ line.length
  · exact command_commanded hlen
  · unfold command
    cases hverb : verbOf line with
    | none => exact .refused _ (by decide)
    | some verb =>
        have hfour : line.length = 4 := by
          have hlong := Session.verbOf_length hverb
          omega
        cases verb with
        | ehlo =>
            simp only [if_pos (Nat.lt_of_not_le hlen)]
            exact .refused _ (by decide)
        | helo =>
            simp only [if_pos (Nat.lt_of_not_le hlen)]
            exact .refused _ (by decide)
        | mail => exact absurd ⟨hfour, Or.inl hverb⟩ argued
        | rcpt => exact absurd ⟨hfour, Or.inr hverb⟩ argued
        | data => exact data_commanded hverb
        | rset => exact .reset hverb
        | vrfy => exact .refused _ (by decide)
        | noop => exact .noop hverb
        | quit => exact .closed hverb _ (by simp [Reply.quit])

theorem received_turned (env : Env) (exact : Prop) (hstate : c.state = .data) (line : Bytes) :
    Turned env exact c (c.received env line) := by
  unfold Core.received
  split
  · rw [dataLine]
    split
    · exact .ended hstate
    · exact .stored hstate line
  · exact .longData hstate

theorem Carries.received (h : c.Carries env lines) (hstate : c.state = .data)
    (going : ¬ (EndsData line ∧ line.length ≤ 1022)) :
    (c.received env line).Carries env (lines ++ [line]) := by
  unfold Core.received
  by_cases hlen : line.length ≤ 1022
  · have hends : ¬ EndsData line := fun hends => going ⟨hends, hlen⟩
    rw [if_pos hlen, dataLine, if_neg hends]
    exact h.stored hstate line
  · rw [if_neg hlen]
    intro _ _ hshort
    cases hshort

theorem received_clear (h : c.Fine) (works : ∀ n, (env n).Works) :
    (c.received env line).dataError = false := by
  unfold Core.received
  split
  · rw [dataLine]
    split
    · exact endData_works h works
    · exact (store_works h works line).clear
  · exact h.clear

/-- DATA is accepted with both limits far away. -/
theorem Turned.gathers (step : Turned env exact c c') (before : c.state ≠ .data)
    (after : c'.state = .data) : c'.Gathers cfg [] := by
  cases step with
  | idle => exact absurd after before
  | longCommand state => exact absurd (state.symm.trans after) (by decide)
  | command state line _ step =>
      obtain ⟨-, -, -, -, rfl⟩ := step.entered_of_data state after
      exact ⟨rfl, rfl, fun _ => rfl⟩
  | longData state => exact absurd state before
  | stored state line => exact absurd state before
  | ended state => exact absurd state before

end Core

/-- The session does what the service does. When everything works, no error is set. -/
structure Serves (env : Env) (cfg : Config) (removed : Nat → Bool) (everything : Prop)
    (v : Service) (c : Core) : Prop extends v.Shows cfg c where
  gathers : ∀ lines, v.phase = .data lines → c.Gathers cfg lines ∧ c.Carries env lines
  filed : List.Forall₂ (Message.Filed env) v.messages
    ((c.trail env removed).delivered.map Prod.snd)
  trailed : c.Trailed env removed
  answered : c.Answered env removed
  spooled : c.Spooled
  file : c.HasFile
  clear : everything → c.dataError = false

namespace Serves

variable {env : Env} {cfg : Config} {removed : Nat → Bool} {everything exact : Prop}
  {v v' : Service} {c c' : Core} {line : Bytes} {lines : List Bytes}

/-- What holds of the session in any case. -/
theorem turned (h : Serves env cfg removed everything v c) (step : Core.Turned env exact c c')
    (shows' : v'.Shows cfg c')
    (gathers : ∀ lines, v'.phase = .data lines → c'.Gathers cfg lines ∧ c'.Carries env lines)
    (filed : List.Forall₂ (Message.Filed env) v'.messages
      ((c'.trail env removed).delivered.map Prod.snd))
    (clear : everything → c'.dataError = false) : Serves env cfg removed everything v' c' where
  toShows := shows'
  gathers := gathers
  filed := filed
  trailed := h.trailed.turned step
  answered := step.answered h.answered h.trailed
  spooled := h.spooled.turned step
  file := h.file.turned step
  clear := clear

/-- A turn outside the end of a data phase. -/
theorem going (h : Serves env cfg removed everything v c) (step : Core.Turned env exact c c')
    (shows' : v'.Shows cfg c') (messages : v'.messages = v.messages)
    (going : c.state ≠ .data ∨ c'.state = .data)
    (gathers : ∀ lines, v'.phase = .data lines → c'.Gathers cfg lines ∧ c'.Carries env lines)
    (clear : everything → c'.dataError = false) : Serves env cfg removed everything v' c' := by
  refine h.turned step shows' gathers ?_ clear
  rw [messages, step.delivered h.answered h.trailed going]
  exact h.filed

theorem command (h : Serves env cfg removed everything v c) (fixed : ∀ n, (env n).cfg = cfg)
    (hphase : v.phase = .cmd) (argued : ¬ Bare line) :
    Serves env cfg removed everything
      (v.command cfg ((c.emit (.line line)).openFiles env).2 line)
      ((c.emit (.line line)).command env line) := by
  have hstate : c.state = .cmd := by rw [h.state, hphase]; rfl
  have hcmd : c.state ≠ .data := by rw [hstate]; decide
  have hcommanded := Core.command_argued env True (c.emit (.line line)) argued
  have step : Core.Turned env True c _ := .command hstate line _ hcommanded
  have hline : v.Shows cfg (c.emit (.line line)) :=
    h.files ⟨rfl, rfl, rfl, rfl, rfl, rfl⟩ rfl rfl
  have hshows := hline.command fixed argued
  have hkeeps : v.Keeps (v.command cfg ((c.emit (.line line)).openFiles env).2 line) :=
    Service.command_keeps hphase _
  refine h.going step hshows hkeeps.messages (Or.inl hcmd) (fun lines hdata => ?_) fun hall => ?_
  · have hentered : ((c.emit (.line line)).command env line).state = .data := by
      rw [hshows.state, hdata]
      rfl
    obtain rfl := hkeeps.phase lines hdata
    exact ⟨step.gathers hcmd hentered, step.carries hcmd⟩
  · rw [hcommanded.error]
    exact h.clear hall

theorem received (h : Serves env cfg removed everything v c)
    (room : cfg.maxmessagesize + 1024 < 2 ^ 64) (works : everything → ∀ n, (env n).Works)
    (hphase : v.phase = .data lines) (going : ¬ (EndsData line ∧ line.length ≤ 1022)) :
    Serves env cfg removed everything { v with phase := .data (lines ++ [line]) }
      (c.received env line) := by
  have hstate : c.state = .data := by rw [h.state, hphase]; rfl
  have hshows := h.toShows.received env hphase going
  obtain ⟨hgathers, hcarries⟩ := h.gathers lines hphase
  have hafter : (c.received env line).state = .data := hshows.state
  refine h.going (Core.received_turned env True hstate line) hshows rfl
    (Or.inr hafter) (fun lines' hlines => ?_) fun hall => ?_
  · injection hlines with hlines
    subst hlines
    exact ⟨hgathers.received h.size room going, hcarries.received hstate going⟩
  · exact Core.received_clear ⟨h.file hstate, h.clear hall⟩ (works hall)

/-- The end of the data, with the outcome that the service chooses. -/
theorem ended (h : Serves env cfg removed everything v c) (fixed : ∀ n, (env n).cfg = cfg)
    (posix : ∀ n, (env n).told = true) (works : everything → ∀ n, (env n).Works)
    (hphase : v.phase = .data lines) :
    ∃ b, (everything → b = true) ∧
      Serves env cfg removed everything (v.finish cfg b lines) (c.endData env) := by
  have hstate : c.state = .data := by rw [h.state, hphase]; rfl
  obtain ⟨hgathers, hcarries⟩ := h.gathers lines hphase
  have hspooling := h.trailed.inside hstate
  have step : Core.Turned env True c (c.endData env) := .ended hstate
  have hclear (hall : everything) : (c.endData env).dataError = false :=
    Core.endData_works ⟨h.file hstate, h.clear hall⟩ (works hall)
  have haborted (c₁ : Core) (hsteps : Core.Steps env c c₁) (heq : c.endData env = c₁.abortData env)
      {r : Reply} (hr : c₁.abortReply = some r) :
      Serves env cfg removed everything (v.renew.say r) (c.endData env) := by
    refine h.turned step ?_ (fun lines' hlines => by cases hlines) ?_ hclear
    · rw [heq]
      exact h.toShows.aborted fixed hsteps hr
    · have hkept := (Core.abortData_mirrored (hsteps.admitted h.trailed.admitted)
        (hsteps.spooling hspooling)).2
      rw [heq, hkept, (hsteps.trail removed).2.2.2]
      exact h.filed
  have hended := Core.endData_ended env c
  generalize hc' : c.endData env = c' at hended
  rw [hc'] at haborted hclear step
  cases hended with
  | tooLong hflag =>
      refine ⟨true, fun _ => rfl, ?_⟩
      by_cases hbig : cfg.maxmessagesize < receivedSize lines
      · rw [Service.finish_big hbig]
        have hdata : c.dataTooLong = true := by rw [hgathers.big, decide_eq_true hbig]
        refine haborted c (Core.Steps.refl env c) rfl ?_
        rw [Core.abortReply, if_pos hdata]
      · have hdata : c.dataTooLong = false := by rw [hgathers.big, decide_eq_false hbig]
        have hlong := hflag.resolve_right (by rw [hdata]; decide)
        rw [Service.finish_long hbig (hgathers.long ▸ hlong)]
        refine haborted c (Core.Steps.refl env c) rfl ?_
        rw [Core.abortReply, hdata, hlong]
        rfl
  | finished short small _ hfinished =>
      have hshort : overlong lines = false := hgathers.long ▸ short
      have hsmall := hgathers.big
      rw [small, Bool.false_eq, decide_eq_false_iff_not] at hsmall
      cases hfinished with
      | unknown hneg =>
          have htold := (Core.tellg_neg env (h.file hstate)).mp hneg
          rw [Core.answer, posix] at htold
          cases htold
      | failed known c₁ hsteps error =>
          have hkept : (c₁.abortData env).dataError = c₁.dataError := by rw [Core.abortData_eq]
          refine ⟨false, fun hall => ?_, ?_⟩
          · rw [hclear hall, error] at hkept
            cases hkept
          · rw [Service.finish_within hsmall hshort]
            refine haborted c₁ hsteps rfl ?_
            have hlong := hsteps.same Core.lineTooLong fun _ _ _ _ => rfl
            have hbig := hsteps.same Core.dataTooLong fun _ _ _ _ => rfl
            rw [Core.abortReply, hbig, small, hlong, short, error]
            rfl
      | done known c₁ hsteps clear eq accepted =>
          refine ⟨true, fun _ => rfl, ?_⟩
          rw [Service.finish_within hsmall hshort]
          have hmirrored : c₁.Mirrored env removed := by
            rw [eq]
            exact (h.trailed.tellg.finishMessage _).finishMetadata
          have hsent := (Core.finishReply_mirrored hmirrored (hsteps.spooling hspooling)).2
          have hdone : Core.Completed env c c₁ := ⟨short, small, known, hsteps, clear, eq, accepted⟩
          have hbody := hcarries.body_eq hstate (hsteps.clear clear) short small
          obtain ⟨now, now', hholds⟩ := h.spooled.completed hstate posix hdone
          refine h.turned step (h.toShows.finished fixed hsteps _)
            (fun lines' hlines => by cases hlines) ?_ hclear
          rw [hsent, (hsteps.trail removed).2.2.2, List.map_append]
          refine List.rel_append h.filed (.cons ⟨c.opening + 2, now, now', ?_⟩ .nil)
          have hfile : c₁.dataFile = some _ := hholds
          rw [hfile]
          dsimp only [Option.map_some, Option.getD_some]
          rw [← Core.traced, ← hbody, ← h.envelope]
          rfl

/-- Every line that a session hears, the service hears too. -/
theorem hear (h : Serves env cfg removed everything v c) (fixed : ∀ n, (env n).cfg = cfg)
    (posix : ∀ n, (env n).told = true) (room : cfg.maxmessagesize + 1024 < 2 ^ 64)
    (works : everything → ∀ n, (env n).Works) (argued : c.Argued line) :
    ∃ b, (everything → b = true) ∧
      Serves env cfg removed everything (v.hear cfg b line) (c.hear env line) := by
  have hstate := h.state
  unfold Service.hear Core.hear
  cases hphase : v.phase with
  | closed =>
      rw [hphase] at hstate
      rw [hstate]
      exact ⟨true, fun _ => rfl, h⟩
  | cmd =>
      rw [hphase] at hstate
      rw [hstate]
      dsimp only
      by_cases hlen : line.length ≤ 510
      · simp only [if_pos hlen]
        exact ⟨_, fun hall => Core.openFiles_works (works hall) (c.emit (.line line)),
          h.command fixed hphase (argued hstate)⟩
      · simp only [if_neg hlen]
        have hcmd : c.state ≠ .data := by rw [hstate]; decide
        have step : Core.Turned env True c _ := .longCommand hstate
        refine ⟨true, fun _ => rfl, h.going step (h.toShows.say .exceededLine) rfl (Or.inl hcmd)
          (fun lines hdata => ?_) h.clear⟩
        exact absurd (hphase.symm.trans hdata) (by simp)
  | data lines =>
      rw [hphase] at hstate
      rw [hstate]
      dsimp only
      by_cases hends : EndsData line ∧ line.length ≤ 1022
      · obtain ⟨b, hb, hended⟩ := h.ended fixed posix works hphase
        refine ⟨b, hb, ?_⟩
        rwa [if_pos hends, Core.received, if_pos hends.2, Core.dataLine, if_pos hends.1]
      · refine ⟨true, fun _ => rfl, ?_⟩
        rw [if_neg hends]
        exact h.received room works hphase hends

end Serves

namespace Session

variable {env : Env} {cfg : Config}

/-- A session that has greeted serves as a service that has greeted. -/
theorem serves_start (fixed : ∀ n, (env n).cfg = cfg) (removed : Nat → Bool) (mem : Memory) :
    Serves env cfg removed ((∀ n, (env n).Works) ∧ mem.dataError = false) (Service.start cfg)
      (start env mem).toCore where
  state := rfl
  begun := rfl
  senderSet := rfl
  envelope := rfl
  size := congrArg Config.maxmessagesize (fixed 0)
  paths := congrArg Config.maxrcpt (fixed 0)
  replies := congrArg (fun cfg : Config => [Reply.greeter cfg.hostname]) (fixed 0)
  gathers := fun lines hdata => by cases hdata
  filed := .nil
  trailed := trailed_always env removed mem [] 0
  answered := (answered_always env removed mem [] 0).2
  spooled := spooled_always env mem [] 0
  file := fun hdata => by cases hdata
  clear := fun hall => hall.2

/-- The service follows a session through the lines of the stream. -/
theorem exists_serves (env : Env) (cfg : Config) (fixed : ∀ n, (env n).cfg = cfg)
    (posix : ∀ n, (env n).told = true) (room : cfg.maxmessagesize + 1024 < 2 ^ 64)
    (removed : Nat → Bool) (mem : Memory) (chunks : List Bytes) (h : ByLine env mem chunks) :
    ∃ outcomes : List Bool, outcomes.length = (splitCrlf [] chunks.flatten).1.length ∧
      (∀ b ∈ outcomes, (∀ n, (env n).Works) ∧ mem.dataError = false → b = true) ∧
      Serves env cfg removed ((∀ n, (env n).Works) ∧ mem.dataError = false)
        ((Service.start cfg).hearAll cfg (outcomes.zip (splitCrlf [] chunks.flatten).1))
        ((start env mem).feedAll env chunks).toCore := by
  obtain ⟨t, follows, reads⟩ := exists_reads env mem h.cmd h.line
  obtain ⟨outcomes, hlength, hall, hserves⟩ := Run.exists_choices (f := Core.hear env)
    (h := fun v b line => v.hear cfg b line)
    (fun c v line (serves : Serves env cfg removed _ v c) argued =>
      serves.hear fixed posix room (fun hall => hall.1) argued)
    (serves_start fixed removed mem) h.argued
  rw [feedAll_reads env follows reads h.short h.last h.argued]
  exact ⟨outcomes, hlength, hall, hserves⟩

/-- A session refines the service: the replies, the state, the envelope and the delivered files are
those of a service that hears the lines of the stream, for some choice of which lines work. They
all do when every operation works. The limit for a message leaves room for one more line. -/
theorem serves_lines (env : Env) (cfg : Config) (fixed : ∀ n, (env n).cfg = cfg)
    (posix : ∀ n, (env n).told = true) (room : cfg.maxmessagesize + 1024 < 2 ^ 64)
    (removed : Nat → Bool) (mem : Memory) (chunks : List Bytes) (h : ByLine env mem chunks) :
    ∃ outcomes : List Bool, outcomes.length = (splitCrlf [] chunks.flatten).1.length ∧
      ((∀ n, (env n).Works) → mem.dataError = false → ∀ b ∈ outcomes, b = true) ∧
      let v := (Service.start cfg).hearAll cfg (outcomes.zip (splitCrlf [] chunks.flatten).1)
      let c := ((start env mem).feedAll env chunks).toCore
      v.Shows cfg c ∧ List.Forall₂ (Message.Filed env) v.messages
        ((c.trail env removed).delivered.map Prod.snd) := by
  obtain ⟨outcomes, hlength, hall, hserves⟩ := exists_serves env cfg fixed posix room removed mem
    chunks h
  exact ⟨outcomes, hlength, fun works clear b hb => hall b hb ⟨works, clear⟩, hserves.toShows,
    hserves.filed⟩

/-- Everything works, and a message has room for ten bytes. -/
def tight : Env := fun _ => { Answer.ideal with cfg := ⟨text "mx.example", 10, 100⟩ }

/-- Two messages, the second of them too large. -/
def twoMessages : List Bytes :=
  [text "HELO a\r\nMAIL FROM:<a@b>\r\nRCPT TO:<c@d>\r\nDA", text "TA\r\n..\r", text "\n.\r\n",
    text "MAIL FROM:<>\r\nRCPT TO:<c@d>\r\nDATA\r\n123456789\r\n.\r\nQUIT\r\n"]

theorem byLine_twoMessages (env : Env) : ByLine env .zeroed twoMessages := by
  have hbare : ∀ line ∈ (splitCrlf [] twoMessages.flatten).1, ¬ Bare line := by decide +kernel
  exact ⟨by decide, by decide, by decide +kernel, by decide +kernel,
    Run.along_of_forall fun line hline _ _ => hbare line hline⟩

theorem serves_lines_two :
    let v := (Service.start (tight 0).cfg).hearAll (tight 0).cfg
      ((splitCrlf [] twoMessages.flatten).1.map (true, ·))
    Smtp.replies ((start tight .zeroed).feedAll tight twoMessages).log = v.replies ∧
      v.messages.map Message.lines = [[text "."]] := by
  have hworks (n : Nat) : (tight n).Works := ⟨rfl, rfl, rfl, nofun⟩
  obtain ⟨outcomes, hlength, hall, hshows, -⟩ := serves_lines tight (tight 0).cfg
    (fun _ => rfl) (fun _ => rfl) (by decide) (fun _ => true) .zeroed twoMessages
    (byLine_twoMessages tight)
  have houtcomes : outcomes = List.replicate outcomes.length true :=
    List.eq_replicate_iff.mpr ⟨rfl, hall hworks rfl⟩
  have hreplies := hshows.replies
  rw [houtcomes, hlength] at hreplies
  refine ⟨hreplies.trans ?_, ?_⟩
  · decide +kernel
  · decide +kernel

end Session

end Ervan.Smtp
