import Ervan.Library.Conversation
import Ervan.Smtp.Client

/-!
# A client that waits

A client that looks at every reply before it goes on. It gives a mail up when the sender is refused,
when no recipient is left or when DATA is refused, and it keeps a receipt of every mail whose end
has been answered with 250. Its receipts are the messages that the service has accepted, whichever
of its lines have worked.
-/

namespace Ervan.Smtp

open Conversation Grammar Parse

/-- Where a client is. The recipients kept are those that have been accepted. -/
inductive Stage where
  | greeting
  | idle
  | recipient (m : Mail) (a : Address) (rest : List Address) (kept : List Bytes)
  | data (m : Mail) (kept : List Bytes)
  | lines (m : Mail) (kept : List Bytes) (rest : List Bytes)
  | reset
  | gone

/-- What the client knows of a mail that has been accepted. -/
structure Receipt where
  sender : Bytes
  recipients : List Bytes
  lines : List Bytes
  deriving DecidableEq, Repr

structure Caller where
  name : Bytes
  todo : List Mail
  quits : Bool
  stage : Stage
  receipts : List Receipt

/-- The next recipient, DATA if there are none left, or RSET if none has been accepted. -/
def Stage.next (m : Mail) : List Address → List Bytes → Stage
  | a :: rest, kept => .recipient m a rest kept
  | [], [] => .reset
  | [], kept => .data m kept

/-- The reply has the code. -/
def replied (code : Nat) (reply : Option Reply) : Bool := reply.any (·.code = code)

namespace Caller

/-- The line that the client sends next. -/
def line (p : Caller) : Option Bytes :=
  match p.stage with
  | .greeting => some (commandLine .ehlo p.name)
  | .idle =>
      match p.todo with
      | [] => if p.quits then some (Verb.name .quit) else none
      | m :: _ => some m.mailLine
  | .recipient _ a _ _ => some (Mail.rcptLine a)
  | .data _ _ => some (Verb.name .data)
  | .lines _ _ [] => some (text ".")
  | .lines _ _ (l :: _) => some (stuff l)
  | .reset => some (Verb.name .rset)
  | .gone => none

/-- What the client does with the reply to that line. -/
def hear (p : Caller) (reply : Option Reply) : Caller :=
  match p.stage with
  | .greeting => { p with stage := .idle }
  | .idle =>
      match p.todo with
      | [] => { p with stage := .gone }
      | m :: todo =>
          { p with
            todo
            stage := if replied 250 reply then .next m m.recipients [] else .idle }
  | .recipient m a rest kept =>
      { p with stage := .next m rest (if replied 250 reply then kept ++ [a.kept] else kept) }
  | .data m kept => { p with stage := if replied 354 reply then .lines m kept m.lines else .reset }
  | .lines m kept (_ :: rest) => { p with stage := .lines m kept rest }
  | .lines m kept [] =>
      { p with
        stage := .idle
        receipts := p.receipts ++
          if replied 250 reply then [Receipt.mk m.senderKept kept m.lines] else [] }
  | .reset => { p with stage := .idle }
  | .gone => p

/-- The client waits for a reply to its line. There is none to a line of a message. -/
def waits (p : Caller) : Bool :=
  match p.stage with
  | .lines _ _ (_ :: _) => false
  | _ => true

def speaker : Speaker Caller Bytes Reply := ⟨line, hear⟩

/-- A client with mails to send. -/
def start (c : Client) : Caller := ⟨c.name, c.mails, c.quits, .greeting, []⟩

end Caller

/-- The receipt is for the message. -/
structure Receipt.For (r : Receipt) (m : Message) : Prop where
  sender : m.envelope.reversePath = r.sender
  recipients : m.envelope.forwardPaths = r.recipients
  lines : m.lines = r.lines

/-- The service is where the client is. -/
def Stage.InStep (v : Service) : Stage → Prop
  | .greeting | .idle | .reset => v.phase = .cmd
  | .recipient m _ _ kept | .data m kept =>
      v.phase = .cmd ∧ v.envelope.reversePath = m.senderKept ∧ v.envelope.forwardPaths = kept
  | .lines m kept rest =>
      (∃ sent, m.lines = sent ++ rest ∧ v.phase = .data (sent.map stuff)) ∧
        v.envelope.reversePath = m.senderKept ∧ v.envelope.forwardPaths = kept
  | .gone => v.phase = .closed

/-- The client has a receipt for every message that the service has accepted, and for no other. -/
structure Caller.Agrees (p : Caller) (v : Service) : Prop where
  stage : p.stage.InStep v
  receipts : List.Forall₂ Receipt.For p.receipts v.messages

namespace Service

variable {cfg : Config} {v v' : Service} {line : Bytes} {code : Nat}

/-- The reply has another code, and nothing else happens. -/
def Refuses (code : Nat) (v v' : Service) : Prop := ∃ r : Reply, r.code ≠ code ∧ v' = v.say r

/-- The reply to a line whose effect is known. -/
theorem replied_of_say {w : Service} {r : Reply} (hsaid : v' = w.say r)
    (hreplies : w.replies = v.replies) (code : Nat) :
    replied code (answer v.replies v'.replies) = decide (r.code = code) := by
  rw [hsaid, say, hreplies, answer_append, replied, Option.any_some]

theorem Refuses.not_replied {w : Service} (h : w.Refuses code v') (hreplies : w.replies = v.replies) :
    replied code (answer v.replies v'.replies) = false := by
  obtain ⟨r, hr, hsaid⟩ := h
  rw [replied_of_say hsaid hreplies, decide_eq_false hr]

/-- A command is refused for its length, or handled. -/
theorem hear_command (hphase : v.phase = .cmd) (works : Bool) (line : Bytes) :
    v.hear cfg works line = v.say .exceededLine ∨
      v.hear cfg works line = v.command cfg works line := by
  rw [hear, hphase]
  dsimp only
  split
  · exact Or.inr rfl
  · exact Or.inl rfl

/-- A greeting does not begin a message. -/
theorem hear_greeting (hphase : v.phase = .cmd) (works : Bool) (argument : Bytes) :
    (v.hear cfg works (commandLine .ehlo argument)).phase = .cmd ∧
      (v.hear cfg works (commandLine .ehlo argument)).messages = v.messages := by
  rcases hear_command hphase works (commandLine .ehlo argument) with h | h
  · rw [h]
    exact ⟨hphase, rfl⟩
  · rw [h, command, verbOf_commandLine]
    dsimp only
    unfold greet
    split
    · exact ⟨hphase, rfl⟩
    · exact ⟨rfl, rfl⟩

/-- The sender of a mail is taken, or refused. -/
theorem hear_mail (hphase : v.phase = .cmd) (works : Bool) (m : Mail)
    (hsmall : m.mailLine.length < 2 ^ 64) :
    v.Refuses 250 (v.hear cfg works m.mailLine) ∨
      v.hear cfg works m.mailLine =
        { v with
          envelope := { v.envelope with reversePath := m.senderKept, forwardPaths := [] }
          senderSet := true }.say .ok := by
  rcases hear_command hphase works m.mailLine with h | h
  · exact Or.inl ⟨_, by decide, h⟩
  · have hverb : verbOf m.mailLine = some .mail := verbOf_commandLine _ _
    rw [h, command, hverb]
    dsimp only
    rw [mail, (senderOf_mailLine m hsmall).1]
    dsimp only
    split
    · exact Or.inl ⟨_, by decide, rfl⟩
    · split
      · exact Or.inl ⟨_, by decide, rfl⟩
      · exact Or.inr rfl

/-- A recipient is added, or refused. -/
theorem hear_rcpt (hphase : v.phase = .cmd) (works : Bool) (a : Address)
    (hsmall : (Mail.rcptLine a).length < 2 ^ 64) :
    v.Refuses 250 (v.hear cfg works (Mail.rcptLine a)) ∨
      v.hear cfg works (Mail.rcptLine a) =
        { v with
          envelope := { v.envelope with
            forwardPaths := v.envelope.forwardPaths ++ [a.kept] } }.say .ok := by
  rcases hear_command hphase works (Mail.rcptLine a) with h | h
  · exact Or.inl ⟨_, by decide, h⟩
  · have hverb : verbOf (Mail.rcptLine a) = some .rcpt := verbOf_commandLine _ _
    rw [h, command, hverb]
    dsimp only
    rw [rcpt, (recipientOf_rcptLine a hsmall).2]
    dsimp only
    split
    · exact Or.inl ⟨_, by decide, rfl⟩
    · split
      · exact Or.inl ⟨_, by decide, rfl⟩
      · split
        · exact Or.inl ⟨_, by decide, rfl⟩
        · exact Or.inr rfl

/-- A message is begun, or refused. -/
theorem hear_data (hphase : v.phase = .cmd) (works : Bool) :
    v.Refuses 354 (v.hear cfg works (Verb.name .data)) ∨
      v.hear cfg works (Verb.name .data) = { v with phase := .data [] }.say .startData := by
  rcases hear_command hphase works (Verb.name .data) with h | h
  · exact Or.inl ⟨_, by decide, h⟩
  · rw [h, command, verbOf_name]
    dsimp only
    unfold data
    split
    · exact Or.inl ⟨_, by decide, rfl⟩
    · split
      · exact Or.inl ⟨_, by decide, rfl⟩
      · exact Or.inr rfl

/-- A line of a message is received. -/
theorem hear_stuff {lines : List Bytes} (hphase : v.phase = .data lines) (works : Bool)
    (line : Bytes) :
    v.hear cfg works (stuff line) = { v with phase := .data (lines ++ [stuff line]) } := by
  have hgoing : ¬ (EndsData (stuff line) ∧ (stuff line).length ≤ 1022) :=
    fun h => stuff_going line h.1
  rw [hear, hphase]
  exact if_neg hgoing

/-- The message is accepted as it has been sent, or refused. -/
theorem hear_end {lines : List Bytes} (hphase : v.phase = .data (lines.map stuff))
    (works : Bool) :
    v.renew.Refuses 250 (v.hear cfg works (text ".")) ∨
      v.hear cfg works (text ".") =
        { v.renew with messages := v.messages ++ [Message.mk v.envelope lines] }.say .ok := by
  have hlines : (lines.map stuff).map unstuff = lines := by
    simp [Function.comp_def, unstuff_stuff]
  have hends : EndsData (text ".") ∧ (text ".").length ≤ 1022 := by decide
  rw [hear, hphase]
  dsimp only
  rw [if_pos hends]
  unfold finish
  rw [hlines]
  split
  · exact Or.inl ⟨_, by decide, rfl⟩
  · split
    · exact Or.inl ⟨_, by decide, rfl⟩
    · split
      · exact Or.inl ⟨_, by decide, rfl⟩
      · exact Or.inr rfl

/-- A RSET does not begin a message. -/
theorem hear_rset (hphase : v.phase = .cmd) (works : Bool) :
    (v.hear cfg works (Verb.name .rset)).phase = .cmd ∧
      (v.hear cfg works (Verb.name .rset)).messages = v.messages := by
  rcases hear_command hphase works (Verb.name .rset) with h | h
  · rw [h]
    exact ⟨hphase, rfl⟩
  · rw [h, command, verbOf_name]
    exact ⟨rfl, rfl⟩

/-- A QUIT is the end. -/
theorem hear_quit (hphase : v.phase = .cmd) (works : Bool) :
    (v.hear cfg works (Verb.name .quit)).phase = .closed ∧
      (v.hear cfg works (Verb.name .quit)).messages = v.messages := by
  have hlen : (Verb.name .quit).length ≤ 510 := by decide
  rw [hear, hphase]
  dsimp only
  rw [if_pos hlen, command, verbOf_name]
  exact ⟨rfl, rfl⟩

/-- There is one reply more. -/
def Says (v v' : Service) : Prop := ∃ r, v'.replies = v.replies ++ [r]

/-- Every command is replied to. -/
theorem command_says (v : Service) (works : Bool) (line : Bytes) :
    v.Says (v.command cfg works line) := by
  unfold command
  cases verbOf line with
  | none => exact ⟨_, rfl⟩
  | some verb =>
      cases verb with
      | ehlo =>
          dsimp only
          unfold greet
          split <;> exact ⟨_, rfl⟩
      | helo =>
          dsimp only
          unfold greet
          split <;> exact ⟨_, rfl⟩
      | mail =>
          dsimp only
          unfold mail
          repeat' split
          all_goals exact ⟨_, rfl⟩
      | rcpt =>
          dsimp only
          unfold rcpt
          repeat' split
          all_goals exact ⟨_, rfl⟩
      | data =>
          dsimp only
          unfold data
          repeat' split
          all_goals exact ⟨_, rfl⟩
      | rset => exact ⟨_, rfl⟩
      | vrfy => exact ⟨_, rfl⟩
      | noop => exact ⟨_, rfl⟩
      | quit => exact ⟨_, rfl⟩

theorem hear_cmd_says (hphase : v.phase = .cmd) (works : Bool) (line : Bytes) :
    v.Says (v.hear cfg works line) := by
  rcases hear_command hphase works line with h | h
  · rw [h]
    exact ⟨_, rfl⟩
  · rw [h]
    exact v.command_says works line

/-- The end of a message is replied to. -/
theorem hear_end_says {lines : List Bytes} (hphase : v.phase = .data (lines.map stuff))
    (works : Bool) : v.Says (v.hear cfg works (text ".")) := by
  rcases hear_end hphase works with ⟨r, -, hsaid⟩ | htaken
  · rw [hsaid]
    exact ⟨_, rfl⟩
  · rw [htaken]
    exact ⟨_, rfl⟩

end Service

/-- The lines of a mail can be counted. -/
structure Mail.Counted (m : Mail) : Prop where
  sender : m.mailLine.length + 1 < 2 ^ 31
  recipients : ∀ a ∈ m.recipients, (Mail.rcptLine a).length + 1 < 2 ^ 31
  lines : ∀ line ∈ m.lines, line.length + 2 < 2 ^ 31

/-- A line that can be counted, without a CRLF. -/
structure Plain (line : Bytes) : Prop where
  clean : ¬ crlf <:+: line
  short : line.length + 1 < 2 ^ 31

/-- What is left of a mail is of this mail, and only a client that quits is gone. -/
def Stage.Ready (quits : Bool) : Stage → Prop
  | .recipient m a rest _ => m.Counted ∧ a :: rest ⊆ m.recipients
  | .data m _ => m.Counted
  | .lines m _ rest => m.Counted ∧ rest ⊆ m.lines
  | .greeting | .idle | .reset => True
  | .gone => quits = true

/-- The lines that are left can be sent. -/
structure Caller.Ready (c : Client) (p : Caller) : Prop where
  name : p.name = c.name
  quits : p.quits = c.quits
  todo : ∀ m ∈ p.todo, m.Counted
  stage : p.stage.Ready c.quits

theorem Stage.ready_next {m : Mail} (counted : m.Counted) {rest : List Address}
    (hrest : rest ⊆ m.recipients) (quits : Bool) (kept : List Bytes) :
    (Stage.next m rest kept).Ready quits := by
  cases rest with
  | cons a rest => exact ⟨counted, hrest⟩
  | nil =>
      cases kept with
      | nil => trivial
      | cons path kept => exact counted

theorem Stage.inStep_next {v : Service} {m : Mail} {kept : List Bytes} (hphase : v.phase = .cmd)
    (hsender : v.envelope.reversePath = m.senderKept) (hkept : v.envelope.forwardPaths = kept)
    (rest : List Address) : (Stage.next m rest kept).InStep v := by
  cases rest with
  | cons a rest => exact ⟨hphase, hsender, hkept⟩
  | nil =>
      cases kept with
      | nil => exact hphase
      | cons path kept => exact ⟨hphase, hsender, hkept⟩

namespace Caller

variable {c : Client} {p : Caller} {line : Bytes}

theorem ready_start (c : Client) (counted : ∀ m ∈ c.mails, m.Counted) : Ready c (start c) :=
  ⟨rfl, rfl, counted, trivial⟩

theorem Ready.hear (h : Ready c p) (hline : p.line = some line) (reply : Option Reply) :
    Ready c (p.hear reply) := by
  obtain ⟨hname, hquits, htodo, hready⟩ := h
  obtain ⟨name, todo, quits, stage, receipts⟩ := p
  dsimp only at hname hquits htodo hready
  cases stage with
  | greeting => exact ⟨hname, hquits, htodo, trivial⟩
  | idle =>
      cases todo with
      | nil =>
          dsimp only [Caller.line] at hline
          split at hline
          · exact ⟨hname, hquits, htodo, hquits.symm.trans ‹quits = true›⟩
          · cases hline
      | cons m todo =>
          obtain ⟨hcounted, htodo⟩ := List.forall_mem_cons.mp htodo
          refine ⟨hname, hquits, htodo, ?_⟩
          dsimp only [Caller.hear]
          split
          · exact Stage.ready_next hcounted (List.Subset.refl _) _ []
          · trivial
  | recipient m a rest kept =>
      exact ⟨hname, hquits, htodo,
        Stage.ready_next hready.1 (List.subset_of_cons_subset hready.2) _ _⟩
  | data m kept =>
      refine ⟨hname, hquits, htodo, ?_⟩
      dsimp only [Caller.hear]
      split
      · exact ⟨hready, List.Subset.refl _⟩
      · trivial
  | lines m kept rest =>
      cases rest with
      | nil => exact ⟨hname, hquits, htodo, trivial⟩
      | cons l rest =>
          exact ⟨hname, hquits, htodo, hready.1, List.subset_of_cons_subset hready.2⟩
  | reset => exact ⟨hname, hquits, htodo, trivial⟩
  | gone => cases hline

/-- Every line that is sent can be counted and has no CRLF in it. -/
theorem Ready.plain (h : Ready c p) (hline : p.line = some line) : Plain line := by
  have hverb (verb : Verb) : Plain verb.name := by
    refine ⟨clean_name verb, ?_⟩
    rw [Core.name_length]
    decide
  obtain ⟨hname, -, htodo, hready⟩ := h
  obtain ⟨name, todo, quits, stage, receipts⟩ := p
  dsimp only at hname htodo hready
  cases stage with
  | greeting =>
      obtain rfl : commandLine .ehlo name = line := Option.some.inj hline
      have hlong : c.name.length ≤ 255 := c.short
      rw [hname]
      refine ⟨clean_greeting c.domain, ?_⟩
      rw [commandLine, List.length_append, Core.name_length, List.length_cons]
      omega
  | idle =>
      cases todo with
      | nil =>
          dsimp only [Caller.line] at hline
          split at hline
          · obtain rfl := Option.some.inj hline
            exact hverb .quit
          · cases hline
      | cons m todo =>
          obtain rfl := Option.some.inj hline
          exact ⟨clean_mailLine m, (htodo m List.mem_cons_self).sender⟩
  | recipient m a rest kept =>
      obtain rfl := Option.some.inj hline
      exact ⟨clean_rcptLine a, hready.1.recipients a (hready.2 List.mem_cons_self)⟩
  | data m kept =>
      obtain rfl := Option.some.inj hline
      exact hverb .data
  | lines m kept rest =>
      cases rest with
      | nil =>
          obtain rfl := Option.some.inj hline
          exact ⟨by decide, by decide⟩
      | cons l rest =>
          obtain rfl := Option.some.inj hline
          have hmem := hready.2 List.mem_cons_self
          have hlong := hready.1.lines l hmem
          have hstuffed := (stuff_length l).2
          exact ⟨stuff_clean (m.clean l hmem), by omega⟩
  | reset =>
      obtain rfl := Option.some.inj hline
      exact hverb .rset
  | gone => cases hline

variable {cfg : Config} {v : Service}

/-- What the client sends for a command has its argument. -/
theorem Agrees.argued (h : p.Agrees v) (hline : p.line = some line) : v.Argued line := by
  intro hphase
  have hverb {verb : Verb} (hmail : verb ≠ .mail) (hrcpt : verb ≠ .rcpt) : ¬ Bare verb.name := by
    rintro ⟨-, hbare⟩
    rw [verbOf_name] at hbare
    rcases hbare with hbare | hbare
    · exact hmail (Option.some.inj hbare)
    · exact hrcpt (Option.some.inj hbare)
  obtain ⟨hstep, -⟩ := h
  obtain ⟨name, todo, quits, stage, receipts⟩ := p
  dsimp only at hstep
  cases stage with
  | greeting =>
      obtain rfl := Option.some.inj hline
      exact not_bare_commandLine _ _
  | idle =>
      cases todo with
      | nil =>
          dsimp only [Caller.line] at hline
          split at hline
          · obtain rfl := Option.some.inj hline
            exact hverb (by decide) (by decide)
          · cases hline
      | cons m todo =>
          obtain rfl := Option.some.inj hline
          exact not_bare_commandLine _ _
  | recipient m a rest kept =>
      obtain rfl := Option.some.inj hline
      exact not_bare_commandLine _ _
  | data m kept =>
      obtain rfl := Option.some.inj hline
      exact hverb (by decide) (by decide)
  | lines m kept rest =>
      obtain ⟨⟨sent, -, hdata⟩, -⟩ := hstep
      rw [hphase] at hdata
      cases hdata
  | reset =>
      obtain rfl := Option.some.inj hline
      exact hverb (by decide) (by decide)
  | gone => cases hline

/-- A line and the reply to it, whether what is behind the line works or not. -/
theorem Agrees.hear (h : p.Agrees v) (ready : Ready c p) (hline : p.line = some line) (works : Bool) :
    (p.hear (answer v.replies (v.hear cfg works line).replies)).Agrees
      (v.hear cfg works line) := by
  have hsmall : line.length < 2 ^ 64 := by
    have hplain := (ready.plain hline).short
    omega
  obtain ⟨hstep, hreceipts⟩ := h
  obtain ⟨name, todo, quits, stage, receipts⟩ := p
  dsimp only at hstep hreceipts
  cases stage with
  | greeting =>
      obtain rfl := Option.some.inj hline
      obtain ⟨hphase, hmessages⟩ := Service.hear_greeting hstep works name
      exact ⟨hphase, hmessages ▸ hreceipts⟩
  | idle =>
      cases todo with
      | nil =>
          dsimp only [Caller.line] at hline
          split at hline
          · obtain rfl := Option.some.inj hline
            obtain ⟨hphase, hmessages⟩ := Service.hear_quit hstep works
            exact ⟨hphase, hmessages ▸ hreceipts⟩
          · cases hline
      | cons m todo =>
          obtain rfl := Option.some.inj hline
          rcases Service.hear_mail hstep works m hsmall with hrefused | htaken
          · dsimp only [Caller.hear]
            rw [hrefused.not_replied rfl]
            obtain ⟨r, -, hsaid⟩ := hrefused
            rw [hsaid]
            exact ⟨hstep, hreceipts⟩
          · dsimp only [Caller.hear]
            rw [Service.replied_of_say (v := v) htaken rfl, htaken]
            refine ⟨Stage.inStep_next ?_ rfl rfl m.recipients, hreceipts⟩
            exact hstep
  | recipient m a rest kept =>
      obtain rfl := Option.some.inj hline
      obtain ⟨hphase, hsender, hkept⟩ := hstep
      rcases Service.hear_rcpt hphase works a hsmall with hrefused | htaken
      · dsimp only [Caller.hear]
        rw [hrefused.not_replied rfl]
        obtain ⟨r, -, hsaid⟩ := hrefused
        rw [hsaid]
        exact ⟨Stage.inStep_next hphase hsender hkept rest, hreceipts⟩
      · dsimp only [Caller.hear]
        rw [Service.replied_of_say (v := v) htaken rfl, htaken]
        refine ⟨Stage.inStep_next ?_ ?_ (congrArg (· ++ [a.kept]) hkept) rest, hreceipts⟩
        · exact hphase
        · exact hsender
  | data m kept =>
      obtain rfl := Option.some.inj hline
      obtain ⟨hphase, hsender, hkept⟩ := hstep
      rcases Service.hear_data hphase works with hrefused | htaken
      · dsimp only [Caller.hear]
        rw [hrefused.not_replied rfl]
        obtain ⟨r, -, hsaid⟩ := hrefused
        rw [hsaid]
        exact ⟨hphase, hreceipts⟩
      · dsimp only [Caller.hear]
        rw [Service.replied_of_say (v := v) htaken rfl, htaken]
        exact ⟨⟨⟨[], rfl, rfl⟩, hsender, hkept⟩, hreceipts⟩
  | lines m kept rest =>
      obtain ⟨⟨sent, hsent, hphase⟩, hsender, hkept⟩ := hstep
      cases rest with
      | cons l rest =>
          obtain rfl := Option.some.inj hline
          rw [Service.hear_stuff hphase]
          refine ⟨⟨⟨sent ++ [l], ?_, ?_⟩, hsender, hkept⟩, hreceipts⟩
          · rw [hsent, List.append_assoc]
            rfl
          · rw [List.map_append]
            rfl
      | nil =>
          obtain rfl := Option.some.inj hline
          rw [List.append_nil] at hsent
          rcases Service.hear_end hphase works with hrefused | htaken
          · dsimp only [Caller.hear]
            rw [hrefused.not_replied (v := v) rfl]
            obtain ⟨r, -, hsaid⟩ := hrefused
            rw [hsaid, if_neg Bool.false_ne_true, List.append_nil]
            exact ⟨rfl, hreceipts⟩
          · dsimp only [Caller.hear]
            rw [Service.replied_of_say (v := v) htaken rfl, htaken]
            exact ⟨rfl, List.rel_append hreceipts (.cons ⟨hsender, hkept, hsent.symm⟩ .nil)⟩
  | reset =>
      obtain rfl := Option.some.inj hline
      obtain ⟨hphase, hmessages⟩ := Service.hear_rset hstep works
      exact ⟨hphase, hmessages ▸ hreceipts⟩
  | gone => cases hline

/-- Where the service is when the client has no more to say. -/
theorem Agrees.silent (h : p.Agrees v) (ready : Ready c p) (hline : p.line = none) :
    v.phase = if c.quits then .closed else .cmd := by
  obtain ⟨hstep, -⟩ := h
  obtain ⟨-, hquits, -, hready⟩ := ready
  obtain ⟨name, todo, quits, stage, receipts⟩ := p
  dsimp only at hstep hquits hready
  cases stage with
  | idle =>
      cases todo with
      | nil =>
          dsimp only [Caller.line] at hline
          split at hline
          · cases hline
          · rw [← hquits, if_neg ‹_›]
            exact hstep
      | cons m todo => cases hline
  | gone =>
      have hquits : c.quits = true := hready
      rw [if_pos hquits]
      exact hstep
  | lines m kept rest => cases rest <;> cases hline
  | _ => cases hline

/-- Every line that the client waits at is replied to, and no other. -/
theorem Agrees.answered (h : p.Agrees v) (hline : p.line = some line) (works : Bool) :
    if p.waits then v.Says (v.hear cfg works line)
    else (v.hear cfg works line).replies = v.replies := by
  obtain ⟨hstep, -⟩ := h
  obtain ⟨name, todo, quits, stage, receipts⟩ := p
  dsimp only at hstep
  cases stage with
  | greeting => exact Service.hear_cmd_says hstep works line
  | idle => exact Service.hear_cmd_says hstep works line
  | recipient m a rest kept => exact Service.hear_cmd_says hstep.1 works line
  | data m kept => exact Service.hear_cmd_says hstep.1 works line
  | lines m kept rest =>
      obtain ⟨⟨sent, -, hphase⟩, -⟩ := hstep
      cases rest with
      | nil =>
          obtain rfl := Option.some.inj hline
          exact Service.hear_end_says hphase works
      | cons l rest =>
          obtain rfl := Option.some.inj hline
          rw [Service.hear_stuff hphase]
          rfl
  | reset => exact Service.hear_cmd_says hstep works line
  | gone => cases hline

end Caller

section Turns

/-- The lines of a mail, and a RSET if it is given up. -/
def Mail.turns (m : Mail) : Nat := m.recipients.length + m.lines.length + 3

/-- The lines that are still to be sent of a mail, at most. -/
def Stage.left : Stage → Nat
  | .greeting => 2
  | .idle => 1
  | .recipient m _ rest _ => rest.length + m.lines.length + 4
  | .data m _ => m.lines.length + 3
  | .lines _ _ rest => rest.length + 2
  | .reset => 2
  | .gone => 0

/-- The lines that are still to be sent, at most. -/
def Caller.left (p : Caller) : Nat := p.stage.left + (p.todo.map Mail.turns).sum

/-- The lines of a client, at most. -/
def Client.turns (c : Client) : Nat := (c.mails.map Mail.turns).sum + 2

theorem Stage.left_next (m : Mail) (rest : List Address) (kept : List Bytes) :
    (Stage.next m rest kept).left ≤ rest.length + m.lines.length + 3 := by
  cases rest with
  | cons a rest =>
      simp only [Stage.next, Stage.left, List.length_cons]
      omega
  | nil =>
      cases kept with
      | nil =>
          simp only [Stage.next, Stage.left]
          omega
      | cons path kept =>
          simp only [Stage.next, Stage.left]
          omega

/-- Whatever the reply, there is less to be sent. -/
theorem Caller.hear_left (p : Caller) (reply : Option Reply) (line : Bytes)
    (hline : p.line = some line) : (p.hear reply).left < p.left := by
  obtain ⟨name, todo, quits, stage, receipts⟩ := p
  cases stage with
  | greeting => exact Nat.add_lt_add_right (Nat.lt_succ_self 1) _
  | idle =>
      cases todo with
      | nil => exact Nat.zero_lt_one
      | cons m todo =>
          have hstage : (if replied 250 reply then Stage.next m m.recipients [] else .idle).left ≤
              m.turns := by
            split
            · exact Stage.left_next m m.recipients []
            · exact Nat.le_add_left 1 (m.recipients.length + m.lines.length + 2)
          have htodo := Nat.add_le_add_right hstage (todo.map Mail.turns).sum
          exact Nat.lt_one_add_iff.mpr htodo
  | recipient m a rest kept =>
      exact Nat.add_lt_add_right (Nat.lt_succ_of_le (Stage.left_next m rest _)) _
  | data m kept =>
      have hstage : (if replied 354 reply then Stage.lines m kept m.lines else .reset).left <
          m.lines.length + 3 := by
        split
        · exact Nat.lt_succ_self _
        · exact Nat.lt_of_lt_of_le (Nat.lt_succ_self 2) (Nat.le_add_left 3 _)
      exact Nat.add_lt_add_right hstage _
  | lines m kept rest =>
      cases rest with
      | nil => exact Nat.add_lt_add_right (Nat.lt_succ_self 1) _
      | cons l rest => exact Nat.add_lt_add_right (Nat.lt_succ_self (rest.length + 2)) _
  | reset => exact Nat.add_lt_add_right (Nat.lt_succ_self 1) _
  | gone => cases hline

end Turns

end Ervan.Smtp
