import Ervan.Smtp.Invariant

/-!
# The service

What the server does for a client, line by line: no buffers, no chunks, no files and no order of
file operations, only what has been announced, what has been replied and which messages have been
accepted. Whether the operations behind a line have worked is left open.
-/

namespace Ervan.Smtp

open Parse

/-- A message that has been accepted. -/
structure Message where
  envelope : Metadata
  lines : List Bytes
  deriving DecidableEq, Repr

/-- Between two commands, in a message with the lines received so far, or after QUIT. -/
inductive Phase where
  | cmd
  | data (lines : List Bytes)
  | closed
  deriving DecidableEq, Repr

def Phase.state : Phase → State
  | .cmd => .cmd
  | .data _ => .data
  | .closed => .closed

structure Service where
  phase : Phase
  begun : Bool
  senderSet : Bool
  envelope : Metadata
  replies : List Reply
  messages : List Message
  deriving DecidableEq, Repr

/-- Every parameter behind the path of a MAIL is known. -/
def parametersOf (line : Bytes) : Bool :=
  match reversePath (Mem.ofBytes line) ⟨10, line.length - 10⟩ with
  | none => false
  | some reverse => Core.mailParams (Mem.ofBytes line) reverse.rest.len reverse.rest

/-- The size of a message. A line that does not fit the line buffer counts for nothing. -/
def receivedSize (lines : List Bytes) : Nat :=
  wireSize (lines.filter fun line => line.length ≤ 1022)

/-- A line is too long without the dot before it. -/
def overlong (lines : List Bytes) : Bool := lines.any fun line => 996 < (unstuff line).length

namespace Service

def start (cfg : Config) : Service where
  phase := .cmd
  begun := false
  senderSet := false
  envelope := {}
  replies := [.greeter cfg.hostname]
  messages := []

def say (v : Service) (r : Reply) : Service := { v with replies := v.replies ++ [r] }

/-- A new transaction. -/
def renew (v : Service) : Service := { v with phase := .cmd, senderSet := false, envelope := {} }

def greet (v : Service) (line : Bytes) (r : Reply) : Service :=
  match greetingOf line with
  | none => v.say .invalidParameters
  | some domain => { v.renew with envelope := { from_ := domain }, begun := true }.say r

def mail (v : Service) (line : Bytes) : Service :=
  match senderOf line with
  | none => v.say .invalidParameters
  | some sender =>
      if v.senderSet || !v.begun then v.say .badSequence
      else if !parametersOf line then v.say .invalidParameters
      else
        { v with
          envelope := { v.envelope with reversePath := sender, forwardPaths := [] }
          senderSet := true }.say .ok

/-- A line that has no room for the keyword and a path is refused before anything else. -/
def rcpt (cfg : Config) (v : Service) (line : Bytes) : Service :=
  if 5 ≤ line.length ∧ line.length < 8 then v.say .invalidParameters
  else if !v.begun then v.say .badSequence
  else if cfg.maxrcpt ≤ v.envelope.forwardPaths.length then v.say .tooManyRecipients
  else
    match recipientOf line with
    | none => v.say .invalidParameters
    | some recipient =>
        { v with
          envelope := { v.envelope with
            forwardPaths := v.envelope.forwardPaths ++ [recipient] } }.say .ok

def data (works : Bool) (v : Service) : Service :=
  if !v.senderSet || v.envelope.forwardPaths.length == 0 then v.say .badSequence
  else if !works then v.say .localError
  else { v with phase := .data [] }.say .startData

def command (cfg : Config) (works : Bool) (v : Service) (line : Bytes) : Service :=
  match verbOf line with
  | none => v.say .invalidCommand
  | some .ehlo => v.greet line (.ehlo cfg.hostname)
  | some .helo => v.greet line (.helo cfg.hostname)
  | some .mail => v.mail line
  | some .rcpt => v.rcpt cfg line
  | some .data => v.data works
  | some .rset => v.renew.say .ok
  | some .vrfy => v.say .notImplemented
  | some .noop => v.say .ok
  | some .quit => { v.say (.quit cfg.hostname) with phase := .closed }

/-- The end of a message. -/
def finish (cfg : Config) (works : Bool) (v : Service) (lines : List Bytes) : Service :=
  if cfg.maxmessagesize < receivedSize lines then v.renew.say .exceededStorage
  else if overlong lines then v.renew.say .exceededLine
  else if !works then v.renew.say .localError
  else
    { v.renew with messages := v.messages ++ [Message.mk v.envelope (lines.map unstuff)] }.say .ok

/-- The effect of a line. -/
def hear (cfg : Config) (v : Service) (works : Bool) (line : Bytes) : Service :=
  match v.phase with
  | .closed => v
  | .cmd => if line.length ≤ 510 then v.command cfg works line else v.say .exceededLine
  | .data lines =>
      if EndsData line ∧ line.length ≤ 1022 then v.finish cfg works lines
      else { v with phase := .data (lines ++ [line]) }

/-- The lines in turn, each with whether the operations behind it work. -/
def hearAll (cfg : Config) (v : Service) (lines : List (Bool × Bytes)) : Service :=
  lines.foldl (fun v x => v.hear cfg x.1 x.2) v

/-- No message comes of it, and a message that it begins is empty. -/
structure Keeps (v v' : Service) : Prop where
  messages : v'.messages = v.messages
  phase : ∀ lines, v'.phase = .data lines → lines = []

section Commands

variable {cfg : Config} {v v' : Service} {line : Bytes}

theorem Keeps.say (h : v.Keeps v') (r : Reply) : v.Keeps (v'.say r) := ⟨h.messages, h.phase⟩

theorem Keeps.refl (hphase : v.phase = .cmd) : v.Keeps v := by
  refine ⟨rfl, fun lines hdata => ?_⟩
  rw [hphase] at hdata
  cases hdata

theorem greet_keeps (h : v.Keeps v) (r : Reply) : v.Keeps (v.greet line r) := by
  unfold greet
  split
  · exact h.say _
  · exact ⟨rfl, fun lines hdata => by cases hdata⟩

theorem mail_keeps (h : v.Keeps v) : v.Keeps (v.mail line) := by
  unfold mail
  split
  · exact h.say _
  · split
    · exact h.say _
    · split
      · exact h.say _
      · exact ⟨rfl, h.phase⟩

theorem rcpt_keeps (h : v.Keeps v) : v.Keeps (v.rcpt cfg line) := by
  unfold rcpt
  split
  · exact h.say _
  · split
    · exact h.say _
    · split
      · exact h.say _
      · split
        · exact h.say _
        · exact ⟨rfl, h.phase⟩

theorem data_keeps (h : v.Keeps v) (works : Bool) : v.Keeps (v.data works) := by
  unfold data
  split
  · exact h.say _
  · split
    · exact h.say _
    · refine ⟨rfl, fun lines hdata => ?_⟩
      injection hdata with hlines
      exact hlines.symm

theorem command_keeps (hphase : v.phase = .cmd) (works : Bool) :
    v.Keeps (v.command cfg works line) := by
  have h := Keeps.refl hphase
  unfold command
  cases verbOf line with
  | none => exact h.say _
  | some verb =>
      cases verb with
      | ehlo => exact greet_keeps h _
      | helo => exact greet_keeps h _
      | mail => exact mail_keeps h
      | rcpt => exact rcpt_keeps h
      | data => exact data_keeps h works
      | rset => exact ⟨rfl, fun lines hdata => by cases hdata⟩
      | vrfy => exact h.say _
      | noop => exact h.say _
      | quit => exact ⟨rfl, fun lines hdata => by cases hdata⟩

end Commands

section Messages

variable {cfg : Config} {v : Service} {lines : List Bytes}

theorem finish_big (big : cfg.maxmessagesize < receivedSize lines) (works : Bool) :
    v.finish cfg works lines = v.renew.say .exceededStorage := if_pos big

theorem finish_long (small : ¬ cfg.maxmessagesize < receivedSize lines)
    (long : overlong lines = true) (works : Bool) :
    v.finish cfg works lines = v.renew.say .exceededLine := by
  rw [finish, if_neg small, if_pos long]

/-- A message within the limits is accepted if the operations behind it work. -/
theorem finish_within (small : ¬ cfg.maxmessagesize < receivedSize lines)
    (short : overlong lines = false) (works : Bool) :
    v.finish cfg works lines = if !works then v.renew.say .localError else
      { v.renew with messages := v.messages ++ [Message.mk v.envelope (lines.map unstuff)] }.say
        .ok := by
  rw [finish, if_neg small, short]
  rfl

end Messages

end Service

end Ervan.Smtp
