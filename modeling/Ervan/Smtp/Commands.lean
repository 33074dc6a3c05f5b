import Ervan.Common.Join
import Ervan.Common.Parse
import Ervan.Smtp.File

/-!
# The commands

A handler receives the argument as a span of the command buffer, and edits the
buffer in place. `callCommand` cuts that span out five bytes after the start of
the line, whether the line has five bytes or not.
-/

namespace Ervan.Smtp

open Parse

/-- `_cmd_buffer`: 512 bytes, of which `join` keeps two for the match window. -/
abbrev CmdBuffer := Buffer 510 2

inductive Verb where
  | ehlo
  | helo
  | mail
  | rcpt
  | data
  | rset
  | vrfy
  | noop
  | quit
  deriving DecidableEq, Repr

def Verb.name : Verb → Bytes
  | .ehlo => text "EHLO"
  | .helo => text "HELO"
  | .mail => text "MAIL"
  | .rcpt => text "RCPT"
  | .data => text "DATA"
  | .rset => text "RSET"
  | .vrfy => text "VRFY"
  | .noop => text "NOOP"
  | .quit => text "QUIT"

/-- The tuple `cmds`. -/
def commands : List Verb := [.ehlo, .helo, .mail, .rcpt, .data, .rset, .vrfy, .noop, .quit]

def tryGetCommand (m : Mem) : Option Verb := commands.find? fun verb => m.strEq 0 verb.name

/-- Consecutive assignments to the bytes from `start` on. -/
def pokeAll (b : CmdBuffer) (start : Nat) : Bytes → CmdBuffer
  | [] => b
  | c :: rest => pokeAll (b.poke start c) (start + 1) rest

/-- `accept` stores the keyword over the client's bytes before it compares them. -/
def accept (b : CmdBuffer) (sp : Span) (str : Bytes) : CmdBuffer × Option Span :=
  if sp.len < str.length then (b, none)
  else
    let b := pokeAll b sp.start (str.map toupper)
    if b.mem.read sp.start str.length ≠ str then (b, none)
    else (b, some (sp.advance str.length))

namespace Core

def ehlo (env : Env) (m : Mem) (sp : Span) (c : Core) : Core :=
  match domain m sp with
  | none => c.reply .invalidParameters
  | some domain =>
      let c := c.reset env
      let c := { c with
        metadata := { c.metadata with from_ := m.read domain.body.start domain.body.len }
        sessionBegun := true }
      c.reply (.ehlo (c.answer env).cfg.hostname)

def helo (env : Env) (m : Mem) (sp : Span) (c : Core) : Core :=
  match domain m sp with
  | none => c.reply .invalidParameters
  | some domain =>
      let c := c.reset env
      let c := { c with
        metadata := { c.metadata with from_ := m.read domain.body.start domain.body.len }
        sessionBegun := true }
      c.reply (.helo (c.answer env).cfg.hostname)

def mailParam (m : Mem) (param : EsmtpParamResult) : Bool :=
  if param.key.body.compareInsensitive m (text "BODY") then
    if param.value.body.equal m (text "7BIT") then true
    else if param.value.body.equal m (text "8BITMIME") then true
    else false
  else false

/-- The parameter loop of `mail`: whether it ends without an error. -/
def mailParams (m : Mem) : Nat → Span → Bool
  | 0, _ => true
  | fuel + 1, cmd =>
      if cmd.len > 0 then
        if m cmd.start ≠ 32 then false
        else
          match esmtpParam m (cmd.advance 1) with
          | none => false
          | some parameter =>
              if !mailParam m parameter then false else mailParams m fuel parameter.rest
      else true

/-- `mail` once the keyword has been accepted. -/
def mailPath (m : Mem) (sp : Span) (c : Core) : Core :=
  match reversePath m sp with
  | none => c.reply .invalidParameters
  | some reverse =>
      if c.reverseSet || !c.sessionBegun then c.reply .badSequence
      else if !mailParams m reverse.rest.len reverse.rest then c.reply .invalidParameters
      else
        { c with
          metadata := { c.metadata with
            reversePath := reverse.mailbox.text m
            forwardPaths := [] }
          reverseSet := true }.reply .ok

def mail (b : CmdBuffer) (sp : Span) (c : Core) : CmdBuffer × Core :=
  match accept b sp (text "FROM:") with
  | (b, none) => (b, c.reply .invalidParameters)
  | (b, some sp) => (b, c.mailPath b.mem sp)

/-- `rcpt` once the keyword has been accepted. -/
def rcptPath (m : Mem) (sp : Span) (c : Core) : Core :=
  if !c.sessionBegun then c.reply .badSequence
  else if c.maxForwardPaths ≤ c.metadata.forwardPaths.length then c.reply .tooManyRecipients
  else
    match path m sp with
    | none => c.reply .invalidParameters
    | some path =>
        { c with
          metadata := { c.metadata with
            forwardPaths := c.metadata.forwardPaths ++ [path.mailbox.text m] } }.reply .ok

def rcpt (b : CmdBuffer) (sp : Span) (c : Core) : CmdBuffer × Core :=
  match accept b sp (text "TO:") with
  | (b, none) => (b, c.reply .invalidParameters)
  | (b, some sp) => (b, c.rcptPath b.mem sp)

def data (env : Env) (c : Core) : Core :=
  if !c.reverseSet || c.metadata.forwardPaths.length == 0 then c.reply .badSequence
  else
    let (c, ok) := c.openFiles env
    if !ok then c.reply .localError
    else
      { c with
        state := .data
        dataSize := 0
        dataTooLong := false
        lineTooLong := false }.reply .startData

def rset (env : Env) (c : Core) : Core := (c.reset env).reply .ok

def vrfy (c : Core) : Core := c.reply .notImplemented

def noop (c : Core) : Core := c.reply .ok

def quit (env : Env) (c : Core) : Core :=
  { c.reply (.quit (c.answer env).cfg.hostname) with state := .closed }

/-- The handler of a verb. -/
def dispatch (env : Env) (verb : Verb) (b : CmdBuffer) (sp : Span) (c : Core) :
    CmdBuffer × Core :=
  match verb with
  | .ehlo => (b, c.ehlo env b.mem sp)
  | .helo => (b, c.helo env b.mem sp)
  | .mail => c.mail b sp
  | .rcpt => c.rcpt b sp
  | .data => (b, c.data env)
  | .rset => (b, c.rset env)
  | .vrfy => (b, c.vrfy)
  | .noop => (b, c.noop)
  | .quit => (b, c.quit env)

end Core

/-- `call_command` up to the call: the buffer, and the verb whose handler is to be invoked with its
argument. The line is the first `len` bytes of the buffer. -/
def called (b : CmdBuffer) (len : Nat) : CmdBuffer × Option (Verb × Span) :=
  if len < 4 then (b, none)
  else
    let b := pokeAll b 0 (((b.mem.read 0 4).map toupper) ++ [nul])
    match tryGetCommand b.mem with
    | none => (b, none)
    | some verb => (b, some (verb, (Span.mk 0 len).advance 5))

def Core.callCommand (env : Env) (b : CmdBuffer) (len : Nat) (c : Core) : CmdBuffer × Core :=
  match called b len with
  | (b, none) => (b, c.reply .invalidCommand)
  | (b, some (verb, sp)) => c.dispatch env verb b sp

end Ervan.Smtp
