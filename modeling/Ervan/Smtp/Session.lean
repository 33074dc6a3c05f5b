import Ervan.Smtp.Commands
import Ervan.Smtp.DataLine

/-!
# A session

`feed` hands a chunk to the command side or the data side, depending on the
state, until the chunk is used up. Both sides assemble their lines with `join`,
each in its own buffer. The loops recurse on fuel, which the length of the chunk
provides: every turn of them takes at least one byte out of it.
-/

namespace Ervan.Smtp

@[ext] structure Session extends Core where
  cmdBuffer : CmdBuffer
  cmdOffset : Int
  lineBuffer : LineBuffer
  lineOffset : Int

/-- What the constructor finds in the members that it does not set. -/
structure Memory where
  cmdBuffer : CmdBuffer
  lineBuffer : LineBuffer
  dataSize : Nat
  dataTooLong : Bool
  dataError : Bool
  lineTooLong : Bool

namespace Session

/-- The constructor. What `reset` sets has no value before it. -/
def construct (env : Env) (mem : Memory) : Session where
  toCore := { Core.reset env
    { state := .cmd
      metadata := {}
      reverseSet := false
      sessionBegun := false
      maxDataSize := 0
      dataSize := mem.dataSize
      dataPath := []
      dataFile := none
      maxForwardPaths := 0
      dataTooLong := mem.dataTooLong
      dataError := mem.dataError
      lineTooLong := mem.lineTooLong
      log := [] } with sessionBegun := false }
  cmdBuffer := mem.cmdBuffer
  cmdOffset := 0
  lineBuffer := mem.lineBuffer
  lineOffset := 0

/-- A constructed session after `send_greeter`. -/
def start (env : Env) (mem : Memory) : Session :=
  let s := construct env mem
  { s with toCore := s.reply (.greeter (s.answer env).cfg.hostname) }

/-- The line delivered by `join`, the first `len` bytes of the command buffer, is
logged and handled. -/
def handleLine (env : Env) (len : Nat) (s : Session) : Session :=
  let c := s.emit (.line (s.cmdBuffer.mem.read 0 len))
  let (b, c) := c.callCommand env s.cmdBuffer len
  { s with toCore := c, cmdBuffer := b }

def feedCmd (env : Env) (s : Session) (sp : Bytes) : Session × Bytes :=
  let (b, offset, result) := join s.cmdBuffer sp s.cmdOffset cmdTerminator
  let s := { s with cmdBuffer := b, cmdOffset := offset }
  let s := match result.sp with
    | none => s
    | some len => s.handleLine env len
  let s := if result.ec then { s with toCore := s.reply .exceededLine } else s
  (s, result.rest)

/-- One turn of the loop of `feed_data`, and whether it is not the last one. -/
def dataTurn (env : Env) (s : Session) (sp : Bytes) : Session × Bytes × Bool :=
  let (b, offset, result) := join s.lineBuffer sp s.lineOffset cmdTerminator
  let s := { s with lineBuffer := b, lineOffset := offset }
  match result.sp with
  | none => (if result.ec then { s with lineTooLong := true } else s, result.rest, false)
  | some len =>
      if s.lineBuffer.mem.strEq 0 (text ".") then
        ({ s with toCore := s.endData env }, result.rest, false)
      else
        let (b, c) := s.toCore.storeLine env s.lineBuffer len
        ({ s with toCore := c, lineBuffer := b }, result.rest, true)

def feedDataLoop (env : Env) : Nat → Session → Bytes → Session × Bytes
  | 0, s, sp => (s, sp)
  | fuel + 1, s, sp =>
      let (s, rest, more) := s.dataTurn env sp
      if more then feedDataLoop env fuel s rest else (s, rest)

def feedData (env : Env) (s : Session) (sp : Bytes) : Session × Bytes :=
  feedDataLoop env (sp.length + 1) s sp

def feedLoop (env : Env) : Nat → Session → Bytes → Session
  | 0, s, _ => s
  | fuel + 1, s, sp =>
      if sp = [] then s
      else
        match s.state with
        | .closed => s
        | .cmd =>
            let (s, sp) := s.feedCmd env sp
            feedLoop env fuel s sp
        | .data =>
            let (s, sp) := s.feedData env sp
            feedLoop env fuel s sp

def feed (env : Env) (s : Session) (sp : Bytes) : Session := feedLoop env sp.length s sp

/-- The chunks that `handle` receives, one after another. -/
def feedAll (env : Env) (s : Session) (chunks : List Bytes) : Session :=
  chunks.foldl (feed env) s

end Session

end Ervan.Smtp
