import Ervan.Common.Message
import Ervan.Smtp.Environment

/-!
# The members of a session

A `Core` holds the members of `session` except its two line buffers. The file
operations, the reply and `reset` act on it alone.
-/

namespace Ervan.Smtp

/-- `STATE_CMD`, `STATE_DATA` and `STATE_CLOSED`. -/
inductive State where
  | cmd
  | data
  | closed
  deriving DecidableEq, Repr

@[ext] structure Core where
  state : State
  metadata : Metadata
  reverseSet : Bool
  sessionBegun : Bool
  maxDataSize : Nat
  dataSize : Nat
  dataPath : Bytes
  dataFile : Option DataFile
  maxForwardPaths : Nat
  dataTooLong : Bool
  dataError : Bool
  lineTooLong : Bool
  /-- All interactions so far, the oldest first. -/
  log : List Event
  deriving DecidableEq, Repr

namespace Core

/-- The environment's answer at this point of the run. -/
def answer (env : Env) (c : Core) : Answer := env c.log.length

def emit (c : Core) (e : Event) : Core := { c with log := c.log ++ [e] }

def reply (c : Core) (r : Reply) : Core := c.emit (.reply r)

def reset (env : Env) (c : Core) : Core :=
  { c with
    state := .cmd
    maxDataSize := (c.answer env).cfg.maxmessagesize
    maxForwardPaths := (c.answer env).cfg.maxrcpt
    metadata := {}
    reverseSet := false }

/-- `_data_file.write`. There is nothing to write to without a file. -/
def write (env : Env) (data : Bytes) (c : Core) : Core × Bool :=
  let a := c.answer env
  match c.dataFile with
  | none => (c.emit (.write data false), false)
  | some f =>
      if a.written then ({ c with dataFile := some (f.write data) }.emit (.write data true), true)
      else
        ({ c with dataFile := some (f.write (data.take a.torn)) }.emit (.write data false), false)

/-- Consecutive writes, each tested with `if (!co_await ...) co_return false`. -/
def writeAll (env : Env) : List Bytes → Core → Core × Bool
  | [], c => (c, true)
  | data :: rest, c =>
      let (c, ok) := c.write env data
      if !ok then (c, false) else writeAll env rest c

/-- `_data_file.tellg`. -/
def tellg (env : Env) (c : Core) : Core × Int :=
  let pos : Int := match c.dataFile with
    | none => -1
    | some f => if (c.answer env).told then f.pos else -1
  (c.emit (.tell pos), pos)

def seekg (pos : Int) (whence : Whence) (c : Core) : Core :=
  { c with dataFile := c.dataFile.map (DataFile.seek · pos whence) }.emit (.seek pos whence)

def truncate (c : Core) : Core :=
  { c with dataFile := c.dataFile.map fun f : DataFile => { f with contents := [] } }.emit .truncate

/-- `_data_file.close(); _data_file = {}; _data_path = {};` -/
def close (c : Core) : Core :=
  { c with dataFile := none, dataPath := [] }.emit
    (.close ((c.dataFile.map DataFile.contents).getD []))

def unlink (c : Core) : Core := c.emit (.unlink c.dataPath)

/-- `io::sync_file`. An accepted request completes sooner or later, and only the
completion is waited for. -/
def syncFile (env : Env) (c : Core) : Core × Int :=
  let outcome := (c.answer env).fsync
  (c.emit (.fsync outcome), if outcome = .refused then -1 else 0)

end Core

end Ervan.Smtp
