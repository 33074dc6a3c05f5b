import Ervan.Smtp.Types

/-!
# What a session talks to

A session interacts with its socket, its spool file, its log and its
configuration. Every interaction is an event, and the environment answers each
of them: it is a function of the number of events before it, so that an outcome
may differ from one operation to the next in any way.
-/

namespace Ervan.Smtp

/-- The configuration keys a session reads. -/
structure Config where
  hostname : Bytes
  maxmessagesize : Nat
  maxrcpt : Nat
  deriving DecidableEq, Repr

/-- `aio_fsync` is refused, or it is accepted and completes, with or without an error. -/
inductive Fsync where
  | refused
  | failed
  | done
  deriving DecidableEq, Repr

/-- Everything the environment may be asked at one point of a run. -/
structure Answer where
  cfg : Config
  /-- `get_unique_filename("msg")`. Its counter never repeats a name, so a file of
  that name is always a new one. -/
  filename : Bytes
  /-- `open` yields a descriptor. -/
  opened : Bool
  /-- `file::write` succeeds. -/
  written : Bool
  /-- How much of the buffer a failing `file::write` leaves in the file. -/
  torn : Nat
  /-- `file::tellg` yields a position, and not a negative number. -/
  told : Bool
  fsync : Fsync
  /-- `time(nullptr)`. -/
  now : Nat
  strftime : Bytes → Bytes
  /-- What the stack holds where `writer::line_length` is put. -/
  stack : Int

abbrev Env := Nat → Answer

inductive Whence where
  | set
  | «end»
  deriving DecidableEq, Repr

/-- The interactions of a session. `line` is a command line, which `feed_cmd` logs
before it is handled; `close` carries the contents that the closed file has. -/
inductive Event where
  | line (bytes : Bytes)
  | reply (reply : Reply)
  | open_ (path : Bytes) (ok : Bool)
  | write (data : Bytes) (ok : Bool)
  | tell (pos : Int)
  | seek (pos : Int) (whence : Whence)
  | fsync (outcome : Fsync)
  | truncate
  | unlink (path : Bytes)
  | close (contents : Bytes)
  deriving DecidableEq, Repr

/-- An open regular file: its contents and the offset of the next write. -/
structure DataFile where
  contents : Bytes
  pos : Nat
  deriving DecidableEq, Repr

namespace DataFile

/-- A write at the current offset. A gap before it reads as NULs. -/
def write (f : DataFile) (data : Bytes) : DataFile where
  contents := f.contents.take f.pos ++ List.replicate (f.pos - f.contents.length) nul ++
    data ++ f.contents.drop (f.pos + data.length)
  pos := f.pos + data.length

/-- `lseek`. A position before the start of the file is an error and changes nothing. -/
def seek (f : DataFile) (pos : Int) : Whence → DataFile
  | .set => if pos < 0 then f else { f with pos := pos.toNat }
  | .end =>
      if f.contents.length + pos < 0 then f
      else { f with pos := (f.contents.length + pos).toNat }

end DataFile

end Ervan.Smtp
