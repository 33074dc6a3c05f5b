import Ervan.Common.Join
import Ervan.Smtp.File

/-!
# The data lines

What `feed_data` does with a line that `join` has delivered: the end of the data
completes or removes the spool file, every other line is unstuffed, measured and,
unless something is too long or has failed, stored.
-/

namespace Ervan.Smtp

open Rfc5322

/-- `_line_buffer`: `max_line_length + 2 + 24` bytes. -/
abbrev LineBuffer := Buffer 1022 2

namespace Core

/-- The span of a line without the dot that its sender put before it. -/
def unstuffed (m : Mem) (len : Nat) : Span :=
  if m 0 == 46 && m 1 == 46 then (Span.mk 0 len).advance 1 else ⟨0, len⟩

/-- The two limits, checked for a line of `n` bytes. -/
def measureLine (n : Nat) (c : Core) : Core :=
  let c := { c with dataSize := (c.dataSize + (n + 2)) % 2 ^ 64 }
  let c := if n > maxLineLength - 2 then { c with lineTooLong := true } else c
  if c.dataSize > c.maxDataSize then { c with dataTooLong := true } else c

/-- The line is the first `len` bytes of the buffer. Its CRLF is written into the
buffer behind it, and the line is stored with it. -/
def storeLine (env : Env) (b : LineBuffer) (len : Nat) (c : Core) : LineBuffer × Core :=
  let line := unstuffed b.mem len
  let c := c.measureLine line.len
  if c.lineTooLong || c.dataTooLong || c.dataError then (b, c)
  else
    let last := line.start + line.len
    let b := ((b.poke last cr).poke (last + 1) lf).poke (last + 2) nul
    let (c, ok) := c.write env (b.mem.read line.start (line.len + 2))
    (b, if !ok then { c with dataError := true } else c)

/-- The end of the data has been received. -/
def endData (env : Env) (c : Core) : Core :=
  if !c.lineTooLong && !c.dataTooLong then c.finishData env else c.abortData env

end Core

end Ervan.Smtp
