import Ervan.Common.Rfc5322
import Ervan.Common.Tar
import Ervan.Smtp.Core

/-!
# The spool file of a transaction

The file is created when DATA is accepted, with room for a header and the trace
information, and it is completed or removed when the data ends.
-/

namespace Ervan.Smtp

open Io Rfc5322

namespace Core

/-- The buffers `write_trace_info` writes, in order. -/
def traceInfo (a : Answer) : List Bytes :=
  let (w, header) := (Writer.mk a.stack).beginHeader (text "Received")
  let (w, by_) := w.writeBodyPart (text "by") true
  let (w, hostname) := w.writeBodyPart a.cfg.hostname true
  let (w, semicolon) := w.writeBodyPart (text ";") false
  let (_, time) := w.writeTime a.strftime
  header ++ by_ ++ hostname ++ semicolon ++ time ++ Writer.endHeader

def writeTraceInfo (env : Env) (c : Core) : Core × Bool :=
  c.writeAll env (traceInfo (c.answer env))

def writeHeaderSpace (env : Env) (c : Core) : Core × Bool :=
  c.write env (List.replicate 512 nul)

def writeDataTarHeader (env : Env) (length : Nat) (c : Core) : Core × Bool :=
  c.write env (TarHeader.filled (text "message.mbox") length (c.answer env).now).bytes

def writeMetadataTarHeader (env : Env) (length : Nat) (c : Core) : Core × Bool :=
  c.write env (TarHeader.filled (text "metadata.ervan") length (c.answer env).now).bytes

/-- `512 - file_size % sizeof(buffer)` is between 1 and 512. -/
def padData (env : Env) (c : Core) : Core × Bool :=
  let (c, fileSize) := c.tellg env
  c.write env (List.replicate (512 - sizeT fileSize % 512) nul)

/-- `metadata::write_to`. -/
def writeMetadata (env : Env) (c : Core) : Core × Bool :=
  c.writeAll env c.metadata.writes

def openFiles (env : Env) (c : Core) : Core × Bool :=
  let a := c.answer env
  let path := text "./ingoing/" ++ a.filename
  let c := { c with dataPath := cString (path ++ text ".tar") }
  let c := c.emit (.open_ c.dataPath a.opened)
  if !a.opened then (c, false)
  else
    let c := { c with dataFile := some ⟨[], 0⟩ }
    let (c, ok) := c.writeHeaderSpace env
    if !ok then (c, false) else c.writeTraceInfo env

/-- The lambda `check` of `finish_data`: the operation is skipped after an error and
its own failure is an error. -/
def check (op : Core → Core × Bool) (c : Core) : Core :=
  if c.dataError then c
  else
    let (c, ok) := op c
    if !ok then { c with dataError := true } else c

def abortData (env : Env) (c : Core) : Core :=
  let c := c.unlink.truncate.close
  let c := { c.reset env with state := .cmd }
  if c.dataTooLong then c.reply .exceededStorage
  else if c.lineTooLong then c.reply .exceededLine
  else if c.dataError then c.reply .localError
  else c

/-- The part of `finish_data` before its first abort: the message's header and padding. -/
def finishMessage (env : Env) (fileSize : Int) (c : Core) : Core :=
  let c := c.seekg 0 .set
  let c := c.check (writeDataTarHeader env (sizeT (fileSize - 512)))
  let c := c.seekg 0 .end
  c.check (padData env)

/-- The part between the first and the second abort: the envelope record with its
header and padding. -/
def finishMetadata (env : Env) (c : Core) : Core :=
  let (c, dataSize) := c.tellg env
  let c := c.check (writeHeaderSpace env)
  let (c, preMetadataSize) := c.tellg env
  let c := c.check (writeMetadata env)
  let (c, totalSize) := c.tellg env
  let c := c.seekg dataSize .set
  let c := c.check (writeMetadataTarHeader env (sizeT (totalSize - preMetadataSize)))
  let c := c.seekg 0 .end
  c.check (padData env)

/-- The part after the synchronisation. -/
def finishReply (env : Env) (c : Core) : Core :=
  { c.close.reset env with state := .cmd }.reply .ok

def finishData (env : Env) (c : Core) : Core :=
  let (c, fileSize) := c.tellg env
  if fileSize < 0 then c.abortData env
  else
    let c := c.finishMessage env fileSize
    if c.dataError then c.abortData env
    else
      let c := c.finishMetadata env
      if c.dataError then c.abortData env
      else
        let (c, result) := c.syncFile env
        if result ≠ 0 then { c with dataError := true }.abortData env
        else c.finishReply env

end Core

end Ervan.Smtp
