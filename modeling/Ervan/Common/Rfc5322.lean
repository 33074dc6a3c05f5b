import Ervan.Common.Text

/-!
# The header writer

`writer` folds a header at a preferred line length. Its constructor leaves
`line_length` alone, so a writer starts with whatever was in memory. Like the
envelope record, a header is the list of the buffers handed to `file::write`.
-/

namespace Ervan.Rfc5322

def prefferedLineLength : Nat := 78
def maxLineLength : Nat := 998

structure Writer where
  lineLength : Int
  deriving DecidableEq, Repr

namespace Writer

def beginHeader (w : Writer) (name : Bytes) : Writer × List Bytes :=
  let name := cString name
  (⟨int32 (w.lineLength + name.length)⟩, [name, text ":"])

/-- `write_body_part` with lines of at most `limit` characters. The length of the line with the
part is a `size_t`, so that a negative `line_length` is taken off the length of the part. -/
def writeBodyPartWithin (limit : Nat) (w : Writer) (part : Bytes) (space : Bool) :
    Writer × List Bytes :=
  let part := cString part
  if sizeT (int32 (w.lineLength + (if space then 1 else 0)) + part.length) > limit then
    (⟨int32 (1 + part.length)⟩, [text "\r\n\t", part])
  else if space then
    (⟨int32 (w.lineLength + 1 + part.length)⟩, [text " ", part])
  else (⟨int32 (w.lineLength + part.length)⟩, [part])

def writeBodyPart (w : Writer) (part : Bytes) (space : Bool) : Writer × List Bytes :=
  w.writeBodyPartWithin prefferedLineLength part space

/-- The formats of `write_time`, in the order in which it writes them. -/
def timeFormats : List Bytes :=
  [text "%a,", text "%d", text "%b", text "%Y", text "%T", text "%z"]

/-- Consecutive body parts, each after a space. -/
def writeBodyParts (w : Writer) : List Bytes → Writer × List Bytes
  | [] => (w, [])
  | part :: parts =>
      let (w, first) := w.writeBodyPart part true
      let (w, rest) := w.writeBodyParts parts
      (w, first ++ rest)

/-- `write_time`, given what `strftime` makes of each format. -/
def writeTime (w : Writer) (strftime : Bytes → Bytes) : Writer × List Bytes :=
  w.writeBodyParts (timeFormats.map strftime)

def endHeader : List Bytes := [text "\r\n"]

end Writer

end Ervan.Rfc5322
