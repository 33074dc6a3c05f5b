import Ervan.Common.Text

/-!
# The envelope record

`metadata::write_to` writes four base64 lines and then the envelope, one line an
entry, without any escaping. The file is written by consecutive calls that stop
at the first failure, so the record is the list of the buffers handed to them.
-/

namespace Ervan

def base64Alphabet : Bytes :=
  text "ABCDEFGHIJKLMNOPQRSTUVWXYZabcdefghijklmnopqrstuvwxyz0123456789+/="

/-- The masks of `base64_encode` leave nothing of a `char`'s sign. -/
def base64Char (index : UInt8) : UInt8 := base64Alphabet.getD index.toNat nul

/-- What `base64_encode` puts at the start of `dst`; its length is what it returns. -/
def base64Encode : Bytes → Bytes
  | a :: b :: c :: rest =>
      base64Char ((a &&& 0xFC) >>> 2) ::
      base64Char (((a &&& 0x03) <<< 4) ||| ((b &&& 0xF0) >>> 4)) ::
      base64Char (((b &&& 0x0F) <<< 2) ||| ((c &&& 0xC0) >>> 6)) ::
      base64Char (c &&& 0x3F) :: base64Encode rest
  | [a, b] =>
      [base64Char ((a &&& 0xFC) >>> 2),
        base64Char (((a &&& 0x03) <<< 4) ||| ((b &&& 0xF0) >>> 4)),
        base64Char ((b &&& 0x0F) <<< 2), base64Char 64]
  | [a] =>
      [base64Char ((a &&& 0xFC) >>> 2), base64Char ((a &&& 0x03) <<< 4),
        base64Char 64, base64Char 64]
  | [] => []

def crlf : Bytes := [cr, lf]

structure Metadata where
  lineA : Bytes := List.replicate 32 nul
  lineB : Bytes := List.replicate 32 nul
  lineC : Bytes := List.replicate 32 nul
  lineD : Bytes := List.replicate 32 nul
  from_ : Bytes := []
  reversePath : Bytes := []
  forwardPaths : List Bytes := []
  deriving DecidableEq, Repr

namespace Metadata

/-- The first buffer of `write_to`: four base64 lines of 44 bytes. -/
def head (md : Metadata) : Bytes :=
  base64Encode md.lineA ++ crlf ++ base64Encode md.lineB ++ crlf ++
    base64Encode md.lineC ++ crlf ++ base64Encode md.lineD ++ crlf

/-- The buffers `metadata::write_to` writes, in order. -/
def writes (md : Metadata) : List Bytes :=
  md.head :: md.from_ :: crlf :: md.reversePath :: crlf ::
    md.forwardPaths.flatMap fun path => [path, crlf]

end Metadata

end Ervan
