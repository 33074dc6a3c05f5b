import Ervan.Common.Text

/-!
# Replies

A reply is the list of the buffers handed to `send`, in order, with the status
code they announce. Most replies are one formatted message, sent by the size of
the object that holds it; the others put the configured hostname between
literals whose lengths are written out by hand.
-/

namespace Ervan.Smtp

structure Reply where
  code : Nat
  sends : List Bytes
  deriving DecidableEq, Repr

/-- `smtp_msg_str`: the code, a space, the text, CRLF and a NUL. -/
def smtpMsgStr (code : Nat) (str : Bytes) : Bytes :=
  [48 + UInt8.ofNat (code / 100 % 10), 48 + UInt8.ofNat (code / 10 % 10),
    48 + UInt8.ofNat (code / 1 % 10), 32] ++ str ++ [cr, lf, nul]

/-- `reply(T m)` sends `sizeof(m.msg)` bytes, the NUL of the object included. -/
def smtpReply (code : Nat) (str : String) : Reply := ⟨code, [smtpMsgStr code (text str)]⟩

namespace Reply

def ok : Reply := smtpReply 250 "OK"
def startData : Reply := smtpReply 354 "Start mail input; end with <CRLF>.<CRLF>"
def localError : Reply := smtpReply 451 "Requested action aborted: local error in processing"
def tooManyRecipients : Reply := smtpReply 452 "Too many recipients"
def invalidCommand : Reply := smtpReply 500 "Syntax error, command unrecognized"
def exceededLine : Reply := smtpReply 500 "Line too long"
def invalidParameters : Reply := smtpReply 501 "Syntax error in parameters or arguments"
def notImplemented : Reply := smtpReply 502 "Command not implemented"
def badSequence : Reply := smtpReply 503 "Bad sequence of commands"
def exceededStorage : Reply :=
  smtpReply 552 "Requested mail action aborted: exceeded storage allocation"

/-- `send_greeter`. -/
def greeter (hostname : Bytes) : Reply :=
  ⟨220, [counted "220 " 4, hostname, counted " SMTP Ervan 2 ready\r\n" 21]⟩

/-- The two lines of an accepted EHLO. -/
def ehlo (hostname : Bytes) : Reply :=
  ⟨250, [counted "250-" 4, hostname, counted " at your service\r\n" 18,
    counted "250 8BITMIME\r\n" 14]⟩

def helo (hostname : Bytes) : Reply :=
  ⟨250, [counted "250 " 4, hostname, counted " at your service\r\n" 18]⟩

def quit (hostname : Bytes) : Reply :=
  ⟨221, [counted "221 " 4, hostname, counted " do widzenia\r\n" 14]⟩

end Reply

/-- `cmd_terminator`. -/
def cmdTerminator : Bytes := text "\r\n"

end Ervan.Smtp
