import Ervan.Library.Run
import Ervan.Library.Framing
import Ervan.Library.Splitting
import Ervan.Library.Grammar
import Ervan.Library.LittleEndian
import Ervan.Library.Archive
import Ervan.Library.Patching
import Ervan.Library.Base64
import Ervan.Library.Filling
import Ervan.Library.Interleaving
import Ervan.Library.Disk
import Ervan.Library.Conversation
import Ervan.Common.Text
import Ervan.Common.Span
import Ervan.Common.Join
import Ervan.Common.Look
import Ervan.Common.Lines
import Ervan.Common.Ram
import Ervan.Common.Message
import Ervan.Common.Base64Encode
import Ervan.Common.Framed
import Ervan.Common.Scanned
import Ervan.Common.Terminators
import Ervan.Common.Parse
import Ervan.Common.ParseLocal
import Ervan.Common.Holds
import Ervan.Common.Domain
import Ervan.Common.Mailbox
import Ervan.Common.Path
import Ervan.Common.Guarded
import Ervan.Common.Inside
import Ervan.Common.Overrun
import Ervan.Common.Stays
import Ervan.Common.Tar
import Ervan.Common.TarWrite
import Ervan.Common.Rfc5322
import Ervan.Common.Folding
import Ervan.Common.ShortLines
import Ervan.Common.Unfolding
import Ervan.Common.Filename
import Ervan.Common.Printable
import Ervan.Common.Lockstep
import Ervan.Common.Config
import Ervan.Common.ConfigPair
import Ervan.Common.ConfigScan
import Ervan.Common.Numeral
import Ervan.Smtp.Types
import Ervan.Smtp.Environment
import Ervan.Smtp.Core
import Ervan.Smtp.File
import Ervan.Smtp.FileSteps
import Ervan.Smtp.Commands
import Ervan.Smtp.CommandLine
import Ervan.Smtp.Dispatch
import Ervan.Smtp.Keyword
import Ervan.Smtp.Params
import Ervan.Smtp.Acknowledged
import Ervan.Smtp.DataLine
import Ervan.Smtp.Outcome
import Ervan.Smtp.Session
import Ervan.Smtp.Turn
import Ervan.Smtp.History
import Ervan.Smtp.Scanning
import Ervan.Smtp.Offsets
import Ervan.Smtp.Durability
import Ervan.Smtp.Replies
import Ervan.Smtp.Stream
import Ervan.Smtp.Chunking
import Ervan.Smtp.DataPhase
import Ervan.Smtp.LineMachine
import Ervan.Smtp.EndOfData
import Ervan.Smtp.Transmission
import Ervan.Smtp.Recovery
import Ervan.Smtp.Spool
import Ervan.Smtp.Dialogue
import Ervan.Smtp.Envelope
import Ervan.Smtp.ReplyStream
import Ervan.Smtp.Invariant
import Ervan.Smtp.Service
import Ervan.Smtp.Limits
import Ervan.Smtp.Orphans
import Ervan.Smtp.Working
import Ervan.Smtp.Trail
import Ervan.Smtp.Transaction
import Ervan.Smtp.Directory
import Ervan.Smtp.Accounts
import Ervan.Smtp.Server
import Ervan.Smtp.Record
import Ervan.Smtp.Secrecy
import Ervan.Smtp.Delivery
import Ervan.Smtp.Serving
import Ervan.Smtp.Concurrent
import Ervan.Smtp.MailText
import Ervan.Smtp.Client
import Ervan.Smtp.Submission
import Ervan.Smtp.Caller
import Ervan.Smtp.Agreement
import Ervan.Main.Exchange
import Ervan.Main.Reload
import Ervan.Main.Settings
import Ervan.Main.Deployment
import Ervan.Main.Bounds
import Ervan.Main.Monitor
import Ervan.Main.Supervision
