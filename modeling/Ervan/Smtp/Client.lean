import Ervan.Common.Path
import Ervan.Common.Printable
import Ervan.Smtp.Dispatch
import Ervan.Smtp.Limits
import Ervan.Smtp.LineMachine
import Ervan.Smtp.Params
import Ervan.Smtp.Transmission

/-!
# A client

A client that speaks the grammar: it greets, submits its mails one after another and may quit. The
service takes every mail that is within the limits as it has been submitted, and refuses the
others.
-/

namespace Ervan.Smtp

open Parse Grammar

/-- An address as it is written, with its source route. -/
structure Address where
  route : Bytes
  loc : Bytes
  value : Bytes
  dom : Bytes
  mailbox : Mailbox route loc value dom

/-- A mail as its client has it: the null path stands for no sender. -/
structure Mail where
  sender : Option Address
  parameters : Bytes
  recipients : List Address
  lines : List Bytes
  known : MailParams parameters
  addressed : recipients ≠ []
  clean : ∀ line ∈ lines, ¬ crlf <:+: line

structure Client where
  name : Bytes
  mails : List Mail
  quits : Bool
  domain : Domain name
  short : name.length ≤ domainMaxSize

/-- A verb, a blank and an argument. -/
def commandLine (verb : Verb) (argument : Bytes) : Bytes := verb.name ++ 32 :: argument

namespace Address

def path (a : Address) : Bytes := 60 :: (mailboxText a.route a.loc a.dom ++ [62])

/-- The source route is not kept. -/
def kept (a : Address) : Bytes := a.loc ++ 64 :: a.dom

end Address

namespace Mail

def senderPath (m : Mail) : Bytes := m.sender.elim [60, 62] Address.path

def senderKept (m : Mail) : Bytes := m.sender.elim [] Address.kept

def mailLine (m : Mail) : Bytes :=
  commandLine .mail (text "FROM:" ++ (m.senderPath ++ m.parameters))

def rcptLine (a : Address) : Bytes := commandLine .rcpt (text "TO:" ++ a.path)

/-- The lines of a submission. -/
def submission (m : Mail) : List Bytes :=
  m.mailLine :: m.recipients.map rcptLine ++ Verb.name .data :: (m.lines.map stuff ++ [text "."])

/-- The commands fit the command buffer, and the lines can be counted. -/
structure Fits (m : Mail) : Prop where
  sender : m.mailLine.length ≤ 510
  recipients : ∀ a ∈ m.recipients, (rcptLine a).length ≤ 510
  lines : ∀ line ∈ m.lines, line.length + 2 < 2 ^ 31

/-- The reply to the last line. -/
def verdict (cfg : Config) (m : Mail) : Reply :=
  if cfg.maxmessagesize < receivedSize (m.lines.map stuff) then .exceededStorage
  else if overlong (m.lines.map stuff) then .exceededLine
  else .ok

/-- The replies to a submission. There is room for so many recipients. -/
def replies (cfg : Config) (m : Mail) : List Reply :=
  .ok :: ((m.recipients.take cfg.maxrcpt).map fun _ => .ok) ++
    ((m.recipients.drop cfg.maxrcpt).map fun _ => .tooManyRecipients) ++
    [.startData, m.verdict cfg]

/-- The envelope of a mail that comes first after a greeting with this name, or after another mail
without a name. -/
def envelope (cfg : Config) (name : Bytes) (m : Mail) : Metadata :=
  { from_ := name
    reversePath := m.senderKept
    forwardPaths := (m.recipients.take cfg.maxrcpt).map Address.kept }

/-- What is accepted of a mail. -/
def taken (cfg : Config) (envelope : Metadata) (m : Mail) : List Message :=
  if WithinLimits cfg.maxmessagesize m.lines then [Message.mk envelope m.lines] else []

end Mail

/-- The accepted mails. The name of the client is in the envelope of the first mail only. -/
def accepted (cfg : Config) : Bytes → List Mail → List Message
  | _, [] => []
  | name, m :: mails =>
      m.taken cfg (m.envelope cfg name) ++ accepted cfg [] mails

namespace Client

def lines (c : Client) : List Bytes :=
  commandLine .ehlo c.name :: c.mails.flatMap Mail.submission ++
    if c.quits then [Verb.name .quit] else []

def replies (cfg : Config) (c : Client) : List Reply :=
  [.greeter cfg.hostname, .ehlo cfg.hostname] ++ c.mails.flatMap (Mail.replies cfg) ++
    if c.quits then [.quit cfg.hostname] else []

end Client

section Commands

variable {verb : Verb} {front back : Bytes}

theorem verbOf_commandLine (verb : Verb) (argument : Bytes) :
    verbOf (commandLine verb argument) = some verb := by
  have hupper : verb.name.map toupper = verb.name := by cases verb <;> decide
  exact (callsFor_iff.mp ⟨verb.name, hupper, Or.inr rfl⟩).1

theorem verbOf_name (verb : Verb) : verbOf verb.name = some verb := by
  have hupper : verb.name.map toupper = verb.name := by cases verb <;> decide
  exact (callsFor_iff.mp ⟨verb.name, hupper, Or.inl ⟨rfl, rfl⟩⟩).1

theorem not_bare_commandLine (verb : Verb) (argument : Bytes) :
    ¬ Bare (commandLine verb argument) := by
  rintro ⟨hlength, -⟩
  rw [commandLine, List.length_append, Core.name_length, List.length_cons] at hlength
  omega

/-- The bytes behind the first ones, and the NUL behind the last one. -/
theorem holds_behind (h : (front ++ back).length < 2 ^ 64) :
    (Mem.ofBytes (front ++ back)).Holds front.length back ∧
      Mem.ofBytes (front ++ back) (front.length + back.length) = nul := by
  refine ⟨?_, ?_⟩
  · simpa using (Mem.Holds.of_bytes h).append.2
  · simp [Mem.ofBytes]

theorem greetingOf_commandLine {name : Bytes} (domain : Domain name)
    (short : name.length ≤ domainMaxSize) : greetingOf (commandLine .ehlo name) = some name := by
  have hfront : (Verb.name .ehlo ++ [32]).length = 5 := rfl
  have hline : commandLine .ehlo name = Verb.name .ehlo ++ [32] ++ name := List.append_cons ..
  have hlength : (Verb.name .ehlo ++ [32] ++ name).length = 5 + name.length := by
    rw [List.length_append, hfront]
  have hsmall : 5 + name.length < 2 ^ 64 :=
    Nat.lt_of_le_of_lt (Nat.add_le_add_left short 5) (by decide)
  obtain ⟨hname, -⟩ := holds_behind (hlength.symm ▸ hsmall)
  rw [hfront] at hname
  have hdomain := (domain_eq_some hname).mpr
    ⟨name, [], (List.append_nil name).symm, domain.read until_nil, short, rfl⟩
  rw [greetingOf, hline, hlength, if_neg (by omega), Nat.add_sub_cancel_left, hdomain]
  exact congrArg some hname.read

/-- What is kept of a path. -/
theorem pathResult_text {m : Mem} {a left : Nat} {route loc v dom y : Bytes}
    (h : m.Holds a (60 :: (mailboxText route loc dom ++ y))) :
    (pathResult a route loc v dom left).mailbox.text m = loc ++ 64 :: dom := by
  have hmailbox := h.cons.2
  rw [mailboxText_append, ← List.cons_append, ← List.append_assoc loc] at hmailbox
  have hkept := hmailbox.append.2.append.1.read
  rw [List.length_append, List.length_cons] at hkept
  have hlength : a + 1 + route.length + loc.length + 1 + dom.length - (a + 1 + route.length) =
      loc.length + (dom.length + 1) := by omega
  simp only [MailboxResult.text, pathResult, mailboxResult, localResult, domainResult, hlength]
  exact hkept

/-- The reverse path of a MAIL, with its parameters behind it. -/
theorem reversePath_sent (m : Mail) {mem : Mem} {a : Nat}
    (h : mem.Holds a (m.senderPath ++ m.parameters))
    (hnul : mem (a + (m.senderPath ++ m.parameters).length) = nul) :
    ∃ r, reversePath mem ⟨a, (m.senderPath ++ m.parameters).length⟩ = some r ∧
      r.mailbox.text mem = m.senderKept ∧ Core.mailParams mem r.rest.len r.rest = true := by
  have hparameters := (mailParams_eq_true h.append.2 (Nat.le_refl _)).mpr m.known
  have hparsed {r : PartResult} (hr : IsReversePath a (m.senderPath ++ m.parameters) r) :=
    (reversePath_eq_some h hnul).mpr hr
  cases hsender : m.sender with
  | none =>
      have hpath : m.senderPath = [60, 62] := by rw [Mail.senderPath, hsender]; rfl
      have hkept : m.senderKept = [] := by rw [Mail.senderKept, hsender]; rfl
      refine ⟨emptyResult a m.parameters.length, hparsed (Or.inr ⟨m.parameters, ?_, rfl⟩), ?_, ?_⟩
      · rw [hpath]
        rfl
      · rw [hkept]
        rfl
      · rw [hpath] at hparameters
        exact hparameters
  | some address =>
      have hpath : m.senderPath = address.path := by rw [Mail.senderPath, hsender]; rfl
      have hkept : m.senderKept = address.kept := by rw [Mail.senderKept, hsender]; rfl
      have hbytes : m.senderPath ++ m.parameters =
          60 :: (mailboxText address.route address.loc address.dom ++ 62 :: m.parameters) := by
        rw [hpath, Address.path]
        simp
      refine ⟨pathResult a address.route address.loc address.value address.dom m.parameters.length,
        hparsed (Or.inl ⟨_, _, _, _, _, hbytes, address.mailbox, rfl⟩), ?_, ?_⟩
      · rw [hbytes] at h
        rw [hkept]
        exact pathResult_text h
      · have hlength : m.senderPath.length =
            (mailboxText address.route address.loc address.dom).length + 2 := by
          rw [hpath, Address.path]
          simp
        rw [hlength] at hparameters
        exact hparameters

theorem senderOf_mailLine (m : Mail) (hsmall : m.mailLine.length < 2 ^ 64) :
    senderOf m.mailLine = some m.senderKept ∧ parametersOf m.mailLine = true := by
  have hline : m.mailLine = text "MAIL FROM:" ++ (m.senderPath ++ m.parameters) := by
    rw [Mail.mailLine, commandLine, List.append_cons, ← List.append_assoc]
    rfl
  have hfront : (text "MAIL FROM:").length = 10 := rfl
  have hlength : m.mailLine.length = 10 + (m.senderPath ++ m.parameters).length := by
    rw [hline, List.length_append, hfront]
  rw [hline] at hsmall
  obtain ⟨hargument, hnul⟩ := holds_behind hsmall
  rw [hfront] at hargument hnul
  obtain ⟨r, hpath, hkept, hparameters⟩ := reversePath_sent m hargument hnul
  have hlong : ¬ m.mailLine.length < 10 := by omega
  have hargument : m.mailLine.length - 10 = (m.senderPath ++ m.parameters).length := by omega
  constructor
  · rw [senderOf, if_neg hlong, hargument, hline, hpath]
    exact congrArg some hkept
  · unfold parametersOf
    rw [hargument, hline, hpath]
    exact hparameters

theorem recipientOf_rcptLine (a : Address) (hsmall : (Mail.rcptLine a).length < 2 ^ 64) :
    8 ≤ (Mail.rcptLine a).length ∧ recipientOf (Mail.rcptLine a) = some a.kept := by
  have hline : Mail.rcptLine a = text "RCPT TO:" ++ a.path := by
    rw [Mail.rcptLine, commandLine, List.append_cons, ← List.append_assoc]
    rfl
  have hfront : (text "RCPT TO:").length = 8 := rfl
  have hlength : (Mail.rcptLine a).length = 8 + a.path.length := by
    rw [hline, List.length_append, hfront]
  rw [hline] at hsmall
  obtain ⟨hargument, hnul⟩ := holds_behind hsmall
  rw [hfront] at hargument hnul
  have hpath := (path_eq_some hargument hnul).mpr ⟨_, _, _, _, [], rfl, a.mailbox, rfl⟩
  refine ⟨by omega, ?_⟩
  rw [recipientOf, if_neg (by omega), hlength, Nat.add_sub_cancel_left, hline, hpath]
  exact congrArg some (pathResult_text hargument)

end Commands

section Printable

theorem printable_domain {x : Bytes} (h : Domain x) : Each printable x := by
  have hchar (c : UInt8) (hc : isLabelChar c = true) : printable c = true :=
    (forall_byte (p := fun c => isLabelChar c = true → printable c = true) (by decide +kernel) c) hc
  exact SepBy.each h rfl fun _ label => label.each.mono hchar

theorem printable_quoted {w v : Bytes} (h : QuotedText w v) : Each printable w := by
  induction h with
  | nil => exact .nil
  | text h rest ih => exact each_cons.mpr ⟨printable_of_qtext h, ih⟩
  | pair h rest ih =>
      exact each_cons.mpr ⟨by decide, each_cons.mpr ⟨by simpa [printable] using h, ih⟩⟩

theorem printable_localPart {x v : Bytes} (h : LocalPart x v) : Each printable x := by
  cases h with
  | dotString h =>
      exact SepBy.each h rfl fun _ atom => atom.each.mono fun _ hc => printable_of_isatext hc
  | quoted h =>
      exact each_cons.mpr ⟨by decide, each_append.mpr
        ⟨printable_quoted h, each_cons.mpr ⟨by decide, .nil⟩⟩⟩

theorem printable_route {x : Bytes} (h : Route x) : Each printable x := by
  rcases h with rfl | ⟨ds, hds, rfl⟩
  · exact .nil
  · refine each_append.mpr ⟨SepBy.each hds rfl ?_, each_cons.mpr ⟨by decide, .nil⟩⟩
    rintro _ ⟨d, rfl, hd, -⟩
    exact each_cons.mpr ⟨by decide, printable_domain hd⟩

theorem printable_path (a : Address) : Each printable a.path := by
  have h := a.mailbox
  refine each_cons.mpr ⟨by decide, each_append.mpr ⟨?_, each_cons.mpr ⟨by decide, .nil⟩⟩⟩
  exact each_append.mpr ⟨printable_route h.route, each_append.mpr
    ⟨printable_localPart h.local_part, each_cons.mpr ⟨by decide, printable_domain h.domain⟩⟩⟩

theorem printable_parameters {t : Bytes} (h : MailParams t) : Each printable t := by
  induction h with
  | nil => exact .nil
  | @body k v t hk hv rest ih =>
      have hchar (c : UInt8) (hc : toupper c ∈ text "BODY") : printable c = true :=
        (forall_byte (p := fun c => toupper c ∈ text "BODY" → printable c = true)
          (by decide +kernel) c) hc
      have hkey : Each printable k := fun c hc => hchar c (hk ▸ List.mem_map_of_mem hc)
      have hvalues : ∀ v ∈ bodyValues, v.all printable = true := by decide
      exact each_cons.mpr ⟨by decide, each_append.mpr ⟨hkey, each_cons.mpr
        ⟨by decide, each_append.mpr ⟨.of_all (hvalues v hv), ih⟩⟩⟩⟩

theorem printable_commandLine (verb : Verb) {argument : Bytes} (h : Each printable argument) :
    Each printable (commandLine verb argument) :=
  each_append.mpr ⟨by cases verb <;> exact .of_all (by decide), each_cons.mpr ⟨by decide, h⟩⟩

/-- A line without control characters has no CRLF in it. -/
theorem clean_of_printable {line : Bytes} (h : Each printable line) : ¬ crlf <:+: line := by
  intro hin
  have hcr : cr ∈ line := hin.subset (by decide)
  exact absurd (h cr hcr) (by decide)

end Printable

section Clean

theorem clean_name (verb : Verb) : ¬ crlf <:+: verb.name := by cases verb <;> decide

theorem clean_greeting {name : Bytes} (domain : Domain name) :
    ¬ crlf <:+: commandLine .ehlo name :=
  clean_of_printable (printable_commandLine _ (printable_domain domain))

theorem clean_mailLine (m : Mail) : ¬ crlf <:+: m.mailLine := by
  refine clean_of_printable (printable_commandLine _ ?_)
  refine each_append.mpr ⟨.of_all (by decide), each_append.mpr ⟨?_, printable_parameters m.known⟩⟩
  cases hsender : m.sender with
  | none =>
      rw [Mail.senderPath, hsender]
      exact .of_all (by decide)
  | some a =>
      rw [Mail.senderPath, hsender]
      exact printable_path a

theorem clean_rcptLine (a : Address) : ¬ crlf <:+: Mail.rcptLine a :=
  clean_of_printable (printable_commandLine _
    (each_append.mpr ⟨.of_all (by decide), printable_path a⟩))

/-- What holds of every line of a submission. -/
theorem forall_submission {P : Bytes → Prop} (m : Mail) (sender : P m.mailLine)
    (recipients : ∀ a ∈ m.recipients, P (Mail.rcptLine a)) (data : P (Verb.name .data))
    (lines : ∀ line ∈ m.lines, P (stuff line)) (last : P (text ".")) :
    ∀ line ∈ m.submission, P line := by
  simp only [Mail.submission, List.forall_mem_cons, List.forall_mem_append, List.forall_mem_map,
    List.cons_append]
  exact ⟨sender, recipients, data, lines, last, fun _ h => absurd h List.not_mem_nil⟩

/-- What holds of every line of a client. -/
theorem forall_lines {P : Bytes → Prop} (c : Client) (greeting : P (commandLine .ehlo c.name))
    (mails : ∀ m ∈ c.mails, ∀ line ∈ m.submission, P line) (quit : P (Verb.name .quit)) :
    ∀ line ∈ c.lines, P line := by
  intro line hline
  rw [Client.lines, List.mem_append, List.mem_cons, List.mem_flatMap] at hline
  rcases hline with (rfl | ⟨m, hm, hline⟩) | hline
  · exact greeting
  · exact mails m hm line hline
  · split at hline
    · rw [List.mem_singleton.mp hline]
      exact quit
    · cases hline

/-- The stream of a client is cut into its lines. -/
theorem Client.clean (c : Client) : ∀ line ∈ c.lines, ¬ crlf <:+: line :=
  forall_lines c (clean_greeting c.domain)
    (fun m _ => forall_submission m (clean_mailLine m) (fun a _ => clean_rcptLine a)
      (clean_name .data) (fun line hline => stuff_clean (m.clean line hline)) (by decide))
    (clean_name .quit)

end Clean

section Limits

/-- A line of a message is too long when it is too long as it has been sent. -/
theorem overlong_stuff (lines : List Bytes) :
    overlong (lines.map stuff) = false ↔ ∀ line ∈ lines, line.length ≤ 996 := by
  simp [overlong, unstuff_stuff]

theorem receivedSize_stuff {lines : List Bytes} (h : ∀ line ∈ lines, line.length ≤ 996) :
    receivedSize (lines.map stuff) = messageSize lines := by
  have hcomp : (fun line => (unstuff line).length + 2) ∘ stuff =
      fun line : Bytes => line.length + 2 := by
    funext line
    rw [Function.comp_apply, unstuff_stuff]
  rw [receivedSize_of_short ((overlong_stuff lines).mpr h), wireSize, List.map_map, hcomp,
    messageSize]

end Limits

namespace Service

/-- A MAIL or a RCPT that is taken for a command has an argument. -/
def Argued (v : Service) (line : Bytes) : Prop := v.phase = .cmd → ¬ Bare line

/-- The service hears the lines, with all operations behind them working, and is left in this
state. -/
structure Hears (cfg : Config) (v : Service) (lines : List Bytes) (v' : Service) : Prop where
  argued : Run.Along (fun v line => v.hear cfg true line) Argued v lines
  ends : lines.foldl (fun v line => v.hear cfg true line) v = v'

/-- Between two mails, with the name of the client if no mail has come after it. -/
def between (name : Bytes) (replies : List Reply) (messages : List Message) : Service :=
  ⟨.cmd, true, false, { from_ := name }, replies, messages⟩

/-- A mail with its sender and the recipients so far. -/
def addressed (name sender : Bytes) (paths : List Bytes) (replies : List Reply)
    (messages : List Message) : Service :=
  ⟨.cmd, true, true, { from_ := name, reversePath := sender, forwardPaths := paths }, replies,
    messages⟩

variable {cfg : Config} {v v' v'' : Service} {line name sender : Bytes} {lines lines' : List Bytes}
variable {replies : List Reply} {messages : List Message}

theorem Hears.nil (cfg : Config) (v : Service) : Hears cfg v [] v := ⟨trivial, rfl⟩

theorem Hears.append (h : Hears cfg v lines v') (h' : Hears cfg v' lines' v'') :
    Hears cfg v (lines ++ lines') v'' := by
  constructor
  · rw [Run.along_append, h.ends]
    exact ⟨h.argued, h'.argued⟩
  · rw [List.foldl_append, h.ends, h'.ends]

theorem Hears.of_eq (h : Hears cfg v lines v') (heq : v' = v'') : Hears cfg v lines v'' := heq ▸ h

/-- A command that fits the buffer. -/
theorem Hears.command (hphase : v.phase = .cmd) (hlen : line.length ≤ 510) (argued : ¬ Bare line)
    (h : v.command cfg true line = v') : Hears cfg v [line] v' := by
  refine ⟨⟨fun _ => argued, trivial⟩, ?_⟩
  rw [List.foldl_cons, List.foldl_nil, hear, hphase]
  dsimp only
  rw [if_pos hlen, h]

theorem hears_greeting (domain : Domain name) (short : name.length ≤ domainMaxSize) :
    Hears cfg (start cfg) [commandLine .ehlo name]
      (between name [.greeter cfg.hostname, .ehlo cfg.hostname] []) := by
  refine .command rfl ?_ (not_bare_commandLine _ _) ?_
  · have hsize : domainMaxSize = 255 := rfl
    rw [commandLine, List.length_append, Core.name_length, List.length_cons]
    omega
  · rw [command, verbOf_commandLine]
    dsimp only
    rw [greet, greetingOf_commandLine domain short]
    rfl

theorem hears_quit (name : Bytes) (replies : List Reply) (messages : List Message) :
    Hears cfg (between name replies messages) [Verb.name .quit]
      { between name (replies ++ [.quit cfg.hostname]) messages with phase := .closed } := by
  refine .command rfl (by decide) (by decide) ?_
  rw [command, verbOf_name]
  rfl

theorem hears_sender (m : Mail) (fits : m.Fits) :
    Hears cfg (between name replies messages) [m.mailLine]
      (addressed name m.senderKept [] (replies ++ [.ok]) messages) := by
  obtain ⟨hsender, hparameters⟩ := senderOf_mailLine m (Nat.lt_of_le_of_lt fits.sender (by decide))
  refine .command rfl fits.sender (not_bare_commandLine _ _) ?_
  rw [command, Mail.mailLine, verbOf_commandLine]
  dsimp only
  rw [← Mail.mailLine, mail, hsender]
  dsimp only
  rw [hparameters]
  rfl

theorem hears_recipient (cfg : Config) (name sender : Bytes) (paths : List Bytes)
    (replies : List Reply) (messages : List Message) (a : Address)
    (fits : (Mail.rcptLine a).length ≤ 510) :
    Hears cfg (addressed name sender paths replies messages) [Mail.rcptLine a]
      (if cfg.maxrcpt ≤ paths.length then
        addressed name sender paths (replies ++ [.tooManyRecipients]) messages
      else addressed name sender (paths ++ [a.kept]) (replies ++ [.ok]) messages) := by
  obtain ⟨hlong, hrecipient⟩ := recipientOf_rcptLine a (Nat.lt_of_le_of_lt fits (by decide))
  refine .command rfl fits (not_bare_commandLine _ _) ?_
  rw [command, Mail.rcptLine, verbOf_commandLine]
  dsimp only
  rw [← Mail.rcptLine, rcpt, if_neg (by omega), hrecipient]
  rfl

/-- Recipients are accepted as long as there is room. -/
theorem hears_recipients (cfg : Config) (name sender : Bytes) (paths : List Bytes)
    (replies : List Reply) (messages : List Message) (recipients : List Address)
    (fits : ∀ a ∈ recipients, (Mail.rcptLine a).length ≤ 510) :
    Hears cfg (addressed name sender paths replies messages) (recipients.map Mail.rcptLine)
      (addressed name sender
        (paths ++ (recipients.take (cfg.maxrcpt - paths.length)).map Address.kept)
        (replies ++ ((recipients.take (cfg.maxrcpt - paths.length)).map fun _ => .ok) ++
          ((recipients.drop (cfg.maxrcpt - paths.length)).map fun _ => .tooManyRecipients))
        messages) := by
  induction recipients generalizing paths replies with
  | nil =>
      simp only [List.map_nil, List.take_nil, List.drop_nil, List.append_nil]
      exact .nil cfg _
  | cons a recipients ih =>
      have hfirst := hears_recipient cfg name sender paths replies messages a
        (fits a List.mem_cons_self)
      have hrest (paths : List Bytes) (replies : List Reply) :=
        ih paths replies fun b hb => fits b (List.mem_cons_of_mem a hb)
      rw [List.map_cons, ← List.singleton_append]
      by_cases hfull : cfg.maxrcpt ≤ paths.length
      · rw [if_pos hfull] at hfirst
        have hall := hfirst.append (hrest paths (replies ++ [.tooManyRecipients]))
        rw [Nat.sub_eq_zero_of_le hfull] at hall ⊢
        simpa using hall
      · rw [if_neg hfull] at hfirst
        have hall := hfirst.append (hrest (paths ++ [a.kept]) (replies ++ [.ok]))
        obtain ⟨room, hroom⟩ : ∃ room, cfg.maxrcpt - paths.length = room + 1 :=
          ⟨cfg.maxrcpt - paths.length - 1, by omega⟩
        have hless : cfg.maxrcpt - (paths ++ [a.kept]).length = room := by
          rw [List.length_append, List.length_singleton]
          omega
        rw [hless] at hall
        rw [hroom]
        simpa using hall

theorem hears_data {paths : List Bytes} (hpaths : paths ≠ []) :
    Hears cfg (addressed name sender paths replies messages) [Verb.name .data]
      { addressed name sender paths (replies ++ [.startData]) messages with phase := .data [] } := by
  refine .command rfl (by decide) (by decide) ?_
  have hsome : ((addressed name sender paths replies messages).envelope.forwardPaths.length == 0) =
      false := beq_eq_false_iff_ne.mpr (mt List.length_eq_zero_iff.mp hpaths)
  rw [command, verbOf_name]
  dsimp only
  rw [data, hsome]
  rfl

/-- The lines of a message that have been stuffed do not end it. -/
theorem hears_stuffed (hphase : v.phase = .data lines) (more : List Bytes) :
    Hears cfg v (more.map stuff) { v with phase := .data (lines ++ more.map stuff) } := by
  induction more generalizing v lines with
  | nil =>
      rw [List.map_nil, List.append_nil, ← hphase]
      exact .nil cfg v
  | cons line more ih =>
      have hgoing : ¬ (EndsData (stuff line) ∧ (stuff line).length ≤ 1022) :=
        fun h => stuff_going line h.1
      have hfirst : Hears cfg v [stuff line] { v with phase := .data (lines ++ [stuff line]) } := by
        refine ⟨⟨fun hcmd => ?_, trivial⟩, ?_⟩
        · rw [hphase] at hcmd
          cases hcmd
        · rw [List.foldl_cons, List.foldl_nil, hear, hphase]
          exact if_neg hgoing
      have hall := hfirst.append (ih rfl)
      rwa [List.append_assoc] at hall

/-- The end of a message decides about it. -/
theorem finish_stuff (v : Service) (m : Mail) :
    v.finish cfg true (m.lines.map stuff) =
      { v.renew with messages := v.messages ++ m.taken cfg v.envelope }.say (m.verdict cfg) := by
  have hlines : (m.lines.map stuff).map unstuff = m.lines := by
    simp [Function.comp_def, unstuff_stuff]
  by_cases hlimits : WithinLimits cfg.maxmessagesize m.lines
  · have hsize := receivedSize_stuff hlimits.1
    have hlong := (overlong_stuff m.lines).mpr hlimits.1
    have hsmall : ¬ cfg.maxmessagesize < receivedSize (m.lines.map stuff) := by
      rw [hsize]
      exact Nat.not_lt.mpr hlimits.2
    have hverdict : m.verdict cfg = .ok := by
      rw [Mail.verdict, if_neg hsmall, hlong]
      rfl
    rw [finish_within hsmall hlong, hlines, hverdict, Mail.taken, if_pos hlimits]
    rfl
  · rw [Mail.taken, if_neg hlimits, List.append_nil]
    by_cases hbig : cfg.maxmessagesize < receivedSize (m.lines.map stuff)
    · rw [finish_big hbig, Mail.verdict, if_pos hbig]
      rfl
    · cases hlong : overlong (m.lines.map stuff) with
      | true =>
          rw [finish_long hbig hlong, Mail.verdict, if_neg hbig, hlong]
          rfl
      | false =>
          have hshort := (overlong_stuff m.lines).mp hlong
          rw [receivedSize_stuff hshort] at hbig
          exact absurd ⟨hshort, Nat.not_lt.mp hbig⟩ hlimits

theorem hears_end (m : Mail) (hphase : v.phase = .data (m.lines.map stuff)) :
    Hears cfg v [text "."]
      ({ v.renew with messages := v.messages ++ m.taken cfg v.envelope }.say (m.verdict cfg)) := by
  refine ⟨⟨fun hcmd => ?_, trivial⟩, ?_⟩
  · rw [hphase] at hcmd
    cases hcmd
  · rw [List.foldl_cons, List.foldl_nil, hear, hphase, ← finish_stuff]
    exact if_pos (by decide)

/-- A mail is accepted or refused, and forgotten. -/
theorem hears_mail (name : Bytes) (replies : List Reply) (messages : List Message) (m : Mail)
    (fits : m.Fits) (hroom : 0 < cfg.maxrcpt) :
    Hears cfg (between name replies messages) m.submission
      (between [] (replies ++ m.replies cfg)
        (messages ++ m.taken cfg (m.envelope cfg name))) := by
  have hsubmission : m.submission = [m.mailLine] ++ (m.recipients.map Mail.rcptLine ++
      ([Verb.name .data] ++ (m.lines.map stuff ++ [text "."]))) := by simp [Mail.submission]
  have hrecipients := hears_recipients cfg name m.senderKept [] (replies ++ [.ok]) messages
    m.recipients fits.recipients
  rw [List.length_nil, Nat.sub_zero, List.nil_append] at hrecipients
  have hsome : (m.recipients.take cfg.maxrcpt).map Address.kept ≠ [] := by
    have htake : m.recipients.take cfg.maxrcpt ≠ [] := by
      rw [Ne, List.take_eq_nil_iff, not_or]
      exact ⟨Nat.ne_of_gt hroom, m.addressed⟩
    exact mt List.map_eq_nil_iff.mp htake
  rw [hsubmission]
  refine (hears_sender m fits).append (hrecipients.append ((hears_data hsome).append
    ((hears_stuffed rfl m.lines).append ?_)))
  refine (hears_end m rfl).of_eq ?_
  have hreplies : replies ++ m.replies cfg = replies ++ [.ok] ++
      ((m.recipients.take cfg.maxrcpt).map fun _ => .ok) ++
      ((m.recipients.drop cfg.maxrcpt).map fun _ => .tooManyRecipients) ++ [.startData] ++
      [m.verdict cfg] := by simp [Mail.replies]
  rw [hreplies]
  rfl

/-- All mails of a client in turn. -/
theorem hears_mails (name : Bytes) (replies : List Reply) (messages : List Message)
    (mails : List Mail) (fits : ∀ m ∈ mails, m.Fits) (hroom : 0 < cfg.maxrcpt) :
    Hears cfg (between name replies messages) (mails.flatMap Mail.submission)
      (between (if mails = [] then name else []) (replies ++ mails.flatMap (Mail.replies cfg))
        (messages ++ accepted cfg name mails)) := by
  induction mails generalizing name replies messages with
  | nil =>
      simp only [List.flatMap_nil, accepted, List.append_nil, if_true]
      exact .nil cfg _
  | cons m mails ih =>
      have hfirst := hears_mail name replies messages m (fits m List.mem_cons_self) hroom
      have hrest := ih [] (replies ++ m.replies cfg) (messages ++ m.taken cfg (m.envelope cfg name))
        fun m' hm' => fits m' (List.mem_cons_of_mem m hm')
      have hall := hfirst.append hrest
      rw [ite_self, List.append_assoc, List.append_assoc] at hall
      rwa [List.flatMap_cons, List.flatMap_cons, accepted, if_neg (List.cons_ne_nil m mails)]

/-- A whole conversation. -/
theorem hears_client (c : Client) (fits : ∀ m ∈ c.mails, m.Fits) (hroom : 0 < cfg.maxrcpt) :
    ∃ v, Hears cfg (start cfg) c.lines v ∧ v.replies = c.replies cfg ∧
      v.messages = accepted cfg c.name c.mails ∧
      v.phase = if c.quits then .closed else .cmd := by
  have hmails := (hears_greeting c.domain c.short).append
    (hears_mails c.name [.greeter cfg.hostname, .ehlo cfg.hostname] [] c.mails fits hroom)
  cases hquits : c.quits with
  | true =>
      rw [Client.lines, Client.replies, hquits, if_pos rfl, if_pos rfl]
      exact ⟨_, hmails.append (hears_quit _ _ _), rfl, rfl, rfl⟩
  | false =>
      rw [Client.lines, Client.replies, hquits, if_neg Bool.false_ne_true, if_neg Bool.false_ne_true,
        List.append_nil, List.append_nil]
      exact ⟨_, hmails, rfl, rfl, rfl⟩

end Service

end Ervan.Smtp
