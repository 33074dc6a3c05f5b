import Ervan.Common.Lockstep
import Ervan.Smtp.Chunking
import Ervan.Smtp.Invariant

/-!
# What the initial memory shows

Two sessions that differ only in the members that the constructor does not set receive the same
chunks from the same environment. They stay in lock-step, with the same interactions, as long as
nothing is read that neither of them has written: the error flag, the match window before its
first byte, and the bytes behind a RCPT or MAIL without an argument.
-/

namespace Ervan.Smtp

open Parse

/-- The recipient that a RCPT without an argument finds behind its line. -/
def strayRecipient (b : CmdBuffer) : Option Bytes :=
  (path b.mem ⟨8, 2 ^ 64 - 1 - 3⟩).map fun path => path.mailbox.text b.mem

/-- Whether a MAIL without an argument finds a sender behind its line. -/
def straySender (b : CmdBuffer) : Bool := (reversePath b.mem ⟨10, 2 ^ 64 - 1 - 5⟩).isSome

namespace Core

/-- The members are the same, except those of a data phase. In one, only the error flag may
differ. -/
def Twin (c c' : Core) : Prop :=
  ∃ n d e l,
    c' = { c with dataSize := n, dataTooLong := d, dataError := e, lineTooLong := l } ∧
      (c.state = .data → n = c.dataSize ∧ d = c.dataTooLong ∧ l = c.lineTooLong)

/-- The line is handled by the value of the error flag. -/
def ConsultsError (line : Bytes) (c : Core) : Prop :=
  let c := if EndsData line then c else c.measureLine (unstuff line).length
  c.lineTooLong = false ∧ c.dataTooLong = false

instance (line : Bytes) (c : Core) : Decidable (ConsultsError line c) :=
  inferInstanceAs (Decidable (_ ∧ _))

section Handlers

variable {env : Env} {c c' : Core} {m : Mem} {sp : Span}

theorem Twin.refl (c : Core) : Twin c c := ⟨_, _, _, _, rfl, fun _ => ⟨rfl, rfl, rfl⟩⟩

theorem Twin.state (h : Twin c c') : c'.state = c.state := by
  obtain ⟨n, d, e, l, rfl, -⟩ := h
  rfl

theorem Twin.log (h : Twin c c') : c'.log = c.log := by
  obtain ⟨n, d, e, l, rfl, -⟩ := h
  rfl

theorem Twin.answer (h : Twin c c') : c'.answer env = c.answer env := by
  rw [Core.answer, Core.answer, h.log]

theorem Twin.dataFile (h : Twin c c') : c'.dataFile = c.dataFile := by
  obtain ⟨n, d, e, l, rfl, -⟩ := h
  rfl

theorem Twin.setFile (h : Twin c c') (f : Option DataFile) :
    Twin { c with dataFile := f } { c' with dataFile := f } := by
  obtain ⟨n, d, e, l, rfl, hdata⟩ := h
  exact ⟨n, d, e, l, rfl, hdata⟩

theorem Twin.reply (h : Twin c c') (r : Reply) : Twin (c.reply r) (c'.reply r) := by
  obtain ⟨n, d, e, l, rfl, hdata⟩ := h
  exact ⟨n, d, e, l, rfl, hdata⟩

theorem Twin.emit (h : Twin c c') (e : Event) : Twin (c.emit e) (c'.emit e) := by
  obtain ⟨n, d, e, l, rfl, hdata⟩ := h
  exact ⟨n, d, e, l, rfl, hdata⟩

theorem Twin.ehlo (h : Twin c c') (m : Mem) (sp : Span) :
    Twin (c.ehlo env m sp) (c'.ehlo env m sp) := by
  unfold Core.ehlo
  cases domain m sp with
  | none => exact h.reply .invalidParameters
  | some d =>
      obtain ⟨n, d, e, l, rfl, hdata⟩ := h
      exact ⟨n, d, e, l, rfl, fun hstate => by cases hstate⟩

theorem Twin.helo (h : Twin c c') (m : Mem) (sp : Span) :
    Twin (c.helo env m sp) (c'.helo env m sp) := by
  unfold Core.helo
  cases domain m sp with
  | none => exact h.reply .invalidParameters
  | some d =>
      obtain ⟨n, d, e, l, rfl, hdata⟩ := h
      exact ⟨n, d, e, l, rfl, fun hstate => by cases hstate⟩

theorem Twin.mailPath (h : Twin c c') (m : Mem) (sp : Span) :
    Twin (c.mailPath m sp) (c'.mailPath m sp) := by
  unfold Core.mailPath
  cases reversePath m sp with
  | none => exact h.reply .invalidParameters
  | some reverse =>
      obtain ⟨n, d, e, l, rfl, hdata⟩ := h
      dsimp only
      split
      · exact ⟨n, d, e, l, rfl, hdata⟩
      · split
        · exact ⟨n, d, e, l, rfl, hdata⟩
        · exact ⟨n, d, e, l, rfl, hdata⟩

/-- RCPT sees no more of its argument than the path in it. -/
theorem Twin.rcptPath (h : Twin c c') {m m' : Mem} {sp sp' : Span}
    (hpath : (path m sp).map (fun path => path.mailbox.text m) =
      (path m' sp').map fun path => path.mailbox.text m') :
    Twin (c.rcptPath m sp) (c'.rcptPath m' sp') := by
  obtain ⟨n, d, e, l, rfl, hdata⟩ := h
  unfold Core.rcptPath
  dsimp only
  split
  · exact ⟨n, d, e, l, rfl, hdata⟩
  · split
    · exact ⟨n, d, e, l, rfl, hdata⟩
    · cases hp : path m sp with
      | none =>
          rw [hp, Option.map_none, eq_comm, Option.map_eq_none_iff] at hpath
          rw [hpath]
          exact ⟨n, d, e, l, rfl, hdata⟩
      | some p =>
          rw [hp, Option.map_some, eq_comm, Option.map_eq_some_iff] at hpath
          obtain ⟨p', hp', htext⟩ := hpath
          rw [hp']
          dsimp only
          rw [htext]
          exact ⟨n, d, e, l, rfl, hdata⟩

theorem Twin.write (h : Twin c c') (env : Env) (data : Bytes) :
    Twin (c.write env data).1 (c'.write env data).1 ∧
      (c.write env data).2 = (c'.write env data).2 := by
  unfold Core.write
  rw [h.dataFile, h.answer]
  cases c.dataFile with
  | none => exact ⟨h.emit _, rfl⟩
  | some f =>
      dsimp only
      split
      · exact ⟨(h.setFile _).emit _, rfl⟩
      · exact ⟨(h.setFile _).emit _, rfl⟩

theorem Twin.writeAll (h : Twin c c') (env : Env) (datas : List Bytes) :
    Twin (c.writeAll env datas).1 (c'.writeAll env datas).1 ∧
      (c.writeAll env datas).2 = (c'.writeAll env datas).2 := by
  induction datas generalizing c c' with
  | nil => exact ⟨h, rfl⟩
  | cons data datas ih =>
      obtain ⟨hwrite, hok⟩ := h.write env data
      rw [Core.writeAll, Core.writeAll]
      generalize c.write env data = r at hwrite hok ⊢
      generalize c'.write env data = r' at hwrite hok ⊢
      obtain ⟨c₁, ok⟩ := r
      obtain ⟨c₁', ok'⟩ := r'
      cases hok
      cases ok with
      | false => exact ⟨hwrite, rfl⟩
      | true => exact ih hwrite

theorem Twin.writeStart (h : Twin c c') (env : Env) :
    let start (c : Core) := if !(c.writeHeaderSpace env).2 then ((c.writeHeaderSpace env).1, false)
      else (c.writeHeaderSpace env).1.writeTraceInfo env
    Twin (start c).1 (start c').1 ∧ (start c).2 = (start c').2 := by
  intro start
  obtain ⟨hspace, hok⟩ := h.write env (List.replicate 512 nul)
  have hspace : Twin (c.writeHeaderSpace env).1 (c'.writeHeaderSpace env).1 := hspace
  have hok : (c.writeHeaderSpace env).2 = (c'.writeHeaderSpace env).2 := hok
  simp only [start, ← hok]
  split
  · exact ⟨hspace, rfl⟩
  · rw [writeTraceInfo, writeTraceInfo, hspace.answer]
    exact hspace.writeAll env _

theorem Twin.openFiles (h : Twin c c') (env : Env) :
    Twin (c.openFiles env).1 (c'.openFiles env).1 ∧
      (c.openFiles env).2 = (c'.openFiles env).2 := by
  have hnamed (path : Bytes) : Twin { c with dataPath := path } { c' with dataPath := path } := by
    obtain ⟨n, d, e, l, rfl, hdata⟩ := h
    exact ⟨n, d, e, l, rfl, hdata⟩
  unfold Core.openFiles
  simp only [h.answer]
  split
  · exact ⟨(hnamed _).emit _, rfl⟩
  · exact (((hnamed _).emit _).setFile (some ⟨[], 0⟩)).writeStart env

theorem Twin.data (h : Twin c c') : Twin (c.data env) (c'.data env) := by
  obtain ⟨hfile, hok⟩ := h.openFiles env
  have hset : c'.reverseSet = c.reverseSet := by
    obtain ⟨n, d, e, l, rfl, -⟩ := h
    rfl
  have hpaths : c'.metadata = c.metadata := by
    obtain ⟨n, d, e, l, rfl, -⟩ := h
    rfl
  unfold Core.data
  rw [hset, hpaths]
  split
  · exact h.reply .badSequence
  · generalize c.openFiles env = r at hfile hok ⊢
    generalize c'.openFiles env = r' at hfile hok ⊢
    obtain ⟨c₁, ok⟩ := r
    obtain ⟨c₁', ok'⟩ := r'
    cases hok
    cases ok with
    | false => exact hfile.reply .localError
    | true =>
        obtain ⟨n, d, e, l, rfl, -⟩ := hfile
        exact ⟨0, false, e, false, rfl, fun _ => ⟨rfl, rfl, rfl⟩⟩

theorem Twin.reset (h : Twin c c') : Twin (c.reset env) (c'.reset env) := by
  obtain ⟨n, d, e, l, rfl, -⟩ := h
  exact ⟨n, d, e, l, rfl, fun hstate => by cases hstate⟩

theorem Twin.quit (h : Twin c c') : Twin (c.quit env) (c'.quit env) := by
  obtain ⟨n, d, e, l, rfl, -⟩ := h
  exact ⟨n, d, e, l, rfl, fun hstate => by cases hstate⟩

theorem Twin.command (h : Twin c c') (line : Bytes) :
    Twin (c.command env line) (c'.command env line) := by
  unfold Core.command
  cases verbOf line with
  | none => exact h.reply .invalidCommand
  | some verb =>
      cases verb with
      | ehlo =>
          dsimp only
          split
          · exact h.reply .invalidParameters
          · exact h.ehlo _ _
      | helo =>
          dsimp only
          split
          · exact h.reply .invalidParameters
          · exact h.helo _ _
      | mail =>
          dsimp only
          split
          · exact h.reply .invalidParameters
          · exact h.mailPath _ _
      | rcpt =>
          dsimp only
          split
          · exact h.reply .invalidParameters
          · exact h.rcptPath rfl
      | data => exact h.data
      | rset => exact h.reset.reply .ok
      | vrfy => exact h.reply .notImplemented
      | noop => exact h.reply .ok
      | quit => exact h.quit

theorem Twin.callCommand (h : Twin c c') (b : CmdBuffer) (len : Nat) :
    Twin (c.callCommand env b len).2 (c'.callCommand env b len).2 := by
  unfold Core.callCommand
  generalize called b len = r
  obtain ⟨b, _ | ⟨verb, sp⟩⟩ := r
  · exact h.reply .invalidCommand
  · cases verb with
    | ehlo => exact h.ehlo _ _
    | helo => exact h.helo _ _
    | mail =>
        simp only [dispatch, mail]
        generalize accept b _ (text "FROM:") = r
        obtain ⟨b, _ | sp⟩ := r
        · exact h.reply .invalidParameters
        · exact h.mailPath _ _
    | rcpt =>
        simp only [dispatch, rcpt]
        generalize accept b _ (text "TO:") = r
        obtain ⟨b, _ | sp⟩ := r
        · exact h.reply .invalidParameters
        · exact h.rcptPath rfl
    | data => exact h.data
    | rset => exact h.reset.reply .ok
    | vrfy => exact h.reply .notImplemented
    | noop => exact h.reply .ok
    | quit => exact h.quit

/-- A line that does not ask for the error flag ends the data without it, or is not stored. -/
theorem Twin.store (h : Twin c c') (env : Env) (hstate : c.state = .data) {line : Bytes}
    (hends : ¬ EndsData line) (error : ConsultsError line c → c.dataError = c'.dataError) :
    Twin (c.store env line) (c'.store env line) := by
  obtain ⟨n, d, e, l, rfl, hdata⟩ := h
  obtain ⟨rfl, rfl, rfl⟩ := hdata hstate
  by_cases hconsults : ConsultsError line c
  · obtain rfl : c.dataError = e := error hconsults
    exact Twin.refl _
  · have hlimits : ((c.measureLine (unstuff line).length).lineTooLong ||
        (c.measureLine (unstuff line).length).dataTooLong) = true := by
      simp only [ConsultsError, if_neg hends] at hconsults
      by_contra hnone
      rw [Bool.not_eq_true, Bool.or_eq_false_iff] at hnone
      exact hconsults hnone
    unfold Core.store
    rw [measureLine_eq] at hlimits
    simp only [measureLine_eq, hlimits, Bool.true_or, if_true]
    exact ⟨_, _, e, _, rfl, fun _ => ⟨rfl, rfl, rfl⟩⟩

theorem Twin.abortData (h : Twin c c') (env : Env) (hstate : c.state = .data)
    (hlong : ¬ (c.lineTooLong = false ∧ c.dataTooLong = false)) :
    Twin (c.abortData env) (c'.abortData env) := by
  obtain ⟨n, d, e, l, rfl, hdata⟩ := h
  obtain ⟨rfl, rfl, rfl⟩ := hdata hstate
  have hreply : abortReply { c with dataError := e } = c.abortReply := by
    unfold abortReply
    dsimp only
    split
    · rfl
    · split
      · rfl
      · rename_i hdata hline
        exact absurd ⟨Bool.eq_false_of_not_eq_true hline, Bool.eq_false_of_not_eq_true hdata⟩ hlong
  rw [abortData_eq, abortData_eq]
  exact ⟨_, _, e, _, by rw [hreply], fun hstate => by cases hstate⟩

theorem Twin.endData (h : Twin c c') (hstate : c.state = .data) {line : Bytes}
    (hends : EndsData line) (error : ConsultsError line c → c.dataError = c'.dataError) :
    Twin (c.endData env) (c'.endData env) := by
  by_cases hconsults : ConsultsError line c
  · obtain ⟨n, d, e, l, rfl, hdata⟩ := h
    obtain ⟨rfl, rfl, rfl⟩ := hdata hstate
    obtain rfl : c.dataError = e := error hconsults
    exact Twin.refl _
  · have habort := h.abortData env hstate (by
      simpa only [ConsultsError, if_pos hends] using hconsults)
    have hflags : (c'.lineTooLong = c.lineTooLong) ∧ c'.dataTooLong = c.dataTooLong := by
      obtain ⟨n, d, e, l, rfl, hdata⟩ := h
      exact ⟨(hdata hstate).2.2, (hdata hstate).2.1⟩
    have hlong : ¬ (! c.lineTooLong && ! c.dataTooLong) = true := by
      intro hshort
      simp only [ConsultsError, if_pos hends] at hconsults
      simp only [Bool.and_eq_true, Bool.not_eq_true'] at hshort
      exact hconsults hshort
    rw [Core.endData, Core.endData, hflags.1, hflags.2, if_neg hlong, if_neg hlong]
    exact habort

/-- The bytes behind a line of four bytes, as they are when the verb has been recognised and a
keyword of the argument has been written. -/
theorem agree_stray {b : CmdBuffer} {line : Bytes} (hline : Delivers b cmdTerminator line)
    (hlen : line.length = 4) (str : Bytes) (hstr : 5 + str.length ≤ 510) :
    Agree (pokeAll (capitalised b) 5 str).mem b.mem (5 + str.length) 510 where
  same i hlo _ := edited_mem hlo
  stop := by
    rw [edited_mem hstr, Buffer.mem_cap, hline.window, if_neg (by omega)]
    exact Or.inr rfl

/-- A RCPT without an argument handles the stray recipient. -/
theorem callCommand_strayRecipient (env : Env) {b : CmdBuffer} {line : Bytes}
    (hline : Delivers b cmdTerminator line) (hlen : line.length = 4)
    (hverb : verbOf line = some .rcpt) :
    (c.callCommand env b line.length).2 = c.rcptPath b.mem ⟨8, 2 ^ 64 - 1 - 3⟩ := by
  have hreaches : Reaches ⟨8, 2 ^ 64 - 1 - 3⟩ 510 := by constructor <;> decide
  rw [callCommand_bare_rcpt env c hline hlen hverb]
  exact rcptPath_congr c hreaches (agree_stray hline hlen (text "TO:") (by decide))

/-- A MAIL without an argument and out of turn answers by the stray sender. -/
theorem callCommand_straySender (env : Env) {b : CmdBuffer} {line : Bytes}
    (hline : Delivers b cmdTerminator line) (stale : StaleSender line c) :
    (c.callCommand env b line.length).2 =
      c.reply (if straySender b then .badSequence else .invalidParameters) := by
  obtain ⟨hlen, hverb, hseq⟩ := stale
  have hreaches : Reaches ⟨5 + 5, 2 ^ 64 - 1 - 5⟩ 510 := by constructor <;> decide
  rw [callCommand_dispatch env c hline (by omega), hverb, hlen, bare_argument]
  simp only [dispatch, mail, accept_argument (b := b) (n := 2 ^ 64 - 1) (k := 5)
    (text "FROM:") rfl (by decide) (by decide) (by decide)]
  rw [if_neg (by decide)]
  dsimp only
  rw [mailPath_congr c hreaches (agree_stray hline hlen (text "FROM:") (by decide)),
    mailPath, straySender]
  cases reversePath b.mem ⟨5 + 5, 2 ^ 64 - 1 - 5⟩ with
  | none => rfl
  | some reverse =>
      simp only [hseq, if_true]
      rfl

/-- A command line delivered in two buffers that hold the same path behind it, if it is one that
takes a path from there. -/
theorem Twin.callCommand_stray (h : Twin c c') {b b' : CmdBuffer} {line : Bytes}
    (hline : Delivers b cmdTerminator line) (hline' : Delivers b' cmdTerminator line)
    (hlf : line.length + 2 ≤ 510 → b.mem (line.length + 1) = lf)
    (hlf' : line.length + 2 ≤ 510 → b'.mem (line.length + 1) = lf)
    (recipient : StaleRecipient line c → strayRecipient b = strayRecipient b')
    (sender : StaleSender line c → straySender b = straySender b') :
    Twin (c.callCommand env b line.length).2 (c'.callCommand env b' line.length).2 := by
  have hrecipient : StaleRecipient line c' ↔ StaleRecipient line c := by
    obtain ⟨n, d, e, l, rfl, -⟩ := h
    exact Iff.rfl
  have hsender : StaleSender line c' ↔ StaleSender line c := by
    obtain ⟨n, d, e, l, rfl, -⟩ := h
    exact Iff.rfl
  by_cases hr : StaleRecipient line c
  · rw [callCommand_strayRecipient env hline hr.1 hr.2.1,
      callCommand_strayRecipient env hline' hr.1 hr.2.1]
    exact h.rcptPath (recipient hr)
  · by_cases hs : StaleSender line c
    · rw [callCommand_straySender env hline hs, callCommand_straySender env hline' (hsender.mpr hs),
        sender hs]
      exact h.reply _
    · rw [callCommand_eq env c hline hlf hr hs,
        callCommand_eq env c' hline' hlf' (mt hrecipient.mp hr) (mt hsender.mp hs)]
      exact h.command line

end Handlers

end Core

/-- Memory with something in it. -/
def Memory.used : Memory where
  cmdBuffer := ⟨List.replicate 510 60, [60, 60], List.length_replicate, rfl⟩
  lineBuffer := ⟨List.replicate 1022 46, [46, 46], List.length_replicate, rfl⟩
  dataSize := 7
  dataTooLong := true
  dataError := false
  lineTooLong := true

namespace Session

variable {env : Env} {s s' : Session} {sp : Bytes}

/-- The command buffer with the chunk in it. -/
def held (s : Session) (sp : Bytes) : CmdBuffer :=
  (join s.cmdBuffer sp s.cmdOffset cmdTerminator).1

/-- Nothing that is read in the next turn is left from the initial memory, as far as two sessions
can tell. -/
structure Unread (s s' : Session) (sp : Bytes) : Prop where
  command : s.state = .cmd →
    SameFirst cmdTerminator s.cmdBuffer.tCheck s'.cmdBuffer.tCheck sp
  recipient : s.state = .cmd → ∀ line ∈ s.delivered sp,
    Core.StaleRecipient line s.toCore →
      strayRecipient (s.held sp) = strayRecipient (s'.held sp)
  sender : s.state = .cmd → ∀ line ∈ s.delivered sp,
    Core.StaleSender line s.toCore →
      straySender (s.held sp) = straySender (s'.held sp)
  data : s.state = .data →
    SameFirst cmdTerminator s.lineBuffer.tCheck s'.lineBuffer.tCheck sp
  error : s.state = .data → ∀ line ∈ s.dataReceived sp,
    Core.ConsultsError line s.toCore → s.dataError = s'.dataError

instance (s s' : Session) (sp : Bytes) : Decidable (Unread s s' sp) :=
  decidable_of_iff
    ((s.state = .cmd → SameFirst cmdTerminator s.cmdBuffer.tCheck s'.cmdBuffer.tCheck sp) ∧
      (s.state = .cmd → ∀ line ∈ s.delivered sp, Core.StaleRecipient line s.toCore →
        strayRecipient (s.held sp) = strayRecipient (s'.held sp)) ∧
      (s.state = .cmd → ∀ line ∈ s.delivered sp, Core.StaleSender line s.toCore →
        straySender (s.held sp) = straySender (s'.held sp)) ∧
      (s.state = .data → SameFirst cmdTerminator s.lineBuffer.tCheck s'.lineBuffer.tCheck sp) ∧
      (s.state = .data → ∀ line ∈ s.dataReceived sp, Core.ConsultsError line s.toCore →
        s.dataError = s'.dataError))
    ⟨fun ⟨h₁, h₂, h₃, h₄, h₅⟩ => ⟨h₁, h₂, h₃, h₄, h₅⟩, fun ⟨h₁, h₂, h₃, h₄, h₅⟩ => ⟨h₁, h₂, h₃, h₄, h₅⟩⟩

/-- The sessions are alike, and so are the buffers as far as they have been used. -/
structure Same (s s' : Session) : Prop where
  core : Core.Twin s.toCore s'.toCore
  cmdOffset : s'.cmdOffset = s.cmdOffset
  lineOffset : s'.lineOffset = s.lineOffset
  cmd : Shared s.cmdBuffer s'.cmdBuffer s.cmdOffset
  line : Shared s.lineBuffer s'.lineBuffer s.lineOffset

/-- A delivered line, and the buffer that it is delivered in. -/
theorem delivers_of_joined {cap : Nat} {b b₁ : Buffer cap 2} {src rest : Bytes} {offset : Int}
    {len : Nat} {ec : Bool}
    (joined : Joined cmdTerminator b src (b₁, offset, ⟨some len, rest, ec⟩)) :
    Delivers b₁ cmdTerminator (b₁.mem.read 0 len) ∧ (b₁.mem.read 0 len).length = len ∧
      offset = 0 ∧ ec = false := by
  cases joined with
  | line b' pre rest c eq quiet complete line delivers =>
      rw [delivers.read]
      exact ⟨delivers, rfl, rfl, rfl⟩

theorem feedCmd_same (env : Env) (h : Same s s') (hstate : s.state = .cmd) (unread : Unread s s' sp) :
    Same (s.feedCmd env sp).1 (s'.feedCmd env sp).1 ∧
      (s.feedCmd env sp).2 = (s'.feedCmd env sp).2 := by
  have joined := join_joined (by decide) s.cmdBuffer sp s.cmdOffset cmdTerminator
  have joined' := join_joined (by decide) s'.cmdBuffer sp s'.cmdOffset cmdTerminator
  obtain ⟨heq, hshared, hline⟩ := join_pair (by decide) h.cmd (unread.command hstate)
  have hrecipient := unread.recipient hstate
  have hsender := unread.sender hstate
  unfold delivered held at hrecipient hsender
  rw [h.cmdOffset] at joined' hrecipient hsender
  unfold feedCmd
  rw [h.cmdOffset]
  generalize hjoin : join s.cmdBuffer sp s.cmdOffset cmdTerminator = r at *
  generalize hjoin' : join s'.cmdBuffer sp s.cmdOffset cmdTerminator = r' at *
  obtain ⟨b, offset, ⟨line, rest, ec⟩⟩ := r
  obtain ⟨b', result'⟩ := r'
  cases heq
  cases line with
  | none =>
      dsimp only at hshared ⊢
      cases ec with
      | false => exact ⟨⟨h.core, rfl, h.lineOffset, hshared, h.line⟩, rfl⟩
      | true => exact ⟨⟨h.core.reply _, rfl, h.lineOffset, hshared, h.line⟩, rfl⟩
  | some len =>
      obtain ⟨hdelivers, hlen, rfl, rfl⟩ := delivers_of_joined joined
      obtain ⟨hdelivers', hlen', -, -⟩ := delivers_of_joined joined'
      obtain ⟨-, hread, hwhere⟩ := hline len rfl
      have hemit := h.core.emit (.line (b.mem.read 0 len))
      have hcore : Core.Twin
          ((s.emit (.line (b.mem.read 0 len))).callCommand env b len).2
          ((s'.emit (.line (b'.mem.read 0 len))).callCommand env b' len).2 := by
        rcases hwhere with hsame | ⟨hlo, hhi⟩
        · have hsame : b = b' := hsame
          rw [← hsame]
          exact hemit.callCommand b len
        · have hread : b.mem.read 0 len = b'.mem.read 0 len := hread
          have hrecipient := hrecipient (b.mem.read 0 len) rfl
          have hsender := hsender (b.mem.read 0 len) rfl
          rw [← hread] at hdelivers' ⊢
          generalize b.mem.read 0 len = line at hdelivers hdelivers' hlen hemit hrecipient hsender ⊢
          subst hlen
          have hbehind {b₀ b₁ : CmdBuffer}
              (hjoin : join b₀ sp s.cmdOffset cmdTerminator =
                (b₁, 0, ⟨some line.length, rest, false⟩)) (hroom : line.length + 2 ≤ 510) :
              b₁.mem (line.length + 1) = lf := by
            have hlast := join_behind hlo hhi (by decide) (by decide) (by decide) hjoin hroom
            exact (Option.some.inj hlast).symm
          exact hemit.callCommand_stray hdelivers hdelivers' (hbehind hjoin) (hbehind hjoin')
            hrecipient hsender
      exact ⟨⟨hcore, rfl, h.lineOffset, .empty _ _, h.line⟩, rfl⟩

/-- A line that has been delivered in two buffers ends the data in both or in neither. -/
theorem endsData_same {b b' : LineBuffer} {line : Bytes} (h : Delivers b cmdTerminator line)
    (h' : Delivers b' cmdTerminator line) :
    b'.mem.strEq 0 (text ".") = b.mem.strEq 0 (text ".") := by
  rw [Bool.eq_iff_iff, Core.endsData_iff h, Core.endsData_iff h']

theorem dataTurn_same (env : Env) (h : Same s s') (hstate : s.state = .data) (unread : Unread s s' sp) :
    Same (s.dataTurn env sp).1 (s'.dataTurn env sp).1 ∧
      (s.dataTurn env sp).2 = (s'.dataTurn env sp).2 := by
  have joined := join_joined (by decide) s.lineBuffer sp s.lineOffset cmdTerminator
  have joined' := join_joined (by decide) s'.lineBuffer sp s'.lineOffset cmdTerminator
  obtain ⟨heq, hshared, hline⟩ := join_pair (by decide) h.line (unread.data hstate)
  have herror := unread.error hstate
  unfold dataReceived at herror
  rw [h.lineOffset] at joined'
  unfold dataTurn
  rw [h.lineOffset]
  generalize join s.lineBuffer sp s.lineOffset cmdTerminator = r at *
  generalize join s'.lineBuffer sp s.lineOffset cmdTerminator = r' at *
  obtain ⟨b, offset, ⟨line, rest, ec⟩⟩ := r
  obtain ⟨b', result'⟩ := r'
  cases heq
  cases line with
  | none =>
      dsimp only at hshared ⊢
      cases ec with
      | false => exact ⟨⟨h.core, h.cmdOffset, rfl, h.cmd, hshared⟩, rfl⟩
      | true =>
          have hcore : Core.Twin { s.toCore with lineTooLong := true }
              { s'.toCore with lineTooLong := true } := by
            obtain ⟨n, d, e, l, heq, hdata⟩ := h.core
            rw [heq]
            exact ⟨n, d, e, true, rfl, fun hstate => ⟨(hdata hstate).1, (hdata hstate).2.1, rfl⟩⟩
          exact ⟨⟨hcore, h.cmdOffset, rfl, h.cmd, hshared⟩, rfl⟩
  | some len =>
      obtain ⟨hdelivers, hlen, rfl, rfl⟩ := delivers_of_joined joined
      obtain ⟨hdelivers', -, -, -⟩ := delivers_of_joined joined'
      obtain ⟨-, hread, -⟩ := hline len rfl
      have hread : b.mem.read 0 len = b'.mem.read 0 len := hread
      have hconsults := herror (b.mem.read 0 len) rfl
      rw [← hread] at hdelivers'
      generalize b.mem.read 0 len = line at hdelivers hdelivers' hlen hconsults
      subst hlen
      dsimp only
      rw [endsData_same hdelivers hdelivers']
      by_cases hends : EndsData line
      · rw [if_pos ((Core.endsData_iff hdelivers).mpr hends),
          if_pos ((Core.endsData_iff hdelivers).mpr hends)]
        exact ⟨⟨h.core.endData hstate hends hconsults, h.cmdOffset, rfl, h.cmd, .empty _ _⟩, rfl⟩
      · rw [if_neg (mt (Core.endsData_iff hdelivers).mp hends),
          if_neg (mt (Core.endsData_iff hdelivers).mp hends)]
        have hcore := h.core.store env hstate hends hconsults
        rw [← (Core.storeLine_eq env s.toCore hdelivers).1,
          ← (Core.storeLine_eq env s'.toCore hdelivers').1] at hcore
        exact ⟨⟨hcore, h.cmdOffset, rfl, h.cmd, .empty _ _⟩, rfl⟩

/-- The next step of two runs reads nothing that is left from the initial memory. -/
def UnreadStep (x y : Progress) : Prop := Unread x.1 y.1 (x.2.headD [])

instance (x y : Progress) : Decidable (UnreadStep x y) := inferInstanceAs (Decidable (Unread _ _ _))

theorem advance_same {x y : Progress} (unread : UnreadStep x y)
    (h : Same x.1 y.1 ∧ x.2 = y.2) :
    Same (advance env x).1 (advance env y).1 ∧ (advance env x).2 = (advance env y).2 := by
  obtain ⟨s, chunks⟩ := x
  obtain ⟨s', chunks'⟩ := y
  obtain ⟨h, heq⟩ := h
  cases heq
  match chunks with
  | [] => exact ⟨h, rfl⟩
  | [] :: chunks => exact ⟨h, rfl⟩
  | (c :: sp) :: chunks =>
      have hunread : Unread s s' (c :: sp) := unread
      have hstate' := h.core.state
      simp only [advance]
      cases hstate : s.state with
      | closed =>
          rw [turn, turn, hstate, hstate'.trans hstate]
          exact ⟨h, rfl⟩
      | cmd =>
          rw [turn_cmd env _ hstate, turn_cmd env _ (hstate'.trans hstate)]
          obtain ⟨hsame, hrest⟩ := feedCmd_same env h hstate hunread
          exact ⟨hsame, by rw [hrest]⟩
      | data =>
          rw [turn_data env _ hstate, turn_data env _ (hstate'.trans hstate)]
          obtain ⟨hsame, hrest⟩ := dataTurn_same env h hstate hunread
          exact ⟨hsame, by rw [hrest]⟩

theorem start_same (env : Env) (mem mem' : Memory) : Same (start env mem) (start env mem') :=
  ⟨⟨_, _, _, _, rfl, fun hstate => by cases hstate⟩, rfl, rfl, .empty _ _, .empty _ _⟩

/-- Two sessions that differ in their initial memory send the same replies and do the same with
the spool in every run in which they read none of it. -/
theorem memory_hidden (env : Env) (mem mem' : Memory) (chunks : List Bytes)
    (unread : ∀ n, UnreadStep ((advance env)^[n] (start env mem, chunks))
      ((advance env)^[n] (start env mem', chunks))) (n : Nat) :
    let s := ((advance env)^[n] (start env mem, chunks)).1
    let s' := ((advance env)^[n] (start env mem', chunks)).1
    s.observe.replies = s'.observe.replies ∧ s.observe.spool = s'.observe.spool := by
  intro s s'
  obtain ⟨hsame, -⟩ := Run.lockstep (f := advance env) (g := advance env)
    (x := (start env mem, chunks)) (y := (start env mem', chunks))
    (R := fun x y : Progress => Same x.1 y.1 ∧ x.2 = y.2) ⟨start_same env mem mem', rfl⟩ unread
    (fun x y hunread h => advance_same hunread h) n
  have hlog : s'.log = s.log := hsame.core.log
  rw [Core.observe, Core.observe, hlog]
  exact ⟨rfl, rfl⟩

/-- A step without a byte to read reads no memory. -/
theorem UnreadStep.idle {x y : Progress} (h : x.2.flatten = []) (n : Nat) :
    UnreadStep ((advance env)^[n] x) ((advance env)^[n] y) := by
  have hread : ((advance env)^[n] x).2.flatten = [] := by
    apply Run.always_of_step (advance env) (I := fun x => x.2.flatten = []) h
    intro x h
    obtain ⟨s, chunks⟩ := x
    match chunks with
    | [] => exact h
    | [] :: chunks => exact h
    | (c :: sp) :: chunks => cases h
  have hhead : ((advance env)^[n] x).2.headD [] = [] := by
    cases hchunks : ((advance env)^[n] x).2 with
    | nil => rfl
    | cons sp chunks =>
        rw [hchunks, List.flatten_cons, List.append_eq_nil_iff] at hread
        exact hread.1
  rw [UnreadStep, hhead]
  refine ⟨?_, ?_, ?_, ?_, ?_⟩
  · intro _ c hc
    cases hc
  · intro _ line hline
    cases hline
  · intro _ line hline
    cases hline
  · intro _ c hc
    cases hc
  · intro _ line hline
    cases hline

theorem memory_hidden_used :
    let s := ((advance fun _ => .ideal)^[5]
      (start (fun _ => .ideal) .zeroed, [upToData ++ text "DATA\r\n.\r\n"])).1
    let s' := ((advance fun _ => .ideal)^[5]
      (start (fun _ => .ideal) .used, [upToData ++ text "DATA\r\n.\r\n"])).1
    s.observe.replies = s'.observe.replies ∧ s.observe.spool = s'.observe.spool := by
  have hall (n : Nat) : UnreadStep
      ((advance fun _ => .ideal)^[n]
        (start (fun _ => .ideal) .zeroed, [upToData ++ text "DATA\r\n.\r\n"]))
      ((advance fun _ => .ideal)^[n]
        (start (fun _ => .ideal) .used, [upToData ++ text "DATA\r\n.\r\n"])) := by
    rcases Nat.lt_or_ge n 5 with hlt | hge
    · revert n
      decide +kernel
    · rw [← Nat.sub_add_cancel hge, Function.iterate_add_apply, Function.iterate_add_apply]
      apply UnreadStep.idle
      decide +kernel
  exact memory_hidden (fun _ => .ideal) .zeroed .used [upToData ++ text "DATA\r\n.\r\n"] hall 5

/-- With an error flag that was never cleared the same message is refused. -/
theorem not_memory_hidden_error :
    ¬ ∀ (env : Env) (mem mem' : Memory) (chunks : List Bytes) (n : Nat),
      let s := ((advance env)^[n] (start env mem, chunks)).1
      let s' := ((advance env)^[n] (start env mem', chunks)).1
      s.observe.replies = s'.observe.replies ∧ s.observe.spool = s'.observe.spool := by
  intro h
  obtain ⟨hreplies, -⟩ := h (fun _ => .ideal) .zeroed { Memory.zeroed with dataError := true }
    [upToData ++ text "DATA\r\n.\r\n"] 5
  revert hreplies
  decide +kernel

end Session

end Ervan.Smtp
