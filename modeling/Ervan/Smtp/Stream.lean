import Ervan.Library.Run
import Ervan.Smtp.Outcome
import Ervan.Smtp.Turn

/-!
# A session as a machine on bytes

What a session is for, without buffers and chunks: it scans the bytes of its state one
by one, and a line that is complete has its effect. The session follows this machine,
whatever the chunks, as long as its offsets do not overflow and no command looks behind
its line.
-/

namespace Ervan.Smtp

open Framing

namespace Core

/-- The effect of what has been scanned in the command state. -/
def commandLine (env : Env) (c : Core) : Option Bytes → Core
  | none => c.reply .exceededLine
  | some line => (c.emit (.line line)).command env line

/-- The effect of what has been scanned in the data state. -/
def dataLine (env : Env) (c : Core) : Option Bytes → Core
  | none => { c with lineTooLong := true }
  | some line => if EndsData line then c.endData env else c.store env line

end Core

/-- The members of a session and what its two sides have scanned. -/
structure Stream where
  core : Core
  cmd : Scan
  line : Scan

namespace Stream

variable {env : Env} {t : Stream}

/-- What one more byte completes in the command state. -/
def cmdFeed (t : Stream) (c : UInt8) : Scan × Option (Option Bytes) :=
  t.cmd.feed 510 2 cmdTerminator c

/-- What one more byte completes in the data state. -/
def lineFeed (t : Stream) (c : UInt8) : Scan × Option (Option Bytes) :=
  t.line.feed 1022 2 cmdTerminator c

/-- One byte. -/
def byte (env : Env) (t : Stream) (c : UInt8) : Stream :=
  match t.core.state with
  | .closed => t
  | .cmd =>
      match t.cmdFeed c with
      | (cmd, none) => { t with cmd := cmd }
      | (cmd, some line) => { t with core := t.core.commandLine env line, cmd := cmd }
  | .data =>
      match t.lineFeed c with
      | (line, none) => { t with line := line }
      | (scan, some line) => { t with core := t.core.dataLine env line, line := scan }

/-- The byte overflows no offset and completes no command that looks behind its line. -/
def Calm (t : Stream) (c : UInt8) : Prop :=
  match t.core.state with
  | .closed => True
  | .cmd =>
      match (t.cmdFeed c).2 with
      | none => t.cmd.pending.length + 1 < 2 ^ 31
      | some none => True
      | some (some line) => ¬ Core.StaleRecipient line t.core ∧ ¬ Core.StaleSender line t.core
  | .data => (t.lineFeed c).2 = none → t.line.pending.length + 1 < 2 ^ 31

theorem byte_cmd_quiet (env : Env) (hstate : t.core.state = .cmd) {c : UInt8}
    (h : push t.cmd.window c ≠ cmdTerminator) :
    t.byte env c = { t with cmd := ⟨push t.cmd.window c, t.cmd.pending ++ [c]⟩ } ∧
      (t.Calm c → t.cmd.pending.length + 1 < 2 ^ 31) := by
  have hfeed : t.cmdFeed c = _ := Scan.feed_quiet h
  constructor
  · simp only [byte, hstate, hfeed]
  · simp only [Calm, hstate, hfeed]
    exact id

theorem byte_cmd_complete (env : Env) (hstate : t.core.state = .cmd) {c : UInt8}
    (h : push t.cmd.window c = cmdTerminator) :
    t.byte env c = { t with
      core := t.core.commandLine env (Scan.line 510 2 (t.cmd.pending ++ [c]))
      cmd := Scan.restart 510 2 cmdTerminator (t.cmd.pending ++ [c]) } ∧
    (t.Calm c → ∀ line, Scan.line 510 2 (t.cmd.pending ++ [c]) = some line →
      ¬ Core.StaleRecipient line t.core ∧ ¬ Core.StaleSender line t.core) := by
  have hfeed : t.cmdFeed c = _ := Scan.feed_complete h
  constructor
  · simp only [byte, hstate, hfeed]
  · simp only [Calm, hstate, hfeed]
    intro hcalm line hline
    simpa only [hline] using hcalm

theorem byte_data_quiet (env : Env) (hstate : t.core.state = .data) {c : UInt8}
    (h : push t.line.window c ≠ cmdTerminator) :
    t.byte env c = { t with line := ⟨push t.line.window c, t.line.pending ++ [c]⟩ } ∧
      (t.Calm c → t.line.pending.length + 1 < 2 ^ 31) := by
  have hfeed : t.lineFeed c = _ := Scan.feed_quiet h
  constructor
  · simp only [byte, hstate, hfeed]
  · simp only [Calm, hstate, hfeed]
    exact fun hcalm => hcalm trivial

theorem byte_data_complete (env : Env) (hstate : t.core.state = .data) {c : UInt8}
    (h : push t.line.window c = cmdTerminator) :
    t.byte env c = { t with
      core := t.core.dataLine env (Scan.line 1022 2 (t.line.pending ++ [c]))
      line := Scan.restart 1022 2 cmdTerminator (t.line.pending ++ [c]) } := by
  have hfeed : t.lineFeed c = _ := Scan.feed_complete h
  simp only [byte, hstate, hfeed]

/-- Bytes that complete nothing in the command state are scanned and kept. -/
theorem bytes_cmd_quiet (env : Env) {bs : Bytes} (hstate : t.core.state = .cmd)
    (quiet : Quiet cmdTerminator t.cmd.window bs) :
    bs.foldl (byte env) t = { t with cmd := ⟨slide t.cmd.window bs, t.cmd.pending ++ bs⟩ } ∧
      (t.cmd.pending.length < 2 ^ 31 → Run.Along (byte env) Calm t bs →
        t.cmd.pending.length + bs.length < 2 ^ 31) := by
  induction bs generalizing t with
  | nil => exact ⟨by simp, fun h _ => h⟩
  | cons c bs ih =>
      obtain ⟨hbyte, hcalm⟩ := byte_cmd_quiet env hstate quiet.1
      obtain ⟨hbytes, hsmall⟩ := ih (t := t.byte env c) (by rw [hbyte]; exact hstate)
        (by rw [hbyte]; exact quiet.2)
      rw [hbyte] at hbytes hsmall
      refine ⟨?_, fun _ along => ?_⟩
      · rw [List.foldl_cons, hbyte, hbytes]
        simp
      · have hrest := along.2
        rw [hbyte] at hrest
        have hlength := hsmall (by simpa using hcalm along.1) hrest
        simp only [List.length_append, List.length_cons, List.length_nil] at hlength ⊢
        omega

/-- Bytes that complete nothing in the data state are scanned and kept. -/
theorem bytes_data_quiet (env : Env) {bs : Bytes} (hstate : t.core.state = .data)
    (quiet : Quiet cmdTerminator t.line.window bs) :
    bs.foldl (byte env) t = { t with line := ⟨slide t.line.window bs, t.line.pending ++ bs⟩ } ∧
      (t.line.pending.length < 2 ^ 31 → Run.Along (byte env) Calm t bs →
        t.line.pending.length + bs.length < 2 ^ 31) := by
  induction bs generalizing t with
  | nil => exact ⟨by simp, fun h _ => h⟩
  | cons c bs ih =>
      obtain ⟨hbyte, hcalm⟩ := byte_data_quiet env hstate quiet.1
      obtain ⟨hbytes, hsmall⟩ := ih (t := t.byte env c) (by rw [hbyte]; exact hstate)
        (by rw [hbyte]; exact quiet.2)
      rw [hbyte] at hbytes hsmall
      refine ⟨?_, fun _ along => ?_⟩
      · rw [List.foldl_cons, hbyte, hbytes]
        simp
      · have hrest := along.2
        rw [hbyte] at hrest
        have hlength := hsmall (by simpa using hcalm along.1) hrest
        simp only [List.length_append, List.length_cons, List.length_nil] at hlength ⊢
        omega

end Stream

/-- A session that has scanned what the machine has scanned. -/
structure Follows (s : Session) (t : Stream) : Prop where
  core : s.toCore = t.core
  cmd : Represents s.cmdBuffer s.cmdOffset t.cmd
  line : Represents s.lineBuffer s.lineOffset t.line

namespace Follows

variable {env : Env} {s : Session} {t : Stream} {sp : Bytes}

/-- A turn that reads commands. -/
theorem feedCmd (h : Follows s t) (hstate : s.state = .cmd)
    (calm : Run.Along (Stream.byte env) Stream.Calm t sp) :
    ∃ taken, sp = taken ++ (s.feedCmd env sp).2 ∧
      Follows (s.feedCmd env sp).1 (taken.foldl (Stream.byte env) t) := by
  have hstate' : t.core.state = .cmd := by rw [← h.core]; exact hstate
  rcases quiet_or_first cmdTerminator t.cmd.window sp with quiet | ⟨pre, c, rest, rfl, quiet, complete⟩
  · obtain ⟨hbytes, hsmall⟩ := Stream.bytes_cmd_quiet env hstate' quiet
    obtain ⟨b, offset, hjoin, hnext⟩ := join_quiet h.cmd quiet (hsmall h.cmd.small calm)
    refine ⟨sp, ?_, ?_⟩
    · simp [Session.feedCmd, hjoin]
    · rw [hbytes]
      simp only [Session.feedCmd, hjoin]
      exact ⟨h.core, hnext, h.line⟩
  · obtain ⟨hpre, hcalm⟩ := (Run.along_append t pre (c :: rest)).mp calm
    obtain ⟨hbytes, hsmall⟩ := Stream.bytes_cmd_quiet env hstate' quiet
    rw [hbytes] at hcalm
    obtain ⟨b, hjoin, hline, hnext⟩ := join_complete h.cmd rest quiet complete
      (hsmall h.cmd.small hpre) (fun _ => by decide) (by decide) (by decide)
    obtain ⟨hbyte, hstale⟩ := Stream.byte_cmd_complete env
      (t := { t with cmd := ⟨slide t.cmd.window pre, t.cmd.pending ++ pre⟩ }) hstate' complete
    refine ⟨pre ++ [c], ?_, ?_⟩
    · rw [Session.feedCmd_rest, hjoin]
      cases Scan.line 510 2 (t.cmd.pending ++ pre ++ [c]) <;> simp [JoinResult.ofLine]
    · rw [List.foldl_append, hbytes, List.foldl_cons, List.foldl_nil, hbyte]
      simp only [Session.feedCmd, hjoin]
      cases hscan : Scan.line 510 2 (t.cmd.pending ++ pre ++ [c]) with
      | none => exact ⟨by rw [← h.core]; rfl, hnext, h.line⟩
      | some line =>
          obtain ⟨delivers, hbehind⟩ := hline line hscan
          obtain ⟨recipient, sender⟩ := hstale hcalm.1 line hscan
          have hlf (hlen : line.length + 2 ≤ 510) : b.mem (line.length + 1) = lf :=
            (Option.some.inj (hbehind (by decide) hlen)).symm
          rw [← h.core] at recipient sender
          have heffect := Core.callCommand_eq env (s.emit (.line line)) delivers hlf recipient sender
          have hwindow := callCommand_tCheck env b line.length (s.emit (.line line))
          simp only [JoinResult.ofLine, Session.handleLine, delivers.read, Bool.false_eq_true,
            if_false]
          refine ⟨?_, ?_, h.line⟩
          · rw [Core.commandLine, ← h.core]
            exact heffect
          · have hempty := represents_empty ((s.emit (.line line)).callCommand env b line.length).1
            rw [hwindow, hnext.window] at hempty
            exact hempty

/-- A turn of the data phase. -/
theorem dataTurn (h : Follows s t) (hstate : s.state = .data)
    (calm : Run.Along (Stream.byte env) Stream.Calm t sp) :
    ∃ taken, sp = taken ++ (s.dataTurn env sp).2.1 ∧
      Follows (s.dataTurn env sp).1 (taken.foldl (Stream.byte env) t) := by
  have hstate' : t.core.state = .data := by rw [← h.core]; exact hstate
  rcases quiet_or_first cmdTerminator t.line.window sp with quiet | ⟨pre, c, rest, rfl, quiet, complete⟩
  · obtain ⟨hbytes, hsmall⟩ := Stream.bytes_data_quiet env hstate' quiet
    obtain ⟨b, offset, hjoin, hnext⟩ := join_quiet h.line quiet (hsmall h.line.small calm)
    refine ⟨sp, ?_, ?_⟩
    · simp [Session.dataTurn, hjoin]
    · rw [hbytes]
      simp only [Session.dataTurn, hjoin]
      exact ⟨h.core, h.cmd, hnext⟩
  · obtain ⟨hpre, -⟩ := (Run.along_append t pre (c :: rest)).mp calm
    obtain ⟨hbytes, hsmall⟩ := Stream.bytes_data_quiet env hstate' quiet
    obtain ⟨b, hjoin, hline, hnext⟩ := join_complete h.line rest quiet complete
      (hsmall h.line.small hpre) (fun _ => by decide) (by decide) (by decide)
    have hbyte := Stream.byte_data_complete env
      (t := { t with line := ⟨slide t.line.window pre, t.line.pending ++ pre⟩ }) hstate' complete
    refine ⟨pre ++ [c], ?_, ?_⟩
    · rw [Session.dataTurn_rest, hjoin]
      cases Scan.line 1022 2 (t.line.pending ++ pre ++ [c]) <;> simp [JoinResult.ofLine]
    · rw [List.foldl_append, hbytes, List.foldl_cons, List.foldl_nil, hbyte]
      simp only [Session.dataTurn, hjoin]
      cases hscan : Scan.line 1022 2 (t.line.pending ++ pre ++ [c]) with
      | none => exact ⟨by rw [← h.core]; rfl, h.cmd, hnext⟩
      | some line =>
          obtain ⟨delivers, -⟩ := hline line hscan
          have hends := Core.endsData_iff delivers
          simp only [JoinResult.ofLine]
          by_cases hdata : EndsData line
          · rw [if_pos (hends.mpr hdata)]
            refine ⟨?_, h.cmd, hnext⟩
            rw [Core.dataLine, if_pos hdata, ← h.core]
          · obtain ⟨heffect, hwindow⟩ := Core.storeLine_eq env s.toCore delivers
            rw [if_neg (mt hends.mp hdata)]
            refine ⟨?_, h.cmd, ?_⟩
            · rw [Core.dataLine, if_neg hdata, ← h.core]
              exact heffect
            · have hempty := represents_empty (s.toCore.storeLine env b line.length).1
              rw [hwindow, hnext.window] at hempty
              exact hempty

theorem turn (h : Follows s t) (calm : Run.Along (Stream.byte env) Stream.Calm t sp) :
    ∃ taken, sp = taken ++ (s.turn env sp).2 ∧
      Follows (s.turn env sp).1 (taken.foldl (Stream.byte env) t) := by
  cases hstate : s.state with
  | closed =>
      have hidle (bs : Bytes) : bs.foldl (Stream.byte env) t = t := by
        induction bs with
        | nil => rfl
        | cons c bs ih =>
            have hbyte : t.byte env c = t := by simp only [Stream.byte, ← h.core, hstate]
            rw [List.foldl_cons, hbyte, ih]
      refine ⟨sp, ?_, ?_⟩
      · rw [Session.turn, hstate, List.append_nil]
      · rw [hidle, Session.turn, hstate]
        exact h
  | cmd =>
      rw [Session.turn_cmd env sp hstate]
      exact h.feedCmd hstate calm
  | data =>
      rw [Session.turn_data env sp hstate]
      exact h.dataTurn hstate calm

/-- A chunk is read byte by byte, whatever is in it. -/
theorem feed (h : Follows s t) (calm : Run.Along (Stream.byte env) Stream.Calm t sp) :
    Follows (s.feed env sp) (sp.foldl (Stream.byte env) t) := by
  induction hlen : sp.length using Nat.strongRecOn generalizing s t sp with
  | ind len ih =>
      subst hlen
      by_cases hsp : sp = []
      · subst hsp
        exact h
      · have hlength := s.turn_rest_length env hsp
        obtain ⟨taken, heq, hturn⟩ := h.turn calm
        rw [Session.feed_turn env s hsp]
        generalize s.turn env sp = r at hlength heq hturn ⊢
        obtain ⟨s', rest⟩ := r
        subst heq
        rw [List.foldl_append]
        exact ih rest.length hlength hturn ((Run.along_append t taken rest).mp calm).2 rfl

/-- Chunks are read like their bytes. -/
theorem feedAll (env : Env) (chunks : List Bytes) (h : Follows s t)
    (calm : Run.Along (Stream.byte env) Stream.Calm t chunks.flatten) :
    Follows (s.feedAll env chunks) (chunks.flatten.foldl (Stream.byte env) t) := by
  induction chunks generalizing s t with
  | nil => exact h
  | cons sp chunks ih =>
      rw [List.flatten_cons] at calm ⊢
      rw [List.foldl_append]
      obtain ⟨hfirst, hrest⟩ := (Run.along_append t sp chunks.flatten).mp calm
      exact ih (h.feed hfirst) hrest

/-- Every session whose offsets are in range follows the machine in some state. -/
theorem exists_stream (s : Session) (hcmd : 0 ≤ s.cmdOffset ∧ s.cmdOffset < 2 ^ 31)
    (hline : 0 ≤ s.lineOffset ∧ s.lineOffset < 2 ^ 31) : ∃ t, Follows s t := by
  obtain ⟨cmd, hcmd⟩ := represents_of_offset s.cmdBuffer hcmd.1 hcmd.2
  obtain ⟨line, hline⟩ := represents_of_offset s.lineBuffer hline.1 hline.2
  exact ⟨⟨s.toCore, cmd, line⟩, rfl, hcmd, hline⟩

end Follows

end Ervan.Smtp
