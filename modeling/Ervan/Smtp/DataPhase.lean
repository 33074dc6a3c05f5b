import Ervan.Common.Framed
import Ervan.Smtp.Replies
import Ervan.Smtp.Stream

/-!
# The data phase

What a session does with a sequence of lines in the data state. A line ends the phase if
it is a dot as a C string and fits the line buffer; every other one is stored, or counted
as too long.
-/

namespace Ervan.Smtp

open Framing

/-- The bytes of CRLF-terminated lines. -/
def terminated (lines : List Bytes) : Bytes := lines.flatMap (· ++ crlf)

namespace Core

/-- The data state is entered by an accepted DATA. -/
theorem Turned.entered {env : Env} {exact : Prop} {c c' : Core} (h : Turned env exact c c')
    (before : c.state = .cmd) (after : c'.state = .data) :
    ∃ line, ((c.emit (.line line)).openFiles env).2 = true ∧
      c' = ((c.emit (.line line)).openFiles env).1.dataEntered.reply .startData := by
  cases h with
  | idle => exact absurd (before.symm.trans after) (by decide)
  | longCommand state => exact absurd (before.symm.trans after) (by decide)
  | command state line _ step =>
      obtain ⟨-, -, -, hopened, heq⟩ := step.entered_of_data before after
      exact ⟨line, hopened, heq⟩
  | longData state => exact absurd (before.symm.trans state) (by decide)
  | stored state line => exact absurd (before.symm.trans state) (by decide)
  | ended state => exact absurd (before.symm.trans state) (by decide)

/-- The effect of a line of the data phase. -/
def received (env : Env) (line : Bytes) (c : Core) : Core :=
  c.dataLine env (if line.length ≤ 1022 then some line else none)

variable {env : Env} {line : Bytes} {c : Core}

theorem received_state (hstate : c.state = .data) :
    (c.received env line).state = .data ↔ ¬ (EndsData line ∧ line.length ≤ 1022) := by
  unfold received
  by_cases hlen : line.length ≤ 1022
  · rw [if_pos hlen, dataLine]
    by_cases hends : EndsData line
    · rw [if_pos hends, (endData_ended env c).eq.1]
      simp [hends, hlen]
    · rw [if_neg hends, store_state, hstate]
      simp [hends]
  · rw [if_neg hlen]
    simp [dataLine, hstate, hlen]

end Core

namespace Stream

variable {env : Env} {t : Stream} {line : Bytes}

/-- The machine is in the data state, between two lines. -/
structure AtLine (t : Stream) : Prop where
  state : t.core.state = .data
  pending : t.line.pending = []
  window : t.line.window.length = 2

theorem calm_data_quiet {bs : Bytes} (hstate : t.core.state = .data)
    (quiet : Quiet cmdTerminator t.line.window bs)
    (small : t.line.pending.length + bs.length < 2 ^ 31) : Run.Along (byte env) Calm t bs := by
  induction bs generalizing t with
  | nil => trivial
  | cons c bs ih =>
      obtain ⟨hbyte, -⟩ := byte_data_quiet env hstate quiet.1
      simp only [List.length_cons] at small
      refine ⟨?_, ?_⟩
      · simp only [Calm, hstate]
        omega
      · rw [hbyte]
        refine ih hstate quiet.2 ?_
        simp only [List.length_append, List.length_cons, List.length_nil]
        omega

/-- The window after a line and its CR. -/
theorem window_line (h : t.line.window.length = 2) (line : Bytes) :
    push (slide t.line.window (line ++ [cr])) lf = cmdTerminator := by
  obtain ⟨x, y, hwindow⟩ := List.length_eq_two.mp h
  rw [hwindow, slide_concat, push_slide_pair]
  rfl

theorem quiet_line (h : t.line.window.length = 2) (clean : ¬ crlf <:+: line)
    (start : t.line.window.getLast? = some cr → line.head? ≠ some lf) :
    Quiet cmdTerminator t.line.window (line ++ [cr]) := by
  obtain ⟨x, y, hwindow⟩ := List.length_eq_two.mp h
  rw [hwindow] at start ⊢
  exact quiet_pair_record (by decide) clean fun hy => start (by rw [hy]; rfl)

/-- A line that has no CRLF in it, and does not complete one, is received as a whole. -/
theorem bytes_line (h : t.AtLine) (clean : ¬ crlf <:+: line)
    (start : t.line.window.getLast? = some cr → line.head? ≠ some lf) :
    (line ++ crlf).foldl (byte env) t =
      { t with
        core := t.core.received env line
        line := Scan.restart 1022 2 cmdTerminator (line ++ crlf) } := by
  have hquiet := quiet_line h.window clean start
  obtain ⟨hbytes, -⟩ := bytes_data_quiet env h.state hquiet
  have hline : line ++ crlf = line ++ [cr] ++ [lf] := by simp [crlf]
  have hpending : t.line.pending ++ (line ++ [cr]) ++ [lf] = line ++ crlf := by
    rw [h.pending, hline, List.nil_append]
  have hbyte := byte_data_complete env
    (t := { t with line := ⟨slide t.line.window (line ++ [cr]), t.line.pending ++ (line ++ [cr])⟩ })
    h.state (window_line h.window line)
  simp only [hpending, Scan.line_crlf] at hbyte
  rw [hline, List.foldl_append, hbytes, List.foldl_cons, List.foldl_nil, hbyte, ← hline]
  rfl

theorem calm_line (h : t.AtLine) (clean : ¬ crlf <:+: line)
    (start : t.line.window.getLast? = some cr → line.head? ≠ some lf)
    (short : line.length + 1 < 2 ^ 31) : Run.Along (byte env) Calm t (line ++ crlf) := by
  have hquiet := quiet_line h.window clean start
  have hline : line ++ crlf = line ++ [cr] ++ [lf] := by simp [crlf]
  rw [hline, Run.along_append]
  refine ⟨calm_data_quiet h.state hquiet (by rw [h.pending]; simpa using short), ?_, trivial⟩
  obtain ⟨hbytes, -⟩ := bytes_data_quiet env h.state hquiet
  have hfeed : Scan.feed 1022 2 cmdTerminator
      ⟨slide t.line.window (line ++ [cr]), t.line.pending ++ (line ++ [cr])⟩ lf = _ :=
    Scan.feed_complete (window_line h.window line)
  rw [hbytes]
  simp only [Calm, h.state, lineFeed, hfeed, reduceCtorEq, false_implies]

/-- A line that has not ended leaves the machine in the data state. -/
theorem bytes_unfinished (h : t.AtLine) (clean : ¬ crlf <:+: line)
    (start : t.line.window.getLast? = some cr → line.head? ≠ some lf)
    (short : line.length + 1 < 2 ^ 31) {bs : Bytes} (hbs : bs <+: line ++ [cr]) :
    Run.Along (byte env) Calm t bs ∧ (bs.foldl (byte env) t).core.state = .data := by
  obtain ⟨rest, hrest⟩ := hbs
  have hquiet := quiet_line h.window clean start
  have hlength := congrArg List.length hrest
  simp only [List.length_append, List.length_cons, List.length_nil] at hlength
  rw [← hrest] at hquiet
  have hquiet := ((quiet_append bs rest).mp hquiet).1
  refine ⟨calm_data_quiet h.state hquiet (by rw [h.pending, List.length_nil]; omega), ?_⟩
  rw [(bytes_data_quiet env h.state hquiet).1]
  exact h.state

/-- After a line the window ends in a LF. -/
theorem restart_window (raw : Bytes) :
    (Scan.restart 1022 2 cmdTerminator raw).window.length = 2 ∧
      (Scan.restart 1022 2 cmdTerminator raw).window.getLast? = some lf := by
  simp only [Scan.restart]
  split <;> exact ⟨rfl, rfl⟩

/-- Lines that do not end the data are received one after another. -/
theorem bytes_lines (env : Env) (h : t.AtLine) (start : t.line.window.getLast? ≠ some cr)
    {lines : List Bytes} (clean : ∀ line ∈ lines, ¬ crlf <:+: line ∧ line.length + 1 < 2 ^ 31)
    (going : ∀ line ∈ lines, ¬ EndsData line) :
    Run.Along (byte env) Calm t (terminated lines) ∧
      ((terminated lines).foldl (byte env) t).core =
        lines.foldl (fun c line => c.received env line) t.core ∧
      ((terminated lines).foldl (byte env) t).AtLine ∧
      ((terminated lines).foldl (byte env) t).line.window.getLast? ≠ some cr := by
  induction lines generalizing t with
  | nil => exact ⟨trivial, rfl, h, start⟩
  | cons line lines ih =>
      obtain ⟨hclean, hshort⟩ := clean line List.mem_cons_self
      have hstart (hcr : t.line.window.getLast? = some cr) : line.head? ≠ some lf :=
        absurd hcr start
      obtain ⟨hwindow, hlast⟩ := restart_window (line ++ crlf)
      have hstate : (t.core.received env line).state = .data :=
        (Core.received_state h.state).mpr fun hends => going line List.mem_cons_self hends.1
      have hrest := ih (t := (line ++ crlf).foldl (byte env) t) (by
          rw [bytes_line h hclean hstart]
          exact ⟨hstate, by simp [Scan.restart], hwindow⟩)
        (by rw [bytes_line h hclean hstart, hlast]; decide)
        (fun line hline => clean line (List.mem_cons_of_mem _ hline))
        (fun line hline => going line (List.mem_cons_of_mem _ hline))
      have hfold : (terminated (line :: lines)).foldl (byte env) t =
          (terminated lines).foldl (byte env) ((line ++ crlf).foldl (byte env) t) :=
        List.foldl_append
      rw [hfold]
      refine ⟨?_, ?_, hrest.2.2⟩
      · exact (Run.along_append t (line ++ crlf) (terminated lines)).mpr
          ⟨calm_line h hclean hstart hshort, hrest.1⟩
      · rw [List.foldl_cons, hrest.2.1, bytes_line h hclean hstart]

/-- All of some lines but the last byte leaves the machine in the data state, if only the
last line may end the data. -/
theorem bytes_prefix (env : Env) (h : t.AtLine) (start : t.line.window.getLast? ≠ some cr)
    {lines : List Bytes} {last : Bytes}
    (clean : ∀ line ∈ lines ++ [last], ¬ crlf <:+: line ∧ line.length + 1 < 2 ^ 31)
    (going : ∀ line ∈ lines, ¬ EndsData line) {bs : Bytes}
    (hbs : bs <+: terminated (lines ++ [last])) (hne : bs ≠ terminated (lines ++ [last])) :
    Run.Along (byte env) Calm t bs ∧ (bs.foldl (byte env) t).core.state = .data := by
  have hline (line : Bytes) : line ++ crlf = line ++ [cr] ++ [lf] := by simp [crlf]
  induction lines generalizing t bs with
  | nil =>
      obtain ⟨hclean, hshort⟩ := clean last (by simp)
      have hlast : terminated ([] ++ [last]) = last ++ [cr] ++ [lf] := by
        simp [terminated, crlf]
      rw [hlast] at hbs hne
      exact bytes_unfinished h hclean (fun hcr => absurd hcr start) hshort
        ((List.prefix_concat_iff.mp hbs).resolve_left hne)
  | cons line lines ih =>
      obtain ⟨hclean, hshort⟩ := clean line (by simp)
      have hstart (hcr : t.line.window.getLast? = some cr) : line.head? ≠ some lf :=
        absurd hcr start
      obtain ⟨hwindow, hlast⟩ := restart_window (line ++ crlf)
      have hsplit : terminated (line :: lines ++ [last]) =
          (line ++ crlf) ++ terminated (lines ++ [last]) := rfl
      rw [hsplit] at hbs hne
      rcases List.prefix_or_prefix_of_prefix hbs (List.prefix_append _ _) with hfirst | ⟨rest, rfl⟩
      · rw [hline] at hfirst
        rcases List.prefix_concat_iff.mp hfirst with rfl | hunfinished
        · rw [← hline, bytes_line h hclean hstart]
          exact ⟨calm_line h hclean hstart hshort, (Core.received_state h.state).mpr fun hends =>
            going line List.mem_cons_self hends.1⟩
        · exact bytes_unfinished h hclean hstart hshort hunfinished
      · have hstate : (t.core.received env line).state = .data :=
          (Core.received_state h.state).mpr fun hends => going line List.mem_cons_self hends.1
        have hfold : (line ++ crlf ++ rest).foldl (byte env) t =
            rest.foldl (byte env) ((line ++ crlf).foldl (byte env) t) := List.foldl_append
        have hrest := ih (t := (line ++ crlf).foldl (byte env) t) (by
            rw [bytes_line h hclean hstart]
            exact ⟨hstate, by simp [Scan.restart], hwindow⟩)
          (by rw [bytes_line h hclean hstart, hlast]; decide)
          (fun line hline => clean line (List.mem_cons_of_mem _ hline))
          (fun line hline => going line (List.mem_cons_of_mem _ hline))
          ((List.prefix_append_right_inj _).mp hbs) (fun heq => hne (by rw [heq]))
        rw [hfold]
        exact ⟨(Run.along_append t (line ++ crlf) rest).mpr
          ⟨calm_line h hclean hstart hshort, hrest.1⟩, hrest.2⟩

end Stream

namespace Session

variable {env : Env} {s : Session} {sp : Bytes}

/-- The side of a session that does not read has no unfinished line, unless the session is
closed. -/
structure Settled (s : Session) : Prop where
  cmd : s.state = .data → s.cmdOffset = 0
  line : s.state = .cmd → s.lineOffset = 0

theorem Settled.feedCmd (h : s.Settled) (hstate : s.state = .cmd) :
    (s.feedCmd env sp).1.Settled := by
  have hline := h.line hstate
  have fed := feedCmd_fed env s sp
  generalize s.feedCmd env sp = r at fed ⊢
  cases fed with
  | quiet b offset quiet window =>
      exact ⟨fun hdata => absurd (hstate.symm.trans hdata) (by decide), fun _ => hline⟩
  | gaveUp b offset h =>
      exact ⟨fun hdata => absurd (hstate.symm.trans hdata) (by decide), fun _ => hline⟩
  | tooLong b pre rest c eq quiet complete window => exact ⟨fun _ => rfl, fun _ => hline⟩
  | line b pre rest c eq quiet complete line delivers behind =>
      exact ⟨fun _ => rfl, fun _ => hline⟩

theorem Settled.dataTurn (h : s.Settled) (hstate : s.state = .data) :
    (s.dataTurn env sp).1.Settled := by
  have hcmd := h.cmd hstate
  have fed := dataTurn_fed env s sp
  generalize s.dataTurn env sp = r at fed ⊢
  cases fed with
  | quiet b offset quiet window =>
      exact ⟨fun _ => hcmd, fun hcmd => absurd (hstate.symm.trans hcmd) (by decide)⟩
  | gaveUp b offset h =>
      exact ⟨fun _ => hcmd, fun hcmd => absurd (hstate.symm.trans hcmd) (by decide)⟩
  | tooLong b pre rest c eq quiet complete window => exact ⟨fun _ => hcmd, fun _ => rfl⟩
  | ended b pre rest c eq quiet complete line delivers ends =>
      exact ⟨fun _ => hcmd, fun _ => rfl⟩
  | stored b b' pre rest c eq quiet complete line delivers ends window =>
      exact ⟨fun _ => hcmd, fun _ => rfl⟩

theorem Settled.turn (h : s.Settled) : (s.turn env sp).1.Settled := by
  unfold Session.turn
  cases hstate : s.state with
  | closed => exact h
  | cmd => exact h.feedCmd hstate
  | data => exact h.dataTurn hstate

/-- DATA has just been accepted. -/
structure Entered (env : Env) (s : Session) : Prop where
  before : ∃ (s₀ : Session) (sp : Bytes), s₀.state = .cmd ∧ (s₀.feedCmd env sp).1 = s
  state : s.state = .data

/-- What DATA leaves in the members, whatever they were before. -/
theorem Entered.fresh (h : Entered env s) :
    s.dataSize = 0 ∧ s.lineTooLong = false ∧ s.dataTooLong = false ∧ s.cmdOffset = 0 ∧
      ∃ f, s.dataFile = some f ∧ f.AtEnd := by
  obtain ⟨s₀, sp, hcmd, rfl⟩ := h.before
  have hdata := h.state
  have hoffset : (s₀.feedCmd env sp).1.cmdOffset = 0 := by
    have fed := feedCmd_fed env s₀ sp
    generalize s₀.feedCmd env sp = r at fed hdata ⊢
    cases fed with
    | quiet b offset quiet window => exact absurd (hcmd.symm.trans hdata) (by decide)
    | gaveUp b offset h => exact absurd (hcmd.symm.trans hdata) (by decide)
    | tooLong b pre rest c eq quiet complete window => rfl
    | line b pre rest c eq quiet complete line delivers behind => rfl
  obtain ⟨line, hopened, heq⟩ := (feedCmd_turned env s₀ sp hcmd).entered hcmd hdata
  obtain ⟨f, _, hfile, hend, -⟩ := (Core.openFiles_opened env (s₀.emit (.line line))).file hopened
  rw [heq]
  exact ⟨rfl, rfl, rfl, hoffset, f, hfile, hend⟩

/-- A session is settled throughout its run. -/
theorem settled_run (env : Env) (mem : Memory) (chunks : List Bytes) :
    Run.Always (advance env) (fun x => x.1.Settled) (start env mem, chunks) := by
  refine Run.always_of_step (advance env) ⟨fun _ => rfl, fun _ => rfl⟩ fun x h => ?_
  obtain ⟨s, _ | ⟨_ | ⟨c, sp⟩, rest⟩⟩ := x
  · exact h
  · exact h
  · exact h.turn

/-- Every state that a session gets to is settled. -/
theorem settled_feedAll (env : Env) (mem : Memory) (chunks : List Bytes) :
    ((start env mem).feedAll env chunks).Settled := by
  obtain ⟨n, hn⟩ := feedAll_reached env (start env mem) chunks
  have hlast := settled_run env mem chunks n
  rwa [hn] at hlast

/-- Between two lines of the data phase a session follows the machine between two lines. -/
theorem follows_atLine (hstate : s.state = .data) (hcmd : s.cmdOffset = 0)
    (hline : s.lineOffset = 0) :
    ∃ t, Follows s t ∧ t.AtLine ∧ t.line.window = s.lineBuffer.tCheck := by
  obtain ⟨t, follows⟩ := Follows.exists_stream s (by omega) (by omega)
  have hpending := follows.line.offset
  have hwindow := follows.line.window
  refine ⟨t, follows, ⟨by rw [← follows.core, hstate], List.eq_nil_of_length_eq_zero (by omega), ?_⟩,
    hwindow.symm⟩
  rw [← hwindow, s.lineBuffer.tCheck_length]

end Session

end Ervan.Smtp
