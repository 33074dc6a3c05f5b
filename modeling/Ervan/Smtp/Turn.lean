import Ervan.Library.Run
import Ervan.Smtp.Outcome
import Ervan.Smtp.Session

/-!
# Turns

`feed` is a loop over turns: one call of `feed_cmd`, or one round of the loop of
`feed_data`. A whole run of a session over its chunks is the iteration of one step, and
what a turn can do to the members is said once, for every state and every input.
-/

namespace Ervan.Smtp

open Framing

namespace Session

/-- One turn, and what it leaves of the chunk. A closed session reads nothing. -/
def turn (env : Env) (s : Session) (sp : Bytes) : Session × Bytes :=
  match s.state with
  | .closed => (s, [])
  | .cmd => s.feedCmd env sp
  | .data => ((s.dataTurn env sp).1, (s.dataTurn env sp).2.1)

/-- A session and the chunks it has not read yet. The first of them may be the rest of
the chunk that `feed` is working on. -/
abbrev Progress := Session × List Bytes

/-- One step of a run. -/
def advance (env : Env) : Progress → Progress
  | (s, []) => (s, [])
  | (s, [] :: chunks) => (s, chunks)
  | (s, (c :: sp) :: chunks) =>
      ((s.turn env (c :: sp)).1, (s.turn env (c :: sp)).2 :: chunks)

/-- The offset of the command buffer stays in the range of an `int`. -/
def InRange (s : Session) (sp : Bytes) : Prop :=
  0 ≤ s.cmdOffset ∧ s.cmdOffset + sp.length < 2 ^ 31

end Session

namespace Core

/-- What a turn can do to the members of a session. -/
inductive Turned (env : Env) (exact : Prop) (c : Core) : Core → Prop
  | idle : Turned env exact c c
  | longCommand (state : c.state = .cmd) : Turned env exact c (c.reply .exceededLine)
  | command (state : c.state = .cmd) (line : Bytes) (c' : Core)
      (h : Commanded env exact line (c.emit (.line line)) c') : Turned env exact c c'
  | longData (state : c.state = .data) : Turned env exact c { c with lineTooLong := true }
  | stored (state : c.state = .data) (line : Bytes) : Turned env exact c (c.store env line)
  | ended (state : c.state = .data) : Turned env exact c (c.endData env)

end Core

namespace Session

variable {env : Env} {s : Session} {sp : Bytes}

theorem turn_cmd (env : Env) (sp : Bytes) (hstate : s.state = .cmd) :
    s.turn env sp = s.feedCmd env sp := by
  rw [turn, hstate]

theorem turn_data (env : Env) (sp : Bytes) (hstate : s.state = .data) :
    s.turn env sp = ((s.dataTurn env sp).1, (s.dataTurn env sp).2.1) := by
  rw [turn, hstate]

theorem feedCmd_rest (env : Env) (s : Session) (sp : Bytes) :
    (s.feedCmd env sp).2 = (join s.cmdBuffer sp s.cmdOffset cmdTerminator).2.2.rest := rfl

theorem dataTurn_rest (env : Env) (s : Session) (sp : Bytes) :
    (s.dataTurn env sp).2.1 = (join s.lineBuffer sp s.lineOffset cmdTerminator).2.2.rest := by
  unfold dataTurn
  generalize join s.lineBuffer sp s.lineOffset cmdTerminator = r
  obtain ⟨b, offset, ⟨_ | n, rest, ec⟩⟩ := r
  · rfl
  · simp only
    split <;> rfl

/-- A turn takes at least one byte out of the chunk. -/
theorem turn_rest (env : Env) (s : Session) (hsp : sp ≠ []) :
    ∃ taken, taken ≠ [] ∧ sp = taken ++ (s.turn env sp).2 := by
  unfold turn
  cases hstate : s.state with
  | closed => exact ⟨sp, hsp, (List.append_nil sp).symm⟩
  | cmd =>
      rw [feedCmd_rest]
      exact (join_joined (by decide) s.cmdBuffer sp s.cmdOffset cmdTerminator).rest hsp
  | data =>
      simp only [dataTurn_rest]
      exact (join_joined (by decide) s.lineBuffer sp s.lineOffset cmdTerminator).rest hsp

theorem turn_rest_length (env : Env) (s : Session) (hsp : sp ≠ []) :
    (s.turn env sp).2.length < sp.length := by
  obtain ⟨taken, htaken, heq⟩ := s.turn_rest env hsp
  have hlength := congrArg List.length heq
  have hpos := List.length_pos_iff.mpr htaken
  rw [List.length_append] at hlength
  omega

theorem feedCmd_rest_length (env : Env) (hsp : sp ≠ []) (hstate : s.state = .cmd) :
    (s.feedCmd env sp).2.length < sp.length := by
  rw [← turn_cmd env sp hstate]
  exact s.turn_rest_length env hsp

theorem dataTurn_rest_length (env : Env) (hsp : sp ≠ []) (hstate : s.state = .data) :
    (s.dataTurn env sp).2.1.length < sp.length := by
  have hlength := s.turn_rest_length env hsp
  rwa [turn_data env sp hstate] at hlength

/-- What a call of `feed_cmd` leaves of the session and of the chunk. -/
inductive CmdFed (env : Env) (s : Session) (sp : Bytes) : Session × Bytes → Prop
  /-- No byte completes the terminator. -/
  | quiet (b : CmdBuffer) (offset : Int) (quiet : Quiet cmdTerminator s.cmdBuffer.tCheck sp)
      (window : b.tCheck = slide s.cmdBuffer.tCheck sp) :
      CmdFed env s sp ({ s with cmdBuffer := b, cmdOffset := offset }, [])
  /-- The index of `join` has passed the largest `int`. -/
  | gaveUp (b : CmdBuffer) (offset : Int) (h : 2 ^ 31 < sp.length) :
      CmdFed env s sp ({ s with cmdBuffer := b, cmdOffset := offset }, [])
  /-- A line that does not fit the buffer. -/
  | tooLong (b : CmdBuffer) (pre rest : Bytes) (c : UInt8) (eq : sp = pre ++ c :: rest)
      (quiet : Quiet cmdTerminator s.cmdBuffer.tCheck pre)
      (complete : push (slide s.cmdBuffer.tCheck pre) c = cmdTerminator)
      (window : b.tCheck = cmdTerminator) :
      CmdFed env s sp
        ({ s with toCore := s.reply .exceededLine, cmdBuffer := b, cmdOffset := 0 }, rest)
  /-- A line that is logged and handled. -/
  | line (b : CmdBuffer) (pre rest : Bytes) (c : UInt8) (eq : sp = pre ++ c :: rest)
      (quiet : Quiet cmdTerminator s.cmdBuffer.tCheck pre)
      (complete : push (slide s.cmdBuffer.tCheck pre) c = cmdTerminator)
      (line : Bytes) (delivers : Delivers b cmdTerminator line)
      (behind : s.InRange sp → line.length + 2 ≤ 510 → b.mem (line.length + 1) = lf) :
      CmdFed env s sp
        ({ s with
            toCore := ((s.emit (.line line)).callCommand env b line.length).2
            cmdBuffer := ((s.emit (.line line)).callCommand env b line.length).1
            cmdOffset := 0 }, rest)

theorem feedCmd_fed (env : Env) (s : Session) (sp : Bytes) :
    CmdFed env s sp (s.feedCmd env sp) := by
  have joined := join_joined (by decide) s.cmdBuffer sp s.cmdOffset cmdTerminator
  unfold feedCmd
  generalize hjoin : join s.cmdBuffer sp s.cmdOffset cmdTerminator = r at joined ⊢
  cases joined with
  | quiet b offset quiet window => exact .quiet b offset quiet window
  | gaveUp b offset h => exact .gaveUp b offset h
  | tooLong b pre rest c eq quiet complete window =>
      exact .tooLong b pre rest c eq quiet complete window
  | line b pre rest c eq quiet complete line delivers =>
      have hbehind (hrange : s.InRange sp) (hlen : line.length + 2 ≤ 510) :
          b.mem (line.length + 1) = lf := by
        have hlast := join_behind hrange.1 hrange.2 (by decide) (by decide) (by decide) hjoin hlen
        exact (Option.some.inj hlast).symm
      simp only [handleLine, delivers.read, Bool.false_eq_true, if_false]
      exact .line b pre rest c eq quiet complete line delivers hbehind

/-- What a turn of the loop of `feed_data` leaves, and whether it is not the last one. -/
inductive DataFed (env : Env) (s : Session) (sp : Bytes) : Session × Bytes × Bool → Prop
  /-- No byte completes the terminator. -/
  | quiet (b : LineBuffer) (offset : Int) (quiet : Quiet cmdTerminator s.lineBuffer.tCheck sp)
      (window : b.tCheck = slide s.lineBuffer.tCheck sp) :
      DataFed env s sp ({ s with lineBuffer := b, lineOffset := offset }, [], false)
  /-- The index of `join` has passed the largest `int`. -/
  | gaveUp (b : LineBuffer) (offset : Int) (h : 2 ^ 31 < sp.length) :
      DataFed env s sp ({ s with lineBuffer := b, lineOffset := offset }, [], false)
  /-- A line that does not fit the buffer. -/
  | tooLong (b : LineBuffer) (pre rest : Bytes) (c : UInt8) (eq : sp = pre ++ c :: rest)
      (quiet : Quiet cmdTerminator s.lineBuffer.tCheck pre)
      (complete : push (slide s.lineBuffer.tCheck pre) c = cmdTerminator)
      (window : b.tCheck = cmdTerminator) :
      DataFed env s sp
        ({ s with lineTooLong := true, lineBuffer := b, lineOffset := 0 }, rest, false)
  /-- The line that ends the data. -/
  | ended (b : LineBuffer) (pre rest : Bytes) (c : UInt8) (eq : sp = pre ++ c :: rest)
      (quiet : Quiet cmdTerminator s.lineBuffer.tCheck pre)
      (complete : push (slide s.lineBuffer.tCheck pre) c = cmdTerminator)
      (line : Bytes) (delivers : Delivers b cmdTerminator line) (ends : EndsData line) :
      DataFed env s sp
        ({ s with toCore := s.endData env, lineBuffer := b, lineOffset := 0 }, rest, false)
  /-- A line of the message. -/
  | stored (b b' : LineBuffer) (pre rest : Bytes) (c : UInt8) (eq : sp = pre ++ c :: rest)
      (quiet : Quiet cmdTerminator s.lineBuffer.tCheck pre)
      (complete : push (slide s.lineBuffer.tCheck pre) c = cmdTerminator)
      (line : Bytes) (delivers : Delivers b cmdTerminator line) (ends : ¬ EndsData line)
      (window : b'.tCheck = b.tCheck) :
      DataFed env s sp
        ({ s with toCore := s.store env line, lineBuffer := b', lineOffset := 0 }, rest, true)

theorem dataTurn_fed (env : Env) (s : Session) (sp : Bytes) :
    DataFed env s sp (s.dataTurn env sp) := by
  have joined := join_joined (by decide) s.lineBuffer sp s.lineOffset cmdTerminator
  unfold dataTurn
  generalize join s.lineBuffer sp s.lineOffset cmdTerminator = r at joined ⊢
  cases joined with
  | quiet b offset quiet window => exact .quiet b offset quiet window
  | gaveUp b offset h => exact .gaveUp b offset h
  | tooLong b pre rest c eq quiet complete window =>
      exact .tooLong b pre rest c eq quiet complete window
  | line b pre rest c eq quiet complete line delivers =>
      have hends := Core.endsData_iff delivers
      obtain ⟨hstored, hwindow⟩ := Core.storeLine_eq env s.toCore delivers
      by_cases ends : EndsData line
      · simp only [if_pos (hends.mpr ends)]
        exact .ended b pre rest c eq quiet complete line delivers ends
      · simp only [if_neg (mt hends.mp ends), hstored]
        exact .stored b _ pre rest c eq quiet complete line delivers ends hwindow

/-- A call of `feed_cmd` has nothing to do with the line buffer. -/
theorem feedCmd_lineBuffer (env : Env) (s : Session) (sp : Bytes) :
    (s.feedCmd env sp).1.lineBuffer = s.lineBuffer ∧
      (s.feedCmd env sp).1.lineOffset = s.lineOffset := by
  have fed := feedCmd_fed env s sp
  generalize s.feedCmd env sp = r at fed ⊢
  cases fed <;> exact ⟨rfl, rfl⟩

/-- A turn of the data side has nothing to do with the command buffer. -/
theorem dataTurn_cmdBuffer (env : Env) (s : Session) (sp : Bytes) :
    (s.dataTurn env sp).1.cmdBuffer = s.cmdBuffer ∧
      (s.dataTurn env sp).1.cmdOffset = s.cmdOffset := by
  have fed := dataTurn_fed env s sp
  generalize s.dataTurn env sp = r at fed ⊢
  cases fed <;> exact ⟨rfl, rfl⟩

theorem feedCmd_turned (env : Env) (s : Session) (sp : Bytes) (hstate : s.state = .cmd) :
    Core.Turned env (s.InRange sp) s.toCore (s.feedCmd env sp).1.toCore := by
  have fed := feedCmd_fed env s sp
  generalize s.feedCmd env sp = r at fed ⊢
  cases fed with
  | quiet b offset quiet window => exact .idle
  | gaveUp b offset h => exact .idle
  | tooLong b pre rest c eq quiet complete window => exact .longCommand hstate
  | line b pre rest c eq quiet complete line delivers behind =>
      exact .command hstate line _
        (Core.callCommand_commanded env (s.InRange sp) delivers behind)

theorem dataTurn_turned (env : Env) (s : Session) (sp : Bytes) (exact : Prop)
    (hstate : s.state = .data) :
    Core.Turned env exact s.toCore (s.dataTurn env sp).1.toCore := by
  have fed := dataTurn_fed env s sp
  generalize s.dataTurn env sp = r at fed ⊢
  cases fed with
  | quiet b offset quiet window => exact .idle
  | gaveUp b offset h => exact .idle
  | tooLong b pre rest c eq quiet complete window => exact .longData hstate
  | ended b pre rest c eq quiet complete line delivers ends => exact .ended hstate
  | stored b b' pre rest c eq quiet complete line delivers ends window =>
      exact .stored hstate line

/-- What a turn can do, whatever the state and the chunk. -/
theorem turn_turned (env : Env) (s : Session) (sp : Bytes) :
    Core.Turned env (s.InRange sp) s.toCore (s.turn env sp).1.toCore := by
  unfold turn
  cases hstate : s.state with
  | closed => exact .idle
  | cmd => exact feedCmd_turned env s sp hstate
  | data => exact dataTurn_turned env s sp _ hstate

/-- The loop of `feed_data` goes on in the data state only. -/
theorem dataTurn_more (env : Env) (s : Session) (sp : Bytes) (hstate : s.state = .data)
    (hmore : (s.dataTurn env sp).2.2 = true) : (s.dataTurn env sp).1.state = .data := by
  have fed := dataTurn_fed env s sp
  generalize s.dataTurn env sp = r at fed hmore ⊢
  cases fed with
  | quiet b offset quiet window => cases hmore
  | gaveUp b offset h => cases hmore
  | tooLong b pre rest c eq quiet complete window => cases hmore
  | ended b pre rest c eq quiet complete line delivers ends => cases hmore
  | stored b b' pre rest c eq quiet complete line delivers ends window =>
      exact (Core.store_state env line s.toCore).trans hstate

/-- Fuel for every byte is enough for the loop of `feed_data`. -/
theorem feedDataLoop_fuel {n : Nat} (hn : sp.length < n) (hstate : s.state = .data) :
    feedDataLoop env n s sp = s.feedData env sp := by
  unfold feedData
  induction hlen : sp.length using Nat.strongRecOn generalizing n s sp with
  | ind len ih =>
      subst hlen
      obtain ⟨n, rfl⟩ := Nat.exists_eq_succ_of_ne_zero (by omega : n ≠ 0)
      by_cases hsp : sp = []
      · subst hsp
        rfl
      · have hlength := dataTurn_rest_length env hsp hstate
        have hstate' := s.dataTurn_more env sp hstate
        simp only [feedDataLoop]
        generalize s.dataTurn env sp = r at hlength hstate' ⊢
        obtain ⟨s', rest, more⟩ := r
        cases more with
        | true =>
            simp only [if_true]
            rw [ih _ hlength (by omega) (hstate' rfl) rfl, ih _ hlength hlength (hstate' rfl) rfl]
        | false => rfl

/-- `feed_data` takes one turn and, unless it was the last one, goes on. -/
theorem feedData_turn (env : Env) (s : Session) (hsp : sp ≠ []) (hstate : s.state = .data) :
    s.feedData env sp =
      if (s.dataTurn env sp).2.2 then (s.dataTurn env sp).1.feedData env (s.dataTurn env sp).2.1
      else ((s.dataTurn env sp).1, (s.dataTurn env sp).2.1) := by
  have hlength := dataTurn_rest_length env hsp hstate
  have hstate' := s.dataTurn_more env sp hstate
  rw [feedData, feedDataLoop]
  generalize s.dataTurn env sp = r at hlength hstate' ⊢
  obtain ⟨s', rest, more⟩ := r
  cases more with
  | true =>
      simp only [if_true] at hlength ⊢
      exact feedDataLoop_fuel hlength (hstate' rfl)
  | false => simp only [Bool.false_eq_true, if_false]

theorem feedData_nil (env : Env) (s : Session) : s.feedData env [] = (s, []) := rfl

theorem feedData_rest_length (env : Env) (hsp : sp ≠ []) (hstate : s.state = .data) :
    (s.feedData env sp).2.length < sp.length := by
  induction hlen : sp.length using Nat.strongRecOn generalizing s sp with
  | ind len ih =>
      subst hlen
      have hlength := dataTurn_rest_length env hsp hstate
      have hstate' := s.dataTurn_more env sp hstate
      rw [feedData_turn env s hsp hstate]
      generalize s.dataTurn env sp = r at hlength hstate' ⊢
      obtain ⟨s', rest, more⟩ := r
      cases more with
      | true =>
          by_cases hrest : rest = []
          · subst hrest
            exact List.length_pos_iff.mpr hsp
          · exact Nat.lt_trans (ih _ hlength hrest (hstate' rfl) rfl) hlength
      | false => exact hlength

/-- Fuel for every byte is enough for the loop of `feed`. -/
theorem feedLoop_fuel {n : Nat} (hn : sp.length ≤ n) :
    feedLoop env n s sp = s.feed env sp := by
  unfold feed
  induction hlen : sp.length using Nat.strongRecOn generalizing n s sp with
  | ind len ih =>
      subst hlen
      by_cases hsp : sp = []
      · subst hsp
        cases n <;> rfl
      · have hpos := List.length_pos_iff.mpr hsp
        obtain ⟨n, rfl⟩ := Nat.exists_eq_succ_of_ne_zero (by omega : n ≠ 0)
        obtain ⟨m, hm⟩ := Nat.exists_eq_succ_of_ne_zero (by omega : sp.length ≠ 0)
        rw [hm, feedLoop, feedLoop, if_neg hsp, if_neg hsp]
        cases hstate : s.state with
        | closed => rfl
        | cmd =>
            have hlength := feedCmd_rest_length env hsp hstate
            generalize s.feedCmd env sp = r at hlength ⊢
            obtain ⟨s', rest⟩ := r
            simp only at hlength ⊢
            rw [ih _ hlength (by omega) rfl, ih _ hlength (n := m) (by omega) rfl]
        | data =>
            have hlength := feedData_rest_length env hsp hstate
            generalize s.feedData env sp = r at hlength ⊢
            obtain ⟨s', rest⟩ := r
            simp only at hlength ⊢
            rw [ih _ hlength (by omega) rfl, ih _ hlength (n := m) (by omega) rfl]

theorem feed_nil (env : Env) (s : Session) : s.feed env [] = s := rfl

/-- The branches of the loop of `feed`. -/
theorem feed_cons (env : Env) (s : Session) (hsp : sp ≠ []) :
    s.feed env sp = match s.state with
      | .closed => s
      | .cmd => (s.feedCmd env sp).1.feed env (s.feedCmd env sp).2
      | .data => (s.feedData env sp).1.feed env (s.feedData env sp).2 := by
  obtain ⟨m, hm⟩ := Nat.exists_eq_succ_of_ne_zero (Nat.ne_of_gt (List.length_pos_iff.mpr hsp))
  rw [feed, hm, feedLoop, if_neg hsp]
  cases hstate : s.state with
  | closed => rfl
  | cmd =>
      have hlength := feedCmd_rest_length env hsp hstate
      generalize s.feedCmd env sp = r at hlength ⊢
      exact feedLoop_fuel (by omega)
  | data =>
      have hlength := feedData_rest_length env hsp hstate
      generalize s.feedData env sp = r at hlength ⊢
      exact feedLoop_fuel (by omega)

/-- A closed session reads no more chunks. -/
theorem feedAll_closed (env : Env) (chunks : List Bytes) (h : s.state = .closed) :
    s.feedAll env chunks = s := by
  induction chunks with
  | nil => rfl
  | cons sp chunks ih =>
      have hfeed : s.feed env sp = s := by
        by_cases hsp : sp = []
        · rw [hsp, feed_nil]
        · rw [feed_cons env s hsp, h]
      change (s.feed env sp).feedAll env chunks = s
      rw [hfeed, ih]

theorem feed_feedData (env : Env) (s : Session) (sp : Bytes) (hstate : s.state = .data) :
    s.feed env sp = (s.feedData env sp).1.feed env (s.feedData env sp).2 := by
  by_cases hsp : sp = []
  · rw [hsp, feedData_nil]
  · rw [feed_cons env s hsp, hstate]

/-- `feed` takes its turns one after another. -/
theorem feed_turn (env : Env) (s : Session) (hsp : sp ≠ []) :
    s.feed env sp = (s.turn env sp).1.feed env (s.turn env sp).2 := by
  cases hstate : s.state with
  | closed => rw [feed_cons env s hsp, turn, hstate, feed_nil]
  | cmd => rw [feed_cons env s hsp, turn_cmd env sp hstate, hstate]
  | data =>
      have hstate' := s.dataTurn_more env sp hstate
      rw [feed_feedData env s sp hstate, feedData_turn env s hsp hstate, turn_data env sp hstate]
      generalize s.dataTurn env sp = r at hstate' ⊢
      obtain ⟨s', rest, more⟩ := r
      cases more with
      | true =>
          simp only [if_true]
          exact (feed_feedData env s' rest (hstate' rfl)).symm
      | false => simp only [Bool.false_eq_true, if_false]

/-- A chunk is read in steps. -/
theorem feed_reached (env : Env) (s : Session) (sp : Bytes) (chunks : List Bytes) :
    ∃ n, (advance env)^[n] (s, sp :: chunks) = (s.feed env sp, chunks) := by
  induction hlen : sp.length using Nat.strongRecOn generalizing s sp with
  | ind len ih =>
      cases sp with
      | nil => exact ⟨1, rfl⟩
      | cons c sp =>
          have hlength := s.turn_rest_length env (List.cons_ne_nil c sp)
          obtain ⟨n, hn⟩ := ih _ (hlen ▸ hlength) (s.turn env (c :: sp)).1
            (s.turn env (c :: sp)).2 rfl
          refine ⟨n + 1, ?_⟩
          rw [Function.iterate_succ_apply, feed_turn env s (by simp)]
          exact hn

/-- Every run of `feed` over its chunks is a run of steps, and ends with all chunks read. -/
theorem feedAll_reached (env : Env) (s : Session) (chunks : List Bytes) :
    ∃ n, (advance env)^[n] (s, chunks) = (feedAll env s chunks, []) := by
  induction chunks generalizing s with
  | nil => exact ⟨0, rfl⟩
  | cons sp chunks ih =>
      obtain ⟨n, hn⟩ := feed_reached env s sp chunks
      obtain ⟨k, hk⟩ := ih (s.feed env sp)
      refine ⟨k + n, ?_⟩
      rw [Function.iterate_add_apply, hn, hk]
      rfl

end Session

end Ervan.Smtp
