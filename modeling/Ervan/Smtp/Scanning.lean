import Ervan.Common.Scanned
import Ervan.Smtp.History

/-!
# A chunk is scanned to its end

The loops of `feed` and `feed_data` hand the rest of a chunk back and forth until nothing is left
of it or a QUIT has closed the session. Every byte goes through the buffer of the state that the
session is in when it is reached, and none goes through twice.
-/

namespace Ervan.Smtp

namespace Session

/-- The bytes go through the buffer of the state, and the other buffer stays as it is. -/
structure Pushes (s : Session) (taken : Bytes) (s' : Session) : Prop where
  cmd : s.state = .cmd →
    Scanned cmdTerminator s.cmdBuffer s.cmdOffset taken s'.cmdBuffer s'.cmdOffset ∧
      s'.lineBuffer = s.lineBuffer ∧ s'.lineOffset = s.lineOffset
  data : s.state = .data →
    Scanned cmdTerminator s.lineBuffer s.lineOffset taken s'.lineBuffer s'.lineOffset ∧
      s'.cmdBuffer = s.cmdBuffer ∧ s'.cmdOffset = s.cmdOffset

/-- A QUIT is the last thing that has been handled and answered. -/
def Quits (c c' : Core) : Prop :=
  ∃ line r, verbOf line = some .quit ∧ c'.log = c.log ++ [.line line, .reply r]

/-- What of a chunk has been scanned, turn by turn and with the state it was scanned in, and what
has been left unread. -/
inductive Scans (env : Env) : Session → Bytes → List (State × Bytes) → Session → Bytes → Prop
  | finished (s : Session) : Scans env s [] [] s []
  | closed {s : Session} {sp : Bytes} (hsp : sp ≠ []) (state : s.state = .closed) :
      Scans env s sp [] s sp
  | turn {s s' : Session} {taken rest unread : Bytes} {parts : List (State × Bytes)}
      (state : s.state ≠ .closed) (htaken : taken ≠ [])
      (hrest : (s.turn env (taken ++ rest)).2 = rest)
      (pushes : s.Pushes taken (s.turn env (taken ++ rest)).1)
      (quits : (s.turn env (taken ++ rest)).1.state = .closed →
        Quits s.toCore (s.turn env (taken ++ rest)).1.toCore)
      (next : Scans env (s.turn env (taken ++ rest)).1 rest parts s' unread) :
      Scans env s (taken ++ rest) ((s.state, taken) :: parts) s' unread

section Loops

variable {env : Env} {s : Session} {sp : Bytes}

end Loops

section Turns

variable {env : Env} {s : Session} {sp : Bytes}

/-- Handling a line leaves the window and the offset as `join` has left them. -/
theorem feedCmd_window (env : Env) (s : Session) (sp : Bytes) :
    (s.feedCmd env sp).1.cmdBuffer.tCheck =
        (join s.cmdBuffer sp s.cmdOffset cmdTerminator).1.tCheck ∧
      (s.feedCmd env sp).1.cmdOffset = (join s.cmdBuffer sp s.cmdOffset cmdTerminator).2.1 := by
  unfold feedCmd
  generalize join s.cmdBuffer sp s.cmdOffset cmdTerminator = r
  obtain ⟨b, offset, ⟨_ | n, rest, _ | _⟩⟩ := r
  · exact ⟨rfl, rfl⟩
  · exact ⟨rfl, rfl⟩
  · exact ⟨callCommand_tCheck env b n _, rfl⟩
  · exact ⟨callCommand_tCheck env b n _, rfl⟩

theorem dataTurn_window (env : Env) (s : Session) (sp : Bytes) :
    (s.dataTurn env sp).1.lineBuffer.tCheck =
        (join s.lineBuffer sp s.lineOffset cmdTerminator).1.tCheck ∧
      (s.dataTurn env sp).1.lineOffset =
        (join s.lineBuffer sp s.lineOffset cmdTerminator).2.1 := by
  have joined := join_joined (by decide) s.lineBuffer sp s.lineOffset cmdTerminator
  unfold dataTurn
  generalize join s.lineBuffer sp s.lineOffset cmdTerminator = r at joined ⊢
  cases joined with
  | quiet b offset quiet window => exact ⟨rfl, rfl⟩
  | gaveUp b offset h => exact ⟨rfl, rfl⟩
  | tooLong b pre rest c eq quiet complete window => exact ⟨rfl, rfl⟩
  | line b pre rest c eq quiet complete line delivers =>
      obtain ⟨-, hwindow⟩ := Core.storeLine_eq env s.toCore delivers
      simp only
      split
      · exact ⟨rfl, rfl⟩
      · exact ⟨hwindow, rfl⟩

end Turns

section Scans

variable {env : Env} {s s' : Session} {sp unread : Bytes} {parts : List (State × Bytes)}

/-- The turns take the chunk apart, in order. -/
theorem Scans.bytes (h : Scans env s sp parts s' unread) :
    sp = parts.flatMap (·.2) ++ unread := by
  induction h with
  | finished s => rfl
  | closed hsp state => rfl
  | turn state htaken hrest pushes quits next ih =>
      rw [List.flatMap_cons, List.append_assoc, ← ih]

end Scans

end Session

end Ervan.Smtp
