import Ervan.Smtp.Replies
import Ervan.Smtp.Stream

/-!
# Chunks

Where the bytes of a session are cut into chunks makes no difference to it, except to a
command that looks behind its line: there the rest of its chunk still stands.
-/

namespace Ervan.Smtp

open Framing

/-- What can be seen of a session, and its envelope. -/
structure Observed where
  replies : List Reply
  /-- The operations on spool files, with everything that is written. -/
  spool : List Event
  state : State
  metadata : Metadata
  reverseSet : Bool
  sessionBegun : Bool
  deriving DecidableEq

def Core.observe (c : Core) : Observed where
  replies := Smtp.replies c.log
  spool := c.log.filter fun e => match e with
    | .line _ => false
    | .reply _ => false
    | _ => true
  state := c.state
  metadata := c.metadata
  reverseSet := c.reverseSet
  sessionBegun := c.sessionBegun

namespace Session

/-- The line that `feed_cmd` hands to its command. -/
def delivered (s : Session) (sp : Bytes) : Option Bytes :=
  let (b, _, result) := join s.cmdBuffer sp s.cmdOffset cmdTerminator
  result.sp.map fun len => b.mem.read 0 len

/-- No offset overflows at this byte, and it completes neither a RCPT nor a MAIL that has no
argument and is not refused before it looks for one. -/
def Calm (s : Session) (c : UInt8) : Prop :=
  (0 ≤ s.cmdOffset ∧ s.cmdOffset + 1 < 2 ^ 31) ∧ (0 ≤ s.lineOffset ∧ s.lineOffset + 1 < 2 ^ 31) ∧
    (s.state = .cmd → ∀ line ∈ s.delivered [c],
      ¬ Core.StaleRecipient line s.toCore ∧ ¬ Core.StaleSender line s.toCore)

instance (s : Session) (c : UInt8) : Decidable (s.Calm c) := inferInstanceAs (Decidable (_ ∧ _))

theorem Calm.follows {s : Session} {t : Stream} {c : UInt8} (follows : Follows s t)
    (h : s.Calm c) : t.Calm c := by
  obtain ⟨hcmd, hline, hstale⟩ := h
  have hcmdOffset := follows.cmd.offset
  have hlineOffset := follows.line.offset
  rw [follows.core] at hstale
  cases hstate : t.core.state with
  | closed => simp only [Stream.Calm, hstate]
  | data =>
      simp only [Stream.Calm, hstate]
      omega
  | cmd =>
      by_cases hcomplete : push t.cmd.window c = cmdTerminator
      · have hfeed : t.cmdFeed c = _ := Scan.feed_complete hcomplete
        simp only [Stream.Calm, hstate, hfeed]
        cases hscan : Scan.line 510 2 (t.cmd.pending ++ [c]) with
        | none => trivial
        | some line =>
            have hquiet : Framing.Quiet cmdTerminator t.cmd.window [] := trivial
            obtain ⟨b, hjoin, hdelivers, -⟩ := join_complete follows.cmd [] hquiet
              hcomplete (by simpa using follows.cmd.small) (fun _ => by decide) (by decide)
                (by decide)
            rw [List.nil_append, List.append_nil, hscan] at hjoin
            rw [List.append_nil] at hdelivers
            refine hstale hstate line ?_
            simp only [delivered, hjoin, JoinResult.ofLine, Option.map_some,
              (hdelivers line hscan).1.read, Option.mem_def]
      · have hfeed : t.cmdFeed c = _ := Scan.feed_quiet hcomplete
        simp only [Stream.Calm, hstate, hfeed]
        omega

theorem feedAll_empty (env : Env) (s : Session) {chunks : List Bytes} (h : chunks.flatten = []) :
    s.feedAll env chunks = s := by
  induction chunks with
  | nil => rfl
  | cons sp chunks ih =>
      obtain ⟨rfl, hrest⟩ := List.append_eq_nil_iff.mp h
      exact ih hrest

/-- The members of a session do not depend on the chunks. -/
theorem feedAll_toCore (env : Env) (s : Session) (chunks : List Bytes)
    (calm : Run.Along (fun s c => s.feed env [c]) Calm s chunks.flatten) :
    (s.feedAll env chunks).toCore = (s.feed env chunks.flatten).toCore := by
  cases hbytes : chunks.flatten with
  | nil => rw [feedAll_empty env s hbytes, feed_nil]
  | cons c bs =>
      have hfirst := calm
      rw [hbytes] at hfirst
      obtain ⟨⟨hcmd, hcmd'⟩, ⟨hline, hline'⟩, -⟩ := hfirst.1
      obtain ⟨t, follows⟩ := Follows.exists_stream s ⟨hcmd, by omega⟩ ⟨hline, by omega⟩
      have hcalm : Run.Along (Stream.byte env) Stream.Calm t chunks.flatten := by
        refine calm.transfer (R := Follows) (fun s t c h hc => hc.follows h)
          (fun s t c h hc => ?_) follows
        have hbyte : Run.Along (Stream.byte env) Stream.Calm t [c] := ⟨hc, trivial⟩
        exact h.feed hbyte
      rw [(follows.feedAll env chunks hcalm).core, ← hbytes, (follows.feed hcalm).core]

/-- From every state, a stream of bytes has the same effect however it is cut into chunks,
if, byte by byte, no offset overflows and no MAIL or RCPT looks for an argument it lacks. -/
theorem chunks_invisible (env : Env) (s : Session) (chunks : List Bytes)
    (calm : Run.Along (fun s c => s.feed env [c]) Calm s chunks.flatten) :
    (s.feedAll env chunks).observe = (s.feed env chunks.flatten).observe :=
  congrArg Core.observe (feedAll_toCore env s chunks calm)

/-- Cuts in the middle of a line and of a CRLF. -/
theorem chunks_invisible_greeting :
    ((start (fun _ => .ideal) .zeroed).feedAll (fun _ => .ideal)
        [text "EHLO a\r\nNO", text "OP\r", text "\n"]).observe =
      ((start (fun _ => .ideal) .zeroed).feed (fun _ => .ideal)
        [text "EHLO a\r\nNO", text "OP\r", text "\n"].flatten).observe :=
  chunks_invisible _ _ _ (by decide +kernel)

/-- A RCPT without an argument takes a path from the rest of its chunk. -/
theorem not_chunks_invisible_stale :
    ¬ ∀ (env : Env) (mem : Memory) (before chunks : List Bytes), (∀ sp ∈ chunks, sp ≠ []) →
      (((start env mem).feedAll env before).feedAll env chunks).observe =
        (((start env mem).feedAll env before).feed env chunks.flatten).observe := by
  intro h
  have hstep := h (fun _ => .ideal) .zeroed [text "EHLO a\r\n"] [text "RCPT\r\n", text "NO<a@b>\r\n"]
    (by decide)
  revert hstep
  decide +kernel

end Session

end Ervan.Smtp
