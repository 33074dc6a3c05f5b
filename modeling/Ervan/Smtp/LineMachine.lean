import Ervan.Common.Framed
import Ervan.Smtp.DataPhase

/-!
# A session as a machine on lines

What a session is for, without buffers, chunks and bytes: the stream is cut at every CRLF, and
the lines have their effects one after another. Which of its two buffers a line goes through, and
where the chunks end, makes no difference.
-/

namespace Ervan.Smtp

open Framing

/-- A MAIL or a RCPT without the byte behind its verb. -/
def Bare (line : Bytes) : Prop :=
  line.length = 4 ∧ (verbOf line = some .mail ∨ verbOf line = some .rcpt)

instance (line : Bytes) : Decidable (Bare line) := inferInstanceAs (Decidable (_ ∧ _))

namespace Core

/-- A MAIL or a RCPT that is taken for a command has an argument. -/
def Argued (c : Core) (line : Bytes) : Prop := c.state = .cmd → ¬ Bare line

instance (c : Core) (line : Bytes) : Decidable (c.Argued line) :=
  inferInstanceAs (Decidable (_ → _))

/-- The effect of a line. -/
def hear (env : Env) (c : Core) (line : Bytes) : Core :=
  match c.state with
  | .closed => c
  | .cmd => c.commandLine env (if line.length ≤ 510 then some line else none)
  | .data => c.received env line

end Core

namespace Stream

variable {env : Env} {t : Stream} {pending bs : Bytes}

/-- The side of the machine that reads has these bytes of an unfinished line, and the other one
has none. -/
structure Reads (t : Stream) (pending : Bytes) : Prop where
  cmd : t.core.state = .cmd → t.cmd.pending = pending ∧ t.line.pending = []
  data : t.core.state = .data → t.line.pending = pending ∧ t.cmd.pending = []
  cmdAligned : Aligned t.cmd
  lineAligned : Aligned t.line

theorem byte_closed (env : Env) (hstate : t.core.state = .closed) (c : UInt8) : t.byte env c = t := by
  simp only [byte, hstate]

/-- A byte that ends no line. -/
theorem Reads.quiet (h : t.Reads pending) (env : Env) {c : UInt8} (hc : ¬ (c = lf ∧ pending.getLast? = some cr)) :
    (t.byte env c).core = t.core ∧ (t.byte env c).Reads (pending ++ [c]) ∧
      ((pending ++ [c]).length < 2 ^ 31 → t.Calm c) := by
  cases hstate : t.core.state with
  | closed =>
      rw [byte_closed env hstate]
      refine ⟨rfl, ⟨fun hcmd => ?_, fun hdata => ?_, h.cmdAligned, h.lineAligned⟩, fun _ => ?_⟩
      · rw [hstate] at hcmd
        cases hcmd
      · rw [hstate] at hdata
        cases hdata
      · simp only [Calm, hstate]
  | cmd =>
      obtain ⟨hpending, hidle⟩ := h.cmd hstate
      have hquiet : push t.cmd.window c ≠ cmdTerminator := by
        have hcompletes := h.cmdAligned.completes c
        rw [hpending] at hcompletes
        exact mt hcompletes.mp hc
      have hfeed : t.cmdFeed c = _ := Scan.feed_quiet hquiet
      rw [(byte_cmd_quiet env hstate hquiet).1]
      refine ⟨rfl, ⟨fun _ => ⟨by rw [hpending], hidle⟩, fun hdata => ?_, h.cmdAligned.push c,
        h.lineAligned⟩, fun hshort => ?_⟩
      · rw [hstate] at hdata
        cases hdata
      · simp only [Calm, hstate, hfeed]
        rw [hpending]
        simpa using hshort
  | data =>
      obtain ⟨hpending, hidle⟩ := h.data hstate
      have hquiet : push t.line.window c ≠ cmdTerminator := by
        have hcompletes := h.lineAligned.completes c
        rw [hpending] at hcompletes
        exact mt hcompletes.mp hc
      rw [(byte_data_quiet env hstate hquiet).1]
      refine ⟨rfl, ⟨fun hcmd => ?_, fun _ => ⟨by rw [hpending], hidle⟩, h.cmdAligned,
        h.lineAligned.push c⟩, fun hshort => ?_⟩
      · rw [hstate] at hcmd
        cases hcmd
      · simp only [Calm, hstate]
        rw [hpending]
        exact fun _ => by simpa using hshort

/-- The byte that ends a line. -/
theorem Reads.ended {line : Bytes} (h : t.Reads (line ++ [cr])) (env : Env) :
    (t.byte env lf).core = t.core.hear env line ∧ (t.byte env lf).Reads [] ∧
      (t.core.Argued line → t.Calm lf) := by
  have hlast : (line ++ [cr]).getLast? = some cr := List.getLast?_concat
  have hraw : line ++ [cr] ++ [lf] = line ++ crlf := by simp [crlf]
  cases hstate : t.core.state with
  | closed =>
      rw [byte_closed env hstate, Core.hear, hstate]
      refine ⟨rfl, ⟨fun hcmd => ?_, fun hdata => ?_, h.cmdAligned, h.lineAligned⟩, fun _ => ?_⟩
      · rw [hstate] at hcmd
        cases hcmd
      · rw [hstate] at hdata
        cases hdata
      · simp only [Calm, hstate]
  | cmd =>
      obtain ⟨hpending, hidle⟩ := h.cmd hstate
      have hcomplete : push t.cmd.window lf = cmdTerminator :=
        (h.cmdAligned.completes lf).mpr ⟨rfl, by rw [hpending, hlast]⟩
      obtain ⟨hbyte, -⟩ := byte_cmd_complete env hstate hcomplete
      have hfeed : t.cmdFeed lf = _ := Scan.feed_complete hcomplete
      rw [hpending, hraw, Scan.line_crlf] at hbyte hfeed
      rw [hbyte]
      refine ⟨?_, ⟨fun _ => ⟨rfl, hidle⟩, fun _ => ⟨hidle, rfl⟩, aligned_restart _, h.lineAligned⟩,
        fun argued => ?_⟩
      · rw [Core.hear, hstate]
      · simp only [Calm, hstate, hfeed]
        split
        · rename_i hnone
          split at hnone <;> cases hnone
        · trivial
        · rename_i hsome
          split at hsome
          · cases hsome
            exact ⟨fun hstale => argued hstate ⟨hstale.1, Or.inr hstale.2.1⟩,
              fun hstale => argued hstate ⟨hstale.1, Or.inl hstale.2.1⟩⟩
          · cases hsome
  | data =>
      obtain ⟨hpending, hidle⟩ := h.data hstate
      have hcomplete : push t.line.window lf = cmdTerminator :=
        (h.lineAligned.completes lf).mpr ⟨rfl, by rw [hpending, hlast]⟩
      have hbyte := byte_data_complete env hstate hcomplete
      have hfeed : t.lineFeed lf = _ := Scan.feed_complete hcomplete
      rw [hpending, hraw, Scan.line_crlf] at hbyte
      rw [hbyte]
      refine ⟨?_, ⟨fun _ => ⟨hidle, rfl⟩, fun _ => ⟨rfl, hidle⟩, h.cmdAligned, aligned_restart _⟩,
        fun _ => ?_⟩
      · rw [Core.hear, hstate]
        rfl
      · simp only [Calm, hstate, hfeed, reduceCtorEq, false_implies]

/-- The lines of the bytes have their effects, and what is behind the last of them is kept. -/
theorem Reads.bytes (env : Env) (h : t.Reads pending)
    (short : ∀ line ∈ (splitCrlf pending bs).1, line.length + 1 < 2 ^ 31)
    (last : (splitCrlf pending bs).2.length < 2 ^ 31)
    (argued : Run.Along (Core.hear env) Core.Argued t.core (splitCrlf pending bs).1) :
    Run.Along (byte env) Calm t bs ∧
      (bs.foldl (byte env) t).core = (splitCrlf pending bs).1.foldl (Core.hear env) t.core ∧
      (bs.foldl (byte env) t).Reads (splitCrlf pending bs).2 := by
  induction bs generalizing t pending with
  | nil => exact ⟨trivial, rfl, h⟩
  | cons c bs ih =>
      by_cases hc : c = lf ∧ pending.getLast? = some cr
      · obtain ⟨rfl, hcr⟩ := hc
        obtain ⟨line, rfl⟩ : ∃ line, pending = line ++ [cr] :=
          ⟨_, (List.dropLast_append_getLast? cr hcr).symm⟩
        rw [splitCrlf_complete hcr, List.dropLast_concat] at short last argued ⊢
        obtain ⟨hcore, hreads, hcalm⟩ := h.ended env
        obtain ⟨hfirst, hargued⟩ := argued
        rw [← hcore] at hargued
        obtain ⟨hrest, hcore', hreads'⟩ := ih hreads
          (fun line hline => short line (List.mem_cons_of_mem _ hline)) last hargued
        refine ⟨⟨hcalm hfirst, hrest⟩, ?_, hreads'⟩
        rw [List.foldl_cons, List.foldl_cons, hcore', hcore]
      · rw [splitCrlf_other hc] at short last argued ⊢
        obtain ⟨hcore, hreads, hcalm⟩ := h.quiet env hc
        rw [← hcore] at argued
        obtain ⟨hrest, hcore', hreads'⟩ := ih hreads short last argued
        refine ⟨⟨hcalm (splitCrlf_pending short last), hrest⟩, ?_, hreads'⟩
        rw [List.foldl_cons, hcore', hcore]

end Stream

namespace Session

/-- A session that has just greeted reads, if no window of it ends in a CR. -/
theorem exists_reads (env : Env) (mem : Memory) (cmd : mem.cmdBuffer.tCheck.getLast? ≠ some cr)
    (line : mem.lineBuffer.tCheck.getLast? ≠ some cr) :
    ∃ t, Follows (start env mem) t ∧ t.Reads [] := by
  have hcmd : Aligned ⟨mem.cmdBuffer.tCheck, []⟩ :=
    ⟨mem.cmdBuffer.tCheck_length, iff_of_false cmd (by simp)⟩
  have hline : Aligned ⟨mem.lineBuffer.tCheck, []⟩ :=
    ⟨mem.lineBuffer.tCheck_length, iff_of_false line (by simp)⟩
  refine ⟨⟨(start env mem).toCore, ⟨mem.cmdBuffer.tCheck, []⟩, ⟨mem.lineBuffer.tCheck, []⟩⟩,
    ⟨rfl, represents_empty _, represents_empty _⟩, fun _ => ⟨rfl, rfl⟩, fun _ => ⟨rfl, rfl⟩, hcmd,
    hline⟩

/-- A session that reads does what the lines of its chunks say. -/
theorem feedAll_reads {s : Session} {t : Stream} {pending : Bytes} (env : Env)
    (follows : Follows s t) (reads : t.Reads pending) {chunks : List Bytes}
    (short : ∀ line ∈ (splitCrlf pending chunks.flatten).1, line.length + 1 < 2 ^ 31)
    (last : (splitCrlf pending chunks.flatten).2.length < 2 ^ 31)
    (argued : Run.Along (Core.hear env) Core.Argued s.toCore (splitCrlf pending chunks.flatten).1) :
    (s.feedAll env chunks).toCore =
      (splitCrlf pending chunks.flatten).1.foldl (Core.hear env) s.toCore := by
  rw [follows.core] at argued
  obtain ⟨hcalm, hcore, -⟩ := reads.bytes env short last argued
  rw [(follows.feedAll env chunks hcalm).core, hcore, follows.core]

/-- The stream is heard line by line: no line is as long as an offset can count, no command MAIL or
RCPT ends with its verb, and the memory of the windows does not end in a CR. -/
structure ByLine (env : Env) (mem : Memory) (chunks : List Bytes) : Prop where
  cmd : mem.cmdBuffer.tCheck.getLast? ≠ some cr
  line : mem.lineBuffer.tCheck.getLast? ≠ some cr
  short : ∀ line ∈ (splitCrlf [] chunks.flatten).1, line.length + 1 < 2 ^ 31
  last : (splitCrlf [] chunks.flatten).2.length < 2 ^ 31
  argued : Run.Along (Core.hear env) Core.Argued (start env mem).toCore
    (splitCrlf [] chunks.flatten).1

/-- A session does what its lines say: the stream is cut at every CRLF, whatever the chunks, and
the lines have their effects one after another. -/
theorem hears_lines (env : Env) (mem : Memory) (chunks : List Bytes) (h : ByLine env mem chunks) :
    ((start env mem).feedAll env chunks).toCore =
      (splitCrlf [] chunks.flatten).1.foldl (Core.hear env) (start env mem).toCore := by
  obtain ⟨t, follows, reads⟩ := exists_reads env mem h.cmd h.line
  exact feedAll_reads env follows reads h.short h.last h.argued

/-- A message in chunks that end in the middle of a CRLF and of a line. -/
theorem hears_lines_message :
    ((start (fun _ => .ideal) .zeroed).feedAll (fun _ => .ideal)
        [text "HELO a\r\nMAIL FROM:<a@b>\r", text "\nRCPT TO:<c@d>\r\nDA", text "TA\r\n..\r\n.\r\nQU"]).toCore =
      (splitCrlf [] [text "HELO a\r\nMAIL FROM:<a@b>\r", text "\nRCPT TO:<c@d>\r\nDA",
          text "TA\r\n..\r\n.\r\nQU"].flatten).1.foldl
        (Core.hear (fun _ => .ideal)) (start (fun _ => .ideal) .zeroed).toCore :=
  hears_lines _ _ _
    ⟨by decide, by decide, by decide +kernel, by decide +kernel, by decide +kernel⟩

end Session

end Ervan.Smtp
