import Ervan.Smtp.Scanning

/-!
# What the offsets count

The offset of a buffer is an `int` that counts the bytes since the last CRLF. A run is watched
together with all that each buffer has received. As long as no line reaches `2 ^ 31` bytes
without its CRLF the offsets are exact, and a line is reported as what it is; a longer one takes
its offset out of range.
-/

namespace Ervan.Smtp

open Framing

/-- The bytes since the last CRLF, of all that a buffer with this window at first has received. -/
def since (window received : Bytes) : Bytes := (frames cmdTerminator window [] received).2

section Since

variable {window received : Bytes}

theorem since_append (window received bs : Bytes) :
    since window (received ++ bs) =
      (frames cmdTerminator (slide window received) (since window received) bs).2 := by
  rw [since, frames_append]
  rfl

theorem since_quiet {bs : Bytes} (quiet : Quiet cmdTerminator (slide window received) bs) :
    since window (received ++ bs) = since window received ++ bs := by
  rw [since_append, frames_quiet _ quiet]

theorem since_complete {pre : Bytes} {c : UInt8}
    (quiet : Quiet cmdTerminator (slide window received) pre)
    (complete : push (slide (slide window received) pre) c = cmdTerminator) :
    since window (received ++ (pre ++ [c])) = [] := by
  rw [since_append, frames_complete _ _ quiet complete]
  rfl

theorem length_since_le (window received : Bytes) :
    (since window received).length ≤ received.length := by
  induction received using List.reverseRecOn with
  | nil => exact Nat.le_refl 0
  | append_singleton received c ih =>
      rw [since_append, frames]
      split
      · exact Nat.zero_le _
      · simp only [frames, List.length_append, List.length_singleton]
        omega

end Since

/-- No byte that a buffer receives next is the `2 ^ 31`st of a line that is not over. -/
def ShortLine (window received sp : Bytes) : Prop :=
  ∀ bs, bs <+: firstFrame cmdTerminator (slide window received) sp →
    (since window (received ++ bs)).length < 2 ^ 31

/-- The offset is the number of bytes since the last CRLF, and in the range of an `int`. -/
def Counts (offset : Int) (line : Bytes) : Prop :=
  offset = line.length ∧ 0 ≤ offset ∧ offset < 2 ^ 31

/-- The line that the chunk completes is delivered with its bytes, or reported to be too long. -/
def Reports {cap : Nat} (b : Buffer cap 2) (offset : Int) (window received sp : Bytes) : Prop :=
  ∀ pre c rest, sp = pre ++ c :: rest → Quiet cmdTerminator (slide window received) pre →
    push (slide (slide window received) pre) c = cmdTerminator →
    let raw := since window received ++ pre ++ [c]
    (join b sp offset cmdTerminator).2.2 = .ofLine rest (Scan.line cap 2 raw) ∧
      ∀ line, Scan.line cap 2 raw = some line →
        (join b sp offset cmdTerminator).1.mem.read 0 line.length = line

/-- What each buffer has received. -/
structure Received where
  cmd : Bytes
  line : Bytes

namespace Received

/-- The bytes that the next step takes go to the buffer of the state. -/
def step (mem : Memory) (r : Received) : Session.Progress → Received
  | (_, []) => r
  | (s, sp :: _) =>
      match s.state with
      | .closed => r
      | .cmd => { r with
          cmd := r.cmd ++ firstFrame cmdTerminator (slide mem.cmdBuffer.tCheck r.cmd) sp }
      | .data => { r with
          line := r.line ++ firstFrame cmdTerminator (slide mem.lineBuffer.tCheck r.line) sp }

end Received

namespace Session

/-- A step of a run and of what is known about it. -/
def hear (env : Env) (mem : Memory) (x : Progress × Received) : Progress × Received :=
  (advance env x.1, x.2.step mem x.1)

/-- A run from its start. -/
def heard (env : Env) (mem : Memory) (chunks : List Bytes) : Progress × Received :=
  ((start env mem, chunks), ⟨[], []⟩)

/-- The next step leaves no line of `2 ^ 31` bytes without its CRLF in a buffer. -/
def Room (mem : Memory) (x : Progress × Received) : Prop :=
  ∀ sp ∈ x.1.2.head?,
    (x.1.1.state = .cmd → ShortLine mem.cmdBuffer.tCheck x.2.cmd sp) ∧
      (x.1.1.state = .data → ShortLine mem.lineBuffer.tCheck x.2.line sp)

/-- Both offsets are exact, and so is what the next step reports. -/
structure Exact (mem : Memory) (x : Progress × Received) : Prop where
  cmd : Counts x.1.1.cmdOffset (since mem.cmdBuffer.tCheck x.2.cmd)
  line : Counts x.1.1.lineOffset (since mem.lineBuffer.tCheck x.2.line)
  command : ∀ sp ∈ x.1.2.head?, x.1.1.state = .cmd →
    Reports x.1.1.cmdBuffer x.1.1.cmdOffset mem.cmdBuffer.tCheck x.2.cmd sp
  data : ∀ sp ∈ x.1.2.head?, x.1.1.state = .data →
    Reports x.1.1.lineBuffer x.1.1.lineOffset mem.lineBuffer.tCheck x.2.line sp

end Session

/-- A buffer that has received these bytes. The first byte of its window may be the NUL behind a
line that fills it. -/
structure Hears {cap : Nat} (b : Buffer cap 2) (offset : Int) (window received : Bytes) :
    Prop where
  length : window.length = 2
  shown : b.tCheck.tail = (slide window received).tail
  represents : Represents b offset ⟨b.tCheck, since window received⟩

namespace Hears

variable {cap : Nat} {b : Buffer cap 2} {offset : Int} {window received sp : Bytes}

theorem start (b : Buffer cap 2) : Hears b 0 b.tCheck [] :=
  ⟨b.tCheck_length, rfl, represents_empty b⟩

theorem counts (h : Hears b offset window received) : Counts offset (since window received) := by
  have hoffset := h.represents.offset
  have hsmall := h.represents.small
  exact ⟨hoffset, by omega, by omega⟩

theorem window_pos (h : Hears b offset window received) :
    0 < b.tCheck.length ∧ 0 < (slide window received).length := by
  rw [b.tCheck_length, length_slide, h.length]
  decide

theorem quiet_iff (h : Hears b offset window received) (bs : Bytes) :
    Quiet cmdTerminator (slide window received) bs ↔ Quiet cmdTerminator b.tCheck bs :=
  (quiet_congr h.shown h.window_pos.1 h.window_pos.2 bs).symm

theorem slide_eq (h : Hears b offset window received) (bs : Bytes) :
    (slide b.tCheck bs).tail = (slide window (received ++ bs)).tail := by
  rw [slide_append]
  exact slide_congr h.shown h.window_pos.1 h.window_pos.2 bs

theorem push_eq (h : Hears b offset window received) (bs : Bytes) (c : UInt8) :
    push (slide (slide window received) bs) c = push (slide b.tCheck bs) c := by
  have heq := h.slide_eq bs
  rw [slide_append] at heq
  refine push_congr heq.symm ?_ ?_ c
  · rw [length_slide]
    exact h.window_pos.2
  · rw [length_slide]
    exact h.window_pos.1

/-- A chunk without a CRLF is received to its end. -/
theorem quiet (h : Hears b offset window received)
    (quiet : Quiet cmdTerminator (slide window received) sp)
    (short : ShortLine window received sp) :
    ∃ b' offset', join b sp offset cmdTerminator = (b', offset', ⟨none, [], false⟩) ∧
      Hears b' offset' window (received ++ sp) := by
  have hsince := since_quiet quiet
  have hsmall := short sp (by rw [firstFrame_quiet quiet])
  rw [hsince, List.length_append] at hsmall
  obtain ⟨b', offset', hjoin, hnext⟩ :=
    join_quiet h.represents ((h.quiet_iff sp).mp quiet) hsmall
  refine ⟨b', offset', hjoin, h.length, ?_, ?_⟩
  · rw [hnext.window]
    exact h.slide_eq sp
  · rw [hsince, hnext.window]
    exact hnext

/-- A line is received to its CRLF. -/
theorem complete (h : Hears b offset window received) (hcap : cap < 2 ^ 62) {pre rest : Bytes}
    {c : UInt8}
    (quiet : Quiet cmdTerminator (slide window received) pre)
    (complete : push (slide (slide window received) pre) c = cmdTerminator)
    (short : ShortLine window received (pre ++ c :: rest)) :
    ∃ b', join b (pre ++ c :: rest) offset cmdTerminator =
        (b', 0, .ofLine rest (Scan.line cap 2 (since window received ++ pre ++ [c]))) ∧
      (∀ line, Scan.line cap 2 (since window received ++ pre ++ [c]) = some line →
        Delivers b' cmdTerminator line) ∧
      b'.tCheck.tail = (slide window (received ++ (pre ++ [c]))).tail := by
  have hsmall := short pre (by rw [firstFrame_complete rest quiet complete]; simp)
  rw [since_quiet quiet, List.length_append] at hsmall
  obtain ⟨b', hjoin, hline, hnext⟩ := join_complete h.represents rest ((h.quiet_iff pre).mp quiet)
    (by rw [← h.push_eq]; exact complete) hsmall (fun _ => hcap) (by decide) (by decide)
  refine ⟨b', hjoin, fun line hfits => (hline line hfits).1, ?_⟩
  have htail : (Scan.restart cap 2 cmdTerminator (since window received ++ pre ++ [c])).window.tail =
      cmdTerminator.tail := by
    unfold Scan.restart
    split
    · rfl
    · rfl
  rw [hnext.window, htail, slide_append, slide_append, slide_cons, complete, slide_nil]

theorem restart (h : Hears b offset window received) {b' : Buffer cap 2} {pre : Bytes} {c : UInt8}
    (quiet : Quiet cmdTerminator (slide window received) pre)
    (complete : push (slide (slide window received) pre) c = cmdTerminator)
    (shown : b'.tCheck.tail = (slide window (received ++ (pre ++ [c]))).tail) :
    Hears b' 0 window (received ++ (pre ++ [c])) := by
  refine ⟨h.length, shown, ?_⟩
  rw [since_complete quiet complete]
  exact represents_empty b'

theorem reports (h : Hears b offset window received) (hcap : cap < 2 ^ 62)
    (short : ShortLine window received sp) : Reports b offset window received sp := by
  rintro pre c rest rfl quiet complete
  obtain ⟨b', hjoin, hline, -⟩ := h.complete hcap quiet complete short
  rw [hjoin]
  exact ⟨rfl, fun line hfits => (hline line hfits).read⟩

end Hears

namespace Session

/-- Both buffers have received what the run is watched for. -/
structure Watched (mem : Memory) (x : Progress × Received) : Prop where
  cmd : Hears x.1.1.cmdBuffer x.1.1.cmdOffset mem.cmdBuffer.tCheck x.2.cmd
  line : Hears x.1.1.lineBuffer x.1.1.lineOffset mem.lineBuffer.tCheck x.2.line

variable {env : Env} {mem : Memory} {s : Session} {sp : Bytes} {window received : Bytes}

theorem feedCmd_hears (env : Env) (h : Hears s.cmdBuffer s.cmdOffset window received)
    (short : ShortLine window received sp) :
    Hears (s.feedCmd env sp).1.cmdBuffer (s.feedCmd env sp).1.cmdOffset window
      (received ++ firstFrame cmdTerminator (slide window received) sp) := by
  obtain ⟨hwindow, hoffset⟩ := feedCmd_window env s sp
  rcases quiet_or_first cmdTerminator (slide window received) sp with
    quiet | ⟨pre, c, rest, rfl, quiet, complete⟩
  · obtain ⟨b', offset', hjoin, hnext⟩ := h.quiet quiet short
    rw [firstFrame_quiet quiet]
    simp only [feedCmd, hjoin]
    exact hnext
  · obtain ⟨b', hjoin, -, shown⟩ := h.complete (by decide) quiet complete short
    rw [hjoin] at hwindow hoffset
    rw [firstFrame_complete rest quiet complete, hoffset]
    exact h.restart quiet complete (hwindow ▸ shown)

theorem dataTurn_hears (env : Env) (h : Hears s.lineBuffer s.lineOffset window received)
    (short : ShortLine window received sp) :
    Hears (s.dataTurn env sp).1.lineBuffer (s.dataTurn env sp).1.lineOffset window
      (received ++ firstFrame cmdTerminator (slide window received) sp) := by
  obtain ⟨hwindow, hoffset⟩ := dataTurn_window env s sp
  rcases quiet_or_first cmdTerminator (slide window received) sp with
    quiet | ⟨pre, c, rest, rfl, quiet, complete⟩
  · obtain ⟨b', offset', hjoin, hnext⟩ := h.quiet quiet short
    rw [firstFrame_quiet quiet]
    simp only [dataTurn, hjoin]
    exact hnext
  · obtain ⟨b', hjoin, -, shown⟩ := h.complete (by decide) quiet complete short
    rw [hjoin] at hwindow hoffset
    rw [firstFrame_complete rest quiet complete, hoffset]
    exact h.restart quiet complete (hwindow ▸ shown)

/-- A turn that has nothing to read changes nothing. -/
theorem advance_turn (env : Env) (s : Session) (sp : Bytes) (chunks : List Bytes) :
    (advance env (s, sp :: chunks)).1 = (s.turn env sp).1 := by
  cases sp with
  | nil =>
      unfold turn
      cases s.state <;> rfl
  | cons c sp => rfl

/-- What a step takes out of its chunk is received by one of the buffers. -/
theorem Watched.step {x : Progress × Received} (h : Watched mem x) (room : Room mem x) :
    Watched mem (hear env mem x) := by
  obtain ⟨⟨s, _ | ⟨sp, chunks⟩⟩, r⟩ := x
  · exact h
  · obtain ⟨hcmd, hline⟩ := h
    obtain ⟨roomCmd, roomLine⟩ := room sp rfl
    have hturn := advance_turn env s sp chunks
    cases hstate : s.state with
    | closed =>
        rw [turn, hstate] at hturn
        constructor <;> simp only [hear, Received.step, hturn, hstate]
        · exact hcmd
        · exact hline
    | cmd =>
        rw [turn_cmd env sp hstate] at hturn
        obtain ⟨hbuffer, hoffset⟩ := feedCmd_lineBuffer env s sp
        constructor <;> simp only [hear, Received.step, hturn, hstate]
        · exact feedCmd_hears env hcmd (roomCmd hstate)
        · rw [hbuffer, hoffset]
          exact hline
    | data =>
        rw [turn_data env sp hstate] at hturn
        obtain ⟨hbuffer, hoffset⟩ := dataTurn_cmdBuffer env s sp
        constructor <;> simp only [hear, Received.step, hturn, hstate]
        · rw [hbuffer, hoffset]
          exact hcmd
        · exact dataTurn_hears env hline (roomLine hstate)

theorem Watched.exact {x : Progress × Received} (h : Watched mem x) (room : Room mem x) :
    Exact mem x where
  cmd := h.cmd.counts
  line := h.line.counts
  command sp hsp hstate := h.cmd.reports (by decide) ((room sp hsp).1 hstate)
  data sp hsp hstate := h.line.reports (by decide) ((room sp hsp).2 hstate)

/-- As long as no line reaches `2 ^ 31` bytes without its CRLF, the offsets count the bytes since
the last one, and no long line is taken for a shorter one. -/
theorem offsets_exact (env : Env) (mem : Memory) (chunks : List Bytes)
    (room : Run.Always (hear env mem) (Room mem) (heard env mem chunks)) :
    Run.Always (hear env mem) (Exact mem) (heard env mem chunks) := by
  have hstart : Watched mem (heard env mem chunks) :=
    ⟨.start mem.cmdBuffer, .start mem.lineBuffer⟩
  have hwatched := room.invariant hstart fun _ room h => h.step room
  exact fun n => (hwatched n).exact (room n)

theorem shortLine_of_length (h : received.length + sp.length < 2 ^ 31) :
    ShortLine window received sp := by
  intro bs hbs
  have hlength := hbs.length_le
  have hframe := length_firstFrame_le cmdTerminator (slide window received) sp
  have hsince := length_since_le window (received ++ bs)
  rw [List.length_append] at hsince
  omega

/-- A short run leaves room. -/
theorem room_of_length {x : Progress × Received}
    (h : x.2.cmd.length + x.2.line.length + x.1.2.flatten.length < 2 ^ 31) : Room mem x := by
  obtain ⟨⟨s, _ | ⟨sp, chunks⟩⟩, r⟩ := x
  · intro sp hsp
    cases hsp
  · rintro sp ⟨rfl⟩
    simp only [List.flatten_cons, List.length_append] at h
    refine ⟨fun _ => shortLine_of_length ?_, fun _ => shortLine_of_length ?_⟩ <;> simp only <;>
      omega

/-- A run of one command. -/
theorem offsets_exact_noop :
    Run.Always (hear (fun _ => .ideal) .zeroed) (Exact .zeroed)
      (heard (fun _ => .ideal) .zeroed [text "NOOP\r\n"]) := by
  refine offsets_exact (fun _ => .ideal) .zeroed [text "NOOP\r\n"] ?_
  refine Run.always_of_fixed 2 rfl fun n hn => room_of_length ?_
  match n, hn with
  | 0, _ => decide +kernel
  | 1, _ => decide +kernel
  | 2, _ => decide +kernel

/-- A chunk with no end of line. -/
def endless : Bytes := List.replicate 8192 120

theorem quiet_endless {n : Nat} {x y : UInt8} :
    Quiet cmdTerminator [x, y] (List.replicate n 120) := by
  induction n generalizing x y with
  | zero => trivial
  | succ n ih => exact ⟨by rw [push_pair]; simp [cmdTerminator, text], ih⟩

theorem feedCmd_endless (env : Env) (hoffset : int32 s.cmdOffset = s.cmdOffset) :
    (s.feedCmd env endless).1.state = s.state ∧
      (s.feedCmd env endless).1.cmdOffset = int32 (s.cmdOffset + 8192) ∧
      (s.feedCmd env endless).2 = [] := by
  obtain ⟨x, y, hwindow⟩ := List.length_eq_two.mp s.cmdBuffer.tCheck_length
  have quiet : Quiet cmdTerminator s.cmdBuffer.tCheck endless := by
    rw [hwindow]
    exact quiet_endless
  have hlength : endless.length = 8192 := List.length_replicate
  obtain ⟨b, hjoin, -⟩ := join_counted quiet (by rw [hlength]; decide) hoffset
  rw [hlength] at hjoin
  simp only [feedCmd, hjoin]
  exact ⟨rfl, rfl, trivial⟩

/-- Chunks with no end of line are counted modulo `2 ^ 32`. -/
theorem endless_run (env : Env) (k : Nat) {s : Session} (hstate : s.state = .cmd)
    (hoffset : int32 s.cmdOffset = s.cmdOffset) :
    ((advance env)^[2 * k] (s, List.replicate k endless)).1.cmdOffset =
      int32 (s.cmdOffset + 8192 * k) := by
  induction k generalizing s with
  | zero => simp [hoffset]
  | succ k ih =>
      obtain ⟨hstate', hoffset', hrest⟩ := feedCmd_endless env hoffset
      have hturn : advance env (s, endless :: List.replicate k endless) =
          ((s.feedCmd env endless).1, [] :: List.replicate k endless) := by
        change ((s.turn env endless).1, (s.turn env endless).2 :: List.replicate k endless) = _
        rw [turn_cmd env endless hstate, hrest]
      rw [Nat.mul_succ, List.replicate_succ, Function.iterate_succ_apply,
        Function.iterate_succ_apply, hturn]
      refine (ih (hstate'.trans hstate) (by rw [hoffset', int32_int32])).trans ?_
      rw [hoffset', int32_int32_add]
      congr 1
      omega

theorem hear_fst (env : Env) (mem : Memory) (x : Progress × Received) (n : Nat) :
    ((hear env mem)^[n] x).1 = (advance env)^[n] x.1 := by
  induction n generalizing x with
  | zero => rfl
  | succ n ih =>
      rw [Function.iterate_succ_apply, Function.iterate_succ_apply, ih]
      rfl

/-- A line of `2 ^ 31` bytes, in 262144 chunks, takes the offset of the command buffer out of its
range. -/
theorem not_offsets_exact_endless :
    ¬ ∀ (env : Env) (mem : Memory) (chunks : List Bytes),
      Run.Always (hear env mem) (Exact mem) (heard env mem chunks) := by
  intro h
  obtain ⟨k, hk⟩ : ∃ k : Nat, (8192 * k : Int) = 2 ^ 31 := ⟨262144, by decide⟩
  have hexact := h (fun _ => .ideal) .zeroed (List.replicate k endless) (2 * k)
  have hlo := hexact.cmd.2.1
  rw [hear_fst, heard, endless_run _ k rfl rfl] at hlo
  have hstart : (start (fun _ => .ideal) .zeroed).cmdOffset = 0 := rfl
  rw [hstart, hk] at hlo
  exact absurd hlo (by decide)

end Session

end Ervan.Smtp
