import Ervan.Common.Lines
import Ervan.Common.Message
import Ervan.Common.Ram

/-!
# The lines of a stream

What a receiver gets out of a stream when it hands every chunk to `join`, and what is left
of the chunk again until nothing is left. The lines are those that CRLF ends in the whole
stream, however it was cut, and each is delivered or refused by its length alone. The
consumer may use the buffer for its own purposes once it has a line.
-/

namespace Ervan

open Framing

/-- The lines that CRLF ends, and the bytes after the last of them, when `line` has been
received before. -/
def splitCrlf (line : Bytes) : Bytes → List Bytes × Bytes
  | [] => ([], line)
  | c :: bs =>
      if c = lf ∧ line.getLast? = some cr then
        let (lines, last) := splitCrlf [] bs
        (line.dropLast :: lines, last)
      else splitCrlf (line ++ [c]) bs

/-- What one call of `join` tells the receiver. A line is shown with the byte behind it. -/
inductive Arrival
  | line (bs : Bytes) (behind : UInt8)
  | outOfRange
  deriving DecidableEq, Repr

/-- A consumer of lines, which may write to the first `cap` bytes of the buffer. -/
structure Consumer (cap : Nat) where
  write : List Arrival → Ram → Ram
  within : ∀ arrivals m, Ram.Within cap m (write arrivals m)

/-- A receiver with its buffer of `size` bytes at address 0. -/
structure Receiver where
  ram : Ram
  offset : Int := 0
  arrivals : List Arrival := []

namespace Receiver

/-- One call of `join`, and the consumer after a line. -/
def call (size : Nat) (consumer : Consumer (size - 2)) (t : Receiver) (src : Bytes) :
    Receiver × Bytes :=
  let (m, offset, result) := Ram.join size t.ram src t.offset crlf
  match result.sp with
  | some len =>
      let arrivals := t.arrivals ++ [.line (m.read 0 len) (m len)]
      (⟨consumer.write arrivals m, offset, arrivals⟩, result.rest)
  | none =>
      let arrivals := if result.ec then t.arrivals ++ [.outOfRange] else t.arrivals
      (⟨m, offset, arrivals⟩, result.rest)

/-- The calls for a chunk and its rests, `n` of them at most. -/
def calls (size : Nat) (consumer : Consumer (size - 2)) : Nat → Receiver → Bytes → Receiver
  | 0, t, _ => t
  | n + 1, t, src =>
      if src = [] then t
      else
        let (t, rest) := t.call size consumer src
        calls size consumer n t rest

/-- A chunk. Every call takes at least one byte of it. -/
def receive (size : Nat) (consumer : Consumer (size - 2)) (t : Receiver) (src : Bytes) : Receiver :=
  calls size consumer src.length t src

def receiveAll (size : Nat) (consumer : Consumer (size - 2)) (t : Receiver) (chunks : List Bytes) :
    Receiver := chunks.foldl (receive size consumer) t

end Receiver

section Splitting

variable {line bs : Bytes}

theorem splitCrlf_complete (h : line.getLast? = some cr) (bs : Bytes) :
    splitCrlf line (lf :: bs) = (line.dropLast :: (splitCrlf [] bs).1, (splitCrlf [] bs).2) := by
  rw [splitCrlf, if_pos ⟨rfl, h⟩]

theorem splitCrlf_other {c : UInt8} (h : ¬ (c = lf ∧ line.getLast? = some cr)) (bs : Bytes) :
    splitCrlf line (c :: bs) = splitCrlf (line ++ [c]) bs := by
  rw [splitCrlf, if_neg h]

theorem splitCrlf_append (line bs bs' : Bytes) :
    splitCrlf line (bs ++ bs') =
      ((splitCrlf line bs).1 ++ (splitCrlf (splitCrlf line bs).2 bs').1,
        (splitCrlf (splitCrlf line bs).2 bs').2) := by
  induction bs generalizing line with
  | nil => rfl
  | cons c bs ih =>
      by_cases hc : c = lf ∧ line.getLast? = some cr
      · obtain ⟨rfl, hline⟩ := hc
        rw [List.cons_append, splitCrlf_complete hline, splitCrlf_complete hline, ih]
        rfl
      · rw [List.cons_append, splitCrlf_other hc, splitCrlf_other hc, ih]

/-- Nothing is lost or added. -/
theorem splitCrlf_flatten (line bs : Bytes) :
    ((splitCrlf line bs).1.flatMap (· ++ crlf)) ++ (splitCrlf line bs).2 = line ++ bs := by
  induction bs generalizing line with
  | nil => simp [splitCrlf]
  | cons c bs ih =>
      by_cases hc : c = lf ∧ line.getLast? = some cr
      · obtain ⟨rfl, hline⟩ := hc
        have hlast : line = line.dropLast ++ [cr] :=
          (List.dropLast_append_getLast? cr hline).symm
        rw [splitCrlf_complete hline, List.flatMap_cons, List.append_assoc, ih, List.nil_append]
        conv_rhs => rw [hlast]
        simp [crlf]
      · rw [splitCrlf_other hc, ih, List.append_assoc]
        rfl

/-- A CRLF that ends with one more byte ends with it. -/
theorem infix_concat {c : UInt8} (clean : ¬ crlf <:+: line)
    (hc : ¬ (c = lf ∧ line.getLast? = some cr)) : ¬ crlf <:+: line ++ [c] := by
  intro h
  rcases List.infix_concat_iff.mp h with ⟨front, hfront⟩ | inner
  · have hsplit : front ++ [cr] ++ [lf] = line ++ [c] := by
      rw [← hfront]
      simp [crlf]
    obtain ⟨hline, hlast⟩ := List.append_inj' hsplit rfl
    apply hc
    rw [← hline]
    exact ⟨(List.singleton_inj.mp hlast).symm, List.getLast?_concat⟩
  · exact clean inner

/-- No line contains a CRLF. -/
theorem splitCrlf_clean (clean : ¬ crlf <:+: line) (bs : Bytes) :
    (∀ l ∈ (splitCrlf line bs).1, ¬ crlf <:+: l) ∧ ¬ crlf <:+: (splitCrlf line bs).2 := by
  induction bs generalizing line with
  | nil => exact ⟨fun l hl => absurd hl List.not_mem_nil, clean⟩
  | cons c bs ih =>
      by_cases hc : c = lf ∧ line.getLast? = some cr
      · obtain ⟨rfl, hline⟩ := hc
        obtain ⟨hlines, hlast⟩ := @ih [] (by decide)
        rw [splitCrlf_complete hline]
        refine ⟨fun l hl => ?_, hlast⟩
        rcases List.mem_cons.mp hl with rfl | hl
        · exact fun h => clean (h.trans (List.dropLast_prefix line).isInfix)
        · exact hlines l hl
      · rw [splitCrlf_other hc]
        exact ih (infix_concat clean hc)

/-- What is pending is no longer than the line it becomes, with its CR. -/
theorem splitCrlf_pending {n : Nat} (hlines : ∀ l ∈ (splitCrlf line bs).1, l.length + 1 < n)
    (hlast : (splitCrlf line bs).2.length < n) : line.length < n := by
  induction bs generalizing line with
  | nil => exact hlast
  | cons c bs ih =>
      by_cases hc : c = lf ∧ line.getLast? = some cr
      · obtain ⟨rfl, hline⟩ := hc
        rw [splitCrlf_complete hline] at hlines
        have hfirst := hlines _ List.mem_cons_self
        rw [List.length_dropLast] at hfirst
        omega
      · rw [splitCrlf_other hc] at hlines hlast
        have hmore := ih hlines hlast
        rw [List.length_append] at hmore
        omega

theorem splitCrlf_clear {line bs : Bytes} (hline : line.getLast? ≠ some cr) {l : Bytes}
    (clear : cr ∉ l) : splitCrlf line (l ++ bs) = splitCrlf (line ++ l) bs := by
  induction l generalizing line with
  | nil => rw [List.append_nil, List.nil_append]
  | cons c l ih =>
      rw [List.mem_cons, not_or] at clear
      obtain ⟨hc, clear⟩ := clear
      have hnext : (line ++ [c]).getLast? ≠ some cr := by
        rw [List.getLast?_concat]
        intro h
        exact hc (Option.some.inj h).symm
      rw [List.cons_append, splitCrlf_other (fun h => hline h.2), ih hnext clear, List.append_assoc]
      rfl

theorem splitCrlf_end (line bs : Bytes) :
    splitCrlf line (crlf ++ bs) = (line :: (splitCrlf [] bs).1, (splitCrlf [] bs).2) := by
  change splitCrlf line (cr :: lf :: bs) = _
  rw [splitCrlf_other (fun h => absurd h.1 (by decide)), splitCrlf_complete List.getLast?_concat,
    List.dropLast_concat]

/-- A line without a CR is read back. -/
theorem splitCrlf_line {l : Bytes} (clear : cr ∉ l) (bs : Bytes) :
    splitCrlf [] (l ++ crlf ++ bs) = (l :: (splitCrlf [] bs).1, (splitCrlf [] bs).2) := by
  rw [List.append_assoc, splitCrlf_clear (by simp) clear, List.nil_append, splitCrlf_end]

theorem splitCrlf_lines {lines : List Bytes} (clear : ∀ l ∈ lines, cr ∉ l) :
    splitCrlf [] (lines.flatMap (· ++ crlf)) = (lines, []) := by
  induction lines with
  | nil => rfl
  | cons l lines ih =>
      rw [List.flatMap_cons, splitCrlf_line (clear l List.mem_cons_self),
        ih fun l' hl' => clear l' (List.mem_cons_of_mem l hl')]

end Splitting

/-- The arrival of a line. -/
def Arrival.ofLine (cap : Nat) (line : Bytes) : Arrival :=
  if line.length ≤ cap then .line line nul else .outOfRange

/-- The window shows a CR exactly when the last pending byte is one. -/
structure Aligned (s : Scan) : Prop where
  window : s.window.length = 2
  last : s.window.getLast? = some cr ↔ s.pending.getLast? = some cr

section Scanning

variable {s : Scan} {src line : Bytes} {cap : Nat}

theorem Aligned.completes (h : Aligned s) (c : UInt8) :
    push s.window c = crlf ↔ c = lf ∧ s.pending.getLast? = some cr := by
  obtain ⟨x, y, hwindow⟩ := List.length_eq_two.mp h.window
  rw [← h.last, hwindow, push_pair]
  simp [crlf, and_comm]

theorem Aligned.push (h : Aligned s) (c : UInt8) :
    Aligned ⟨Framing.push s.window c, s.pending ++ [c]⟩ := by
  refine ⟨(length_push s.window c).trans h.window, ?_⟩
  rw [getLast?_push s.window c (by rw [h.window]; decide), List.getLast?_concat]

/-- Bytes that complete no CRLF are all pending. -/
theorem Aligned.quiet (h : Aligned s) (quiet : Quiet crlf s.window src) :
    splitCrlf s.pending src = ([], s.pending ++ src) ∧
      Aligned ⟨slide s.window src, s.pending ++ src⟩ := by
  induction src generalizing s with
  | nil =>
      rw [List.append_nil]
      exact ⟨rfl, h⟩
  | cons c src ih =>
      obtain ⟨hc, quiet⟩ := quiet
      rw [Ne, h.completes] at hc
      obtain ⟨hsplit, haligned⟩ := ih (h.push c) quiet
      rw [List.append_assoc] at hsplit haligned
      rw [splitCrlf_other hc]
      exact ⟨hsplit, haligned⟩

/-- The byte that completes a CRLF ends the one line that was pending with its CR. -/
theorem Aligned.ended (h : Aligned s) {pre : Bytes} {c : UInt8} (quiet : Quiet crlf s.window pre)
    (complete : Framing.push (slide s.window pre) c = crlf) :
    ∃ line, c = lf ∧ s.pending ++ pre = line ++ [cr] ∧
      splitCrlf s.pending (pre ++ [c]) = ([line], []) := by
  obtain ⟨hsplit, haligned⟩ := h.quiet quiet
  obtain ⟨rfl, hlast⟩ := (haligned.completes c).mp complete
  obtain ⟨line, hline⟩ : ∃ line, s.pending ++ pre = line ++ [cr] :=
    ⟨_, (List.dropLast_append_getLast? cr hlast).symm⟩
  refine ⟨line, rfl, hline, ?_⟩
  rw [splitCrlf_append, hsplit, splitCrlf_complete hlast, hline, List.dropLast_concat]
  rfl

/-- After a CRLF nothing is pending. -/
theorem aligned_restart (raw : Bytes) : Aligned (Scan.restart cap 2 crlf raw) := by
  simp only [Scan.restart]
  split <;> exact ⟨rfl, by decide⟩

/-- The line before a CRLF fits if its length does. -/
theorem Scan.line_crlf (cap : Nat) (line : Bytes) :
    Scan.line cap 2 (line ++ crlf) = if line.length ≤ cap then some line else none := by
  have hlength : (line ++ crlf).length = line.length + 2 := by simp [crlf]
  simp only [Scan.line, hlength, Nat.le_add_left, true_and, Nat.add_sub_cancel,
    Nat.add_le_add_iff_right, List.take_left]

end Scanning

namespace Receiver

/-- The receiver's buffer and offset are those of a scan of the stream. -/
structure Holds (cap : Nat) (t : Receiver) (s : Scan) : Prop where
  represents : Represents (t.ram.buffer cap 2) t.offset s
  aligned : Aligned s

/-- From `t` to `t'` the bytes `src` have arrived. -/
structure Received (cap : Nat) (t : Receiver) (s : Scan) (src : Bytes) (t' : Receiver) (s' : Scan) :
    Prop where
  holds : t'.Holds cap s'
  pending : s'.pending = (splitCrlf s.pending src).2
  arrivals : t'.arrivals = t.arrivals ++ (splitCrlf s.pending src).1.map (Arrival.ofLine cap)
  within : Ram.Within (cap + 2) t.ram t'.ram

section Calls

variable {cap : Nat} {consumer : Consumer cap} {t t' t'' : Receiver} {s s' s'' : Scan}
  {src src' line : Bytes}

theorem Received.nil (h : t.Holds cap s) : t.Received cap s [] t s :=
  ⟨h, rfl, (List.append_nil _).symm, Ram.Within.refl _ _⟩

theorem Received.trans (h : t.Received cap s src t' s') (h' : t'.Received cap s' src' t'' s'') :
    t.Received cap s (src ++ src') t'' s'' := by
  have hpending := h'.pending
  have harrivals := h'.arrivals
  rw [h.pending] at hpending harrivals
  refine ⟨h'.holds, ?_, ?_, h.within.trans h'.within⟩
  · rw [splitCrlf_append, hpending]
  · rw [splitCrlf_append, harrivals, h.arrivals, List.map_append, List.append_assoc]

/-- The lines of these bytes are short enough for an `int` offset. -/
def Short (line src : Bytes) : Prop :=
  (∀ l ∈ (splitCrlf line src).1, l.length + 1 < 2 ^ 31) ∧ (splitCrlf line src).2.length < 2 ^ 31

theorem Short.left {line : Bytes} (h : Short line (src ++ src')) : Short line src := by
  unfold Short at h
  rw [splitCrlf_append] at h
  refine ⟨fun l hl => h.1 l (List.mem_append_left _ hl), ?_⟩
  exact splitCrlf_pending (fun l hl => h.1 l (List.mem_append_right _ hl)) h.2

theorem Short.right {line : Bytes} (h : Short line (src ++ src')) :
    Short (splitCrlf line src).2 src' := by
  unfold Short at h
  rw [splitCrlf_append] at h
  exact ⟨fun l hl => h.1 l (List.mem_append_right _ hl), h.2⟩

/-- No CRLF, no line. -/
theorem Received.quiet {m : Ram} {offset : Int} (h : Aligned s) (quiet : Quiet crlf s.window src)
    (hnext : Represents (m.buffer cap 2) offset ⟨slide s.window src, s.pending ++ src⟩)
    (hwithin : Ram.Within (cap + 2) t.ram m) :
    t.Received cap s src ⟨m, offset, t.arrivals⟩ ⟨slide s.window src, s.pending ++ src⟩ := by
  obtain ⟨hsplit, haligned⟩ := h.quiet quiet
  refine ⟨⟨hnext, haligned⟩, ?_, ?_, hwithin⟩
  · rw [hsplit]
  · rw [hsplit]
    exact (List.append_nil _).symm

/-- A line that fits is delivered with a NUL behind it, and its consumer leaves the window. -/
theorem Received.delivered {m : Ram} (consumer : Consumer cap)
    (hsplit : splitCrlf s.pending src = ([line], [])) (hfits : line.length ≤ cap)
    (hdelivers : Delivers (m.buffer cap 2) crlf line)
    (hnext : Represents (m.buffer cap 2) 0 (Scan.restart cap 2 crlf (line ++ crlf)))
    (hwithin : Ram.Within (cap + 2) t.ram m) :
    ∃ s', t.Received cap s src
      ⟨consumer.write (t.arrivals ++ [.line (m.read 0 line.length) (m line.length)]) m, 0,
        t.arrivals ++ [.line (m.read 0 line.length) (m line.length)]⟩ s' := by
  have hread : m.read 0 line.length = line := by
    rw [← Ram.buffer_read m (show line.length ≤ cap + 2 by omega)]
    exact hdelivers.read
  have hnul : m line.length = nul := by
    rw [← Ram.buffer_mem m (show line.length < cap + 2 by omega)]
    exact hdelivers.nul
  rw [hread, hnul]
  have hwrite := consumer.within (t.arrivals ++ [.line line nul]) m
  have hwindow : ((consumer.write (t.arrivals ++ [.line line nul]) m).buffer cap 2).tCheck =
      (Scan.restart cap 2 crlf (line ++ crlf)).window :=
    hwrite.tCheck.trans hnext.window
  refine ⟨_, ⟨represents_empty _, ?_⟩, ?_, ?_, hwithin.trans (hwrite.mono (by omega))⟩
  · rw [hwindow]
    exact aligned_restart (line ++ crlf)
  · rw [hsplit]
  · rw [hsplit, List.map_singleton, Arrival.ofLine, if_pos hfits]

/-- A line that does not fit is refused. -/
theorem Received.refused {m : Ram} (hsplit : splitCrlf s.pending src = ([line], []))
    (hlong : ¬ line.length ≤ cap)
    (hnext : Represents (m.buffer cap 2) 0 (Scan.restart cap 2 crlf (line ++ crlf)))
    (hwithin : Ram.Within (cap + 2) t.ram m) :
    ∃ s', t.Received cap s src ⟨m, 0, t.arrivals ++ [.outOfRange]⟩ s' := by
  refine ⟨_, ⟨hnext, aligned_restart _⟩, ?_, ?_, hwithin⟩
  · rw [hsplit]
    rfl
  · rw [hsplit, List.map_singleton, Arrival.ofLine, if_neg hlong]

/-- One call takes the bytes up to the first CRLF, or all of them. -/
theorem call_received (consumer : Consumer cap) (h : t.Holds cap s) (hsrc : src ≠ [])
    (short : Short s.pending src) :
    ∃ taken s', taken ≠ [] ∧ src = taken ++ (t.call (cap + 2) consumer src).2 ∧
      t.Received cap s taken (t.call (cap + 2) consumer src).1 s' := by
  have hsmall := h.represents.small
  have hjoined : Ram.Within (cap + 2) t.ram (Ram.join (cap + 2) t.ram src t.offset crlf).1 ∧
      ((Ram.join (cap + 2) t.ram src t.offset crlf).1.buffer cap 2,
        (Ram.join (cap + 2) t.ram src t.offset crlf).2) =
          join (t.ram.buffer cap 2) src t.offset crlf := by
    have hterminator : crlf ≠ [] := by decide
    have hlarge : s.pending.length < 2 ^ 64 := by omega
    rw [h.represents.offset]
    exact Ram.join_buffer hterminator t.ram src hlarge
  unfold call
  generalize Ram.join (cap + 2) t.ram src t.offset crlf = r at hjoined ⊢
  obtain ⟨m, offset, result⟩ := r
  obtain ⟨hwithin, hjoin⟩ := hjoined
  rcases quiet_or_first crlf s.window src with quiet | ⟨pre, c, rest, rfl, quiet, complete⟩
  · have hlength := short.2
    rw [(h.aligned.quiet quiet).1, List.length_append] at hlength
    obtain ⟨b, offset', heq, hnext⟩ := join_quiet h.represents quiet hlength
    rw [heq] at hjoin
    cases hjoin
    exact ⟨src, _, hsrc, (List.append_nil src).symm, .quiet h.aligned quiet hnext hwithin⟩
  · obtain ⟨line, rfl, hline, hsplit⟩ := h.aligned.ended quiet complete
    have hraw : s.pending ++ pre ++ [lf] = line ++ crlf := by
      rw [hline, List.append_assoc]
      rfl
    have hlength : s.pending.length + pre.length = line.length + 1 := by
      rw [← List.length_append, hline, List.length_append, List.length_singleton]
    have hshort : line.length + 1 < 2 ^ 31 := by
      rw [List.append_cons] at short
      have htook := short.left.1
      rw [hsplit] at htook
      exact htook line (List.mem_singleton_self line)
    obtain ⟨b, heq, hdelivers, hnext⟩ := join_complete h.represents rest quiet complete
      (by omega) (fun hfew => by omega) (by decide) (by decide)
    rw [hraw] at heq hdelivers hnext
    rw [Scan.line_crlf] at heq hdelivers
    rw [heq] at hjoin
    by_cases hfits : line.length ≤ cap
    · rw [if_pos hfits] at hjoin hdelivers
      cases hjoin
      obtain ⟨s', hreceived⟩ :=
        Received.delivered consumer hsplit hfits (hdelivers line rfl).1 hnext hwithin
      exact ⟨pre ++ [lf], s', by simp, by simp [JoinResult.ofLine], hreceived⟩
    · rw [if_neg hfits] at hjoin
      cases hjoin
      obtain ⟨s', hreceived⟩ := Received.refused hsplit hfits hnext hwithin
      exact ⟨pre ++ [lf], s', by simp, by simp [JoinResult.ofLine], hreceived⟩

theorem calls_received (consumer : Consumer cap) {n : Nat} (h : t.Holds cap s)
    (hn : src.length ≤ n) (short : Short s.pending src) :
    ∃ s', t.Received cap s src (calls (cap + 2) consumer n t src) s' := by
  induction n generalizing t s src with
  | zero =>
      rw [List.length_eq_zero_iff.mp (Nat.le_zero.mp hn)]
      exact ⟨s, .nil h⟩
  | succ n ih =>
      rw [calls]
      by_cases hsrc : src = []
      · rw [if_pos hsrc, hsrc]
        exact ⟨s, .nil h⟩
      · rw [if_neg hsrc]
        obtain ⟨taken, s', htaken, heq, hcall⟩ := call_received consumer h hsrc short
        rw [heq] at hn short
        have hpos : 0 < taken.length := List.length_pos_iff.mpr htaken
        rw [List.length_append] at hn
        have hrest := short.right
        rw [← hcall.pending] at hrest
        obtain ⟨s'', hcalls⟩ := ih hcall.holds (by omega) hrest
        have htogether := hcall.trans hcalls
        rw [← heq] at htogether
        exact ⟨s'', htogether⟩

theorem receiveAll_received (consumer : Consumer cap) (chunks : List Bytes) (h : t.Holds cap s)
    (short : Short s.pending chunks.flatten) :
    ∃ s', t.Received cap s chunks.flatten (receiveAll (cap + 2) consumer t chunks) s' := by
  induction chunks generalizing t s with
  | nil => exact ⟨s, .nil h⟩
  | cons src chunks ih =>
      rw [List.flatten_cons] at short ⊢
      obtain ⟨s', hfirst⟩ := calls_received consumer h (Nat.le_refl _) short.left
      have hrest := short.right
      rw [← hfirst.pending] at hrest
      obtain ⟨s'', hchunks⟩ := ih hfirst.holds hrest
      exact ⟨s'', hfirst.trans hchunks⟩

end Calls

/-- A receiver at the start of a line. -/
theorem holds_start {cap : Nat} (m : Ram) (start : m (cap + 1) ≠ cr) :
    Holds cap ⟨m, 0, []⟩ ⟨(m.buffer cap 2).tCheck, []⟩ := by
  refine ⟨represents_empty _, (m.buffer cap 2).tCheck_length, ?_⟩
  have hlast : (m.buffer cap 2).tCheck.getLast? = some (m (cap + 1)) := rfl
  rw [hlast, Option.some_inj]
  exact iff_of_false start fun h => by cases h

/-- A receiver whose buffer does not show a CR first gets exactly the lines of the stream: those
that fit as they are and with a NUL behind them, and for every other one the error. It writes
inside its buffer only, and its offset is the length of what is left. -/
theorem join_frames {size : Nat} (hsize : 2 < size) (m : Ram) (start : m (size - 1) ≠ cr)
    (consumer : Consumer (size - 2)) (chunks : List Bytes)
    (hlines : ∀ line ∈ (splitCrlf [] chunks.flatten).1, line.length < 2 ^ 31 - 2)
    (hlast : (splitCrlf [] chunks.flatten).2.length < 2 ^ 31 - 2) :
    (receiveAll size consumer ⟨m, 0, []⟩ chunks).arrivals =
        (splitCrlf [] chunks.flatten).1.map (Arrival.ofLine (size - 2)) ∧
      (receiveAll size consumer ⟨m, 0, []⟩ chunks).offset =
        (splitCrlf [] chunks.flatten).2.length ∧
      Ram.Within size m (receiveAll size consumer ⟨m, 0, []⟩ chunks).ram := by
  obtain ⟨cap, rfl⟩ : ∃ cap, size = cap + 2 := ⟨size - 2, by omega⟩
  have hstart : m (cap + 1) ≠ cr := by
    have heq : ((cap + 2 : Nat) : Int) - 1 = cap + 1 := by omega
    rwa [heq] at start
  have short : Short [] chunks.flatten :=
    ⟨fun l hl => Nat.lt_trans (Nat.succ_lt_succ (hlines l hl)) (by decide),
      Nat.lt_trans hlast (by decide)⟩
  obtain ⟨s, hreceived⟩ := receiveAll_received consumer chunks (holds_start m hstart) short
  refine ⟨hreceived.arrivals, ?_, hreceived.within⟩
  rw [← hreceived.pending]
  exact hreceived.holds.represents.offset

/-- A consumer that clears the first byte of every line it gets. -/
def clearing {cap : Nat} (hcap : 0 < cap) : Consumer cap :=
  ⟨fun _ m => m.store 0 nul,
    fun _ m => m.store_within (Int.le_refl 0) (Int.natCast_pos.mpr hcap) nul⟩

/-- A line that fills the buffer, with its CRLF cut in two, a longer one and an unfinished one. -/
theorem join_frames_eight :
    (receiveAll 8 (clearing (by decide)) ⟨fun _ => 0, 0, []⟩
        [text "abcdef\r", text "\nabcdefg\r\nx"]).arrivals =
        [.line (text "abcdef") nul, .outOfRange] ∧
      (receiveAll 8 (clearing (by decide)) ⟨fun _ => 0, 0, []⟩
        [text "abcdef\r", text "\nabcdefg\r\nx"]).offset = 1 ∧
      Ram.Within 8 (fun _ => 0) (receiveAll 8 (clearing (by decide)) ⟨fun _ => 0, 0, []⟩
        [text "abcdef\r", text "\nabcdefg\r\nx"]).ram := by
  have h := join_frames (show 2 < 8 by decide) (fun _ => 0) (by decide) (clearing (by decide))
    [text "abcdef\r", text "\nabcdefg\r\nx"] (by decide) (by decide)
  exact ⟨h.1.trans (by decide), h.2.1.trans (by decide), h.2.2⟩

end Receiver

end Ervan
