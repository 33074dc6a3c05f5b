import Ervan.Smtp.DataPhase

/-!
# The end of the data

The data phase is meant to end at a line that is a dot. It ends at a line that is a dot
for a C string function: a NUL hides what follows it. And on memory that happens to end
in a CR, a LF that comes first is lost.
-/

namespace Ervan.Smtp

open Framing

/-- The line without a LF that the match window takes for the end of a line. -/
def seen (window line : Bytes) : Bytes :=
  if window.getLast? = some cr ∧ line.head? = some lf then line.tail else line

/-- The line ends the data of a session whose match window is this. -/
def Ends (window line : Bytes) : Prop :=
  EndsData (seen window line) ∧ (seen window line).length ≤ 1022

instance (window line : Bytes) : Decidable (Ends window line) := inferInstanceAs (Decidable (_ ∧ _))

/-- Up to the first dot no line ends the data. -/
def DotOnly : Bytes → List Bytes → Prop
  | _, [] => True
  | window, line :: lines => line = text "." ∨ (¬ Ends window line ∧ DotOnly crlf lines)

instance DotOnly.decidable : (window : Bytes) → (lines : List Bytes) →
    Decidable (DotOnly window lines)
  | _, [] => isTrue trivial
  | _, _ :: lines =>
      have := DotOnly.decidable crlf lines
      inferInstanceAs (Decidable (_ ∨ (_ ∧ _)))

theorem ends_dot (window : Bytes) : Ends window (text ".") := by
  have hseen : seen window (text ".") = text "." := if_neg fun h => absurd h.2 (by decide)
  rw [Ends, hseen]
  decide

theorem ends_congr {window window' : Bytes} (h : window.getLast? = window'.getLast?)
    (line : Bytes) : Ends window line ↔ Ends window' line := by
  simp only [Ends, seen, h]

/-- The window after some lines, as far as it matters to the next one. -/
def windowAfter (window : Bytes) (lines : List Bytes) : Bytes :=
  if lines = [] then window else crlf

theorem dotOnly_append {window : Bytes} {pre : List Bytes} (rest : List Bytes)
    (nodot : text "." ∉ pre) :
    DotOnly window (pre ++ rest) ↔
      DotOnly window pre ∧ DotOnly (windowAfter window pre) rest := by
  induction pre generalizing window with
  | nil => simp [DotOnly, windowAfter]
  | cons line pre ih =>
      rw [List.mem_cons, not_or] at nodot
      have hafter : windowAfter crlf pre = crlf := by
        unfold windowAfter
        split <;> rfl
      simp only [List.cons_append, DotOnly, ih nodot.2, hafter, Ne.symm nodot.1, false_or]
      exact and_assoc.symm

theorem dotOnly_congr {window window' : Bytes} (h : window.getLast? = window'.getLast?)
    (lines : List Bytes) : DotOnly window lines ↔ DotOnly window' lines := by
  cases lines with
  | nil => exact Iff.rfl
  | cons line lines => simp only [DotOnly, ends_congr h]

namespace Stream

variable {env : Env} {t : Stream} {line : Bytes}

/-- What one line leaves behind. -/
structure LineRead (env : Env) (t : Stream) (line : Bytes) (t' : Stream) : Prop where
  bytes : (line ++ crlf).foldl (byte env) t = t'
  calm : Run.Along (byte env) Calm t (line ++ crlf)
  state : t'.core.state = .data ↔ ¬ Ends t.line.window line
  pending : t'.line.pending = []
  window : t'.line.window.length = 2
  last : t'.line.window.getLast? = some lf

theorem lineRead_clean (env : Env) (h : t.AtLine) (clean : ¬ crlf <:+: line)
    (start : t.line.window.getLast? = some cr → line.head? ≠ some lf)
    (short : line.length + 1 < 2 ^ 31) : ∃ t', LineRead env t line t' := by
  obtain ⟨hwindow, hlast⟩ := restart_window (line ++ crlf)
  refine ⟨_, bytes_line h clean start, calm_line h clean start short, ?_, ?_, hwindow, hlast⟩
  · have hseen : seen t.line.window line = line := if_neg fun hlf => start hlf.1 hlf.2
    rw [Core.received_state h.state, Ends, hseen]
  · simp [Scan.restart]

/-- A LF that the window takes for the end of a line is an empty line too short to be one. -/
theorem byte_stray (env : Env) (h : t.AtLine) (hlast : t.line.window.getLast? = some cr) :
    t.byte env lf = { t with
      core := { t.core with lineTooLong := true }
      line := Scan.restart 1022 2 cmdTerminator [lf] } ∧ t.Calm lf := by
  obtain ⟨x, y, hwindow⟩ := List.length_eq_two.mp h.window
  have hy : y = cr := by
    rw [hwindow] at hlast
    exact Option.some.inj hlast
  have hcomplete : push t.line.window lf = cmdTerminator := by
    rw [hwindow, hy]
    rfl
  have hfeed : t.lineFeed lf = _ := Scan.feed_complete hcomplete
  refine ⟨?_, ?_⟩
  · rw [byte_data_complete env h.state hcomplete, h.pending]
    rfl
  · simp only [Calm, h.state, hfeed, reduceCtorEq, false_implies]

theorem lineRead (env : Env) (h : t.AtLine) (clean : ¬ crlf <:+: line)
    (short : line.length + 1 < 2 ^ 31) : ∃ t', LineRead env t line t' := by
  by_cases hstray : t.line.window.getLast? = some cr ∧ line.head? = some lf
  · obtain ⟨rest, rfl⟩ : ∃ rest, line = lf :: rest := by
      cases line with
      | nil => cases hstray.2
      | cons c rest => exact ⟨rest, by rw [Option.some.inj hstray.2]⟩
    obtain ⟨hbyte, hcalm⟩ := byte_stray env h hstray.1
    obtain ⟨hwindow, hlast⟩ := restart_window [lf]
    have hline : (t.byte env lf).AtLine := by
      rw [hbyte]
      exact ⟨h.state, by simp [Scan.restart], hwindow⟩
    have hlast' : (t.byte env lf).line.window.getLast? = some lf := by rw [hbyte]; exact hlast
    obtain ⟨t', hread⟩ := lineRead_clean env hline
      (fun hrest => clean (hrest.trans (List.suffix_cons lf rest).isInfix))
      (fun hcr => absurd (hlast'.symm.trans hcr) (by decide))
      (Nat.lt_of_succ_lt short)
    refine ⟨t', hread.bytes, ⟨hcalm, hread.calm⟩, ?_, hread.pending, hread.window, hread.last⟩
    have hseen : seen t.line.window (lf :: rest) = seen (t.byte env lf).line.window rest := by
      rw [seen, if_pos hstray, seen, hlast', if_neg fun hcr => absurd hcr.1 (by decide)]
      rfl
    rw [hread.state, Ends, Ends, hseen]
  · exact lineRead_clean env h clean (fun hcr hlf => hstray ⟨hcr, hlf⟩) short

/-- Lines that are no dots and do not end the data. -/
theorem linesRead (env : Env) (h : t.AtLine) {lines : List Bytes}
    (clean : ∀ line ∈ lines, ¬ crlf <:+: line ∧ line.length + 1 < 2 ^ 31)
    (only : DotOnly t.line.window lines) (nodot : text "." ∉ lines) :
    Run.Along (byte env) Calm t (terminated lines) ∧
      ((terminated lines).foldl (byte env) t).AtLine ∧
      ((terminated lines).foldl (byte env) t).line.window.getLast? =
        (windowAfter t.line.window lines).getLast? := by
  induction lines generalizing t with
  | nil => exact ⟨trivial, h, rfl⟩
  | cons line lines ih =>
      rw [List.mem_cons, not_or] at nodot
      obtain ⟨hclean, hshort⟩ := clean line List.mem_cons_self
      obtain ⟨t', hread⟩ := lineRead env h hclean hshort
      obtain ⟨hends, honly⟩ := only.resolve_left (Ne.symm nodot.1)
      obtain ⟨hcalm, hline, hwindow⟩ := ih (t := t')
        ⟨hread.state.mpr hends, hread.pending, hread.window⟩
        (fun line hline => clean line (List.mem_cons_of_mem _ hline))
        ((dotOnly_congr hread.last lines).mpr honly) nodot.2
      have hbytes : (terminated (line :: lines)).foldl (byte env) t =
          (terminated lines).foldl (byte env) t' := by
        rw [terminated, List.flatMap_cons, List.foldl_append, hread.bytes]
        rfl
      rw [hbytes]
      refine ⟨?_, hline, ?_⟩
      · rw [terminated, List.flatMap_cons, Run.along_append, hread.bytes]
        exact ⟨hread.calm, hcalm⟩
      · rw [hwindow]
        unfold windowAfter
        rw [if_neg (List.cons_ne_nil line lines)]
        split
        · exact hread.last
        · rfl

end Stream

namespace Session

variable {env : Env} {s : Session}

/-- Until the first dot, the data phase ends at a line if and only if it is a dot. -/
def EndsAtDot (env : Env) (s : Session) (lines : List Bytes) : Prop :=
  ∀ pre line post, lines = pre ++ line :: post → text "." ∉ pre →
    ∀ chunks : List Bytes, chunks.flatten = terminated (pre ++ [line]) →
      ((s.feedAll env chunks).state ≠ .data ↔ line = text ".")

/-- The state after one more line, while the data phase lasts. -/
theorem feedAll_line {t : Stream} (follows : Follows s t) (h : t.AtLine) {pre : List Bytes}
    {line : Bytes} (clean : ∀ line' ∈ pre ++ [line], ¬ crlf <:+: line' ∧ line'.length + 1 < 2 ^ 31)
    (only : DotOnly t.line.window pre) (nodot : text "." ∉ pre) {chunks : List Bytes}
    (hchunks : chunks.flatten = terminated (pre ++ [line])) :
    (s.feedAll env chunks).state ≠ .data ↔ Ends (windowAfter t.line.window pre) line := by
  obtain ⟨hcalm, hline, hwindow⟩ := Stream.linesRead env h
    (fun line hline => clean line (List.mem_append_left _ hline)) only nodot
  obtain ⟨hclean, hshort⟩ := clean line (by simp)
  obtain ⟨t', hread⟩ := Stream.lineRead env hline hclean hshort
  have hbytes : terminated (pre ++ [line]) = terminated pre ++ (line ++ crlf) := by
    simp [terminated]
  have hfollows := follows.feedAll env chunks (by
    rw [hchunks, hbytes, Run.along_append]
    exact ⟨hcalm, hread.calm⟩)
  rw [hchunks, hbytes, List.foldl_append, hread.bytes] at hfollows
  rw [hfollows.core, ne_eq, hread.state, not_not, ends_congr hwindow]

/-- In every run, between any two lines of the data phase: the phase ends exactly at the
first dot if and only if no line before it starts with a dot and a NUL and fits the line
buffer, where a first line may also lose its LF to a match window that ends in a CR. -/
theorem ends_at_dot (env : Env) (mem : Memory) (before lines : List Bytes)
    (hstate : ((start env mem).feedAll env before).state = .data)
    (hoffset : ((start env mem).feedAll env before).lineOffset = 0)
    (clean : ∀ line ∈ lines, ¬ crlf <:+: line ∧ line.length + 1 < 2 ^ 31) :
    EndsAtDot env ((start env mem).feedAll env before) lines ↔
      DotOnly ((start env mem).feedAll env before).lineBuffer.tCheck lines := by
  have hsettled := settled_feedAll env mem before
  generalize (start env mem).feedAll env before = s at hstate hoffset hsettled ⊢
  obtain ⟨t, follows, h, hwindow⟩ := follows_atLine hstate (hsettled.cmd hstate) hoffset
  rw [← hwindow]
  constructor
  · intro hends
    have honly : ∀ pre : List Bytes, pre <+: lines → text "." ∉ pre → DotOnly t.line.window pre := by
      intro pre
      induction pre using List.reverseRecOn with
      | nil => exact fun _ _ => trivial
      | append_singleton pre line ih =>
          rintro ⟨post, rfl⟩ nodot
          rw [List.mem_append, not_or] at nodot
          have hpre := ih ⟨line :: post, by simp⟩ nodot.1
          refine (dotOnly_append [line] nodot.1).mpr ⟨hpre, Or.inr ⟨fun hline => ?_, trivial⟩⟩
          have hdot := (hends pre line post (by simp) nodot.1 [terminated (pre ++ [line])]
            (by simp)).mp ((feedAll_line follows h (fun line' hline' =>
              clean line' (List.mem_append_left _ hline')) hpre nodot.1 (by simp)).mpr hline)
          exact nodot.2 (by rw [hdot]; simp)
    by_cases hdot : text "." ∈ lines
    · obtain ⟨pre, post, heq, nodot⟩ := List.eq_append_cons_of_mem hdot
      rw [heq]
      exact (dotOnly_append _ nodot).mpr
        ⟨honly pre ⟨text "." :: post, heq.symm⟩ nodot, Or.inl rfl⟩
    · exact honly lines List.prefix_rfl hdot
  · rintro honly pre line post rfl nodot chunks hchunks
    obtain ⟨hpre, hline⟩ := (dotOnly_append (line :: post) nodot).mp honly
    rw [feedAll_line follows h (fun line' hline' => clean line' ?_) hpre nodot hchunks]
    · constructor
      · exact fun hends => hline.resolve_right fun h => h.1 hends
      · rintro rfl
        exact ends_dot _
    · rw [← List.singleton_append, ← List.append_assoc]
      exact List.mem_append_left _ hline'

/-- A line that starts with a dot does not end the data. -/
theorem ends_at_dot_two :
    EndsAtDot (fun _ => .ideal)
      ((start (fun _ => .ideal) .zeroed).feedAll (fun _ => .ideal) [upToData, text "DATA\r\n"])
      [text ".x", text "."] :=
  (ends_at_dot (fun _ => .ideal) .zeroed [upToData, text "DATA\r\n"] [text ".x", text "."]
    (by decide +kernel) (by decide +kernel) (by decide)).mpr (by decide +kernel)

/-- A dot, a NUL and anything else end the data. -/
theorem not_ends_at_dot_nul :
    ¬ ∀ (env : Env) (mem : Memory) (before lines : List Bytes),
      ((start env mem).feedAll env before).state = .data →
      ((start env mem).feedAll env before).lineOffset = 0 →
      (∀ line ∈ lines, ¬ crlf <:+: line) →
      EndsAtDot env ((start env mem).feedAll env before) lines := by
  intro h
  have hends := h (fun _ => .ideal) .zeroed [upToData, text "DATA\r\n"] [[46, 0, 120]]
    (by decide +kernel) (by decide +kernel) (by decide) [] [46, 0, 120] [] rfl (by simp) [[46, 0, 120] ++ crlf] rfl
  revert hends
  decide +kernel

end Session

end Ervan.Smtp
