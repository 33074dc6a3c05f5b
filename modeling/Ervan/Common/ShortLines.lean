import Ervan.Common.Folding

/-!
# The length of header lines

From the second line on the writer knows how long a line is. On the first line it is off by the
colon and by what was in memory, and as long as its count stays between zero and the preferred
length, it does not fold.
-/

namespace Ervan.Rfc5322

open Filling

/-- Every physical line has the preferred length at most. -/
def Short (lineLength : Int) (name : Bytes) (parts : List Part) : Prop :=
  ∀ line ∈ (splitCrlf [] (Writer.header prefferedLineLength lineLength name parts)).1,
    line.length ≤ prefferedLineLength

/-- What the name leaves on the first line. -/
def lastLine (name : Bytes) : Bytes := (splitCrlf [] (cString name)).2

/-- The first parts are too long for the first line, and yet the count that starts with
`lineLength` and leaves out the colon is in range from the first of them to the last. -/
structure Overlong (lineLength : Int) (name : Bytes) (parts pre : List Part) : Prop where
  of_parts : pre <+: parts
  ne : pre ≠ []
  long : prefferedLineLength < (lastLine name).length + 1 + (render pre).length
  counted : lineLength + (cString name).length + (render pre).length ≤ prefferedLineLength
  started : 0 ≤ lineLength + (cString name).length + (render (pre.take 1)).length

/-- How the length of a line would be counted without limits of the machine. -/
def measuring : Filler Int Part where
  Fits n p := 0 ≤ n + p.width ∧ n + p.width ≤ prefferedLineLength
  next n p := n + p.width
  fresh p := 1 + p.bytes.length

instance (n : Int) (p : Part) : Decidable (measuring.Fits n p) :=
  inferInstanceAs (Decidable (_ ∧ _))

section Count

variable {n : Int} {parts : List Part}

theorem foldl_next (n : Int) (parts : List Part) :
    parts.foldl measuring.next n = n + (render parts).length := by
  induction parts generalizing n with
  | nil => exact (Int.add_zero n).symm
  | cons p parts ih =>
      have hrender : render (p :: parts) = p.rendered ++ render parts := List.flatMap_cons
      rw [List.foldl_cons, ih, hrender, List.length_append]
      change n + p.width + _ = _
      rw [Part.width]
      omega

theorem int32_eq {x : Int} (hlo : -2 ^ 31 ≤ x) (hhi : x < 2 ^ 31) : int32 x = x := by
  unfold int32
  rw [Int.bmod_eq_of_le] <;> omega

theorem int32_add (x y : Int) : int32 (int32 x + y) = int32 (x + y) := Int.bmod_add_bmod

/-- An `int` past its range is negative. -/
theorem int32_past {x : Int} (hlo : 2 ^ 31 ≤ x) (hhi : x < 2 ^ 32) : int32 x = x - 2 ^ 32 := by
  unfold int32
  rw [Int.bmod_def]
  split <;> omega

/-- No part makes up for an `int` past its range. -/
theorem fits_iff (hlo : -2 ^ 31 ≤ n) (hhi : n < 2 ^ 31 + 78) {p : Part}
    (hp : p.bytes.length ≤ 77) :
    (counting prefferedLineLength).Fits (int32 n) p ↔ measuring.Fits n p := by
  have hspace :
      (0 : Int) ≤ (if p.space then 1 else 0) ∧ (if p.space then 1 else 0) ≤ (1 : Int) := by
    split <;> decide
  have hwidth : (p.width : Int) = (if p.space then 1 else 0) + p.bytes.length := by
    rw [width_eq]
    split <;> simp
  change sizeT (int32 (int32 n + _) + _) ≤ prefferedLineLength ↔
    0 ≤ n + p.width ∧ n + p.width ≤ prefferedLineLength
  rw [int32_add, hwidth, ← Int.add_assoc]
  generalize (if p.space then (1 : Int) else 0) = gap at hspace ⊢
  unfold prefferedLineLength sizeT
  by_cases hpast : n + gap < 2 ^ 31
  · rw [int32_eq (by omega) hpast]
    omega
  · rw [int32_past (by omega) (by omega)]
    omega

/-- The writer fills the lines as they would be filled without limits of the machine. -/
theorem fill_measuring {lineLength : Int} (hlo : -2 ^ 31 ≤ lineLength)
    (hhi : lineLength < 2 ^ 31) {name : Bytes} (hname : (cString name).length ≤ 77)
    (hparts : ∀ p ∈ parts, p.bytes.length ≤ 77) :
    fill (counting prefferedLineLength) (int32 (lineLength + (cString name).length)) parts =
      fill measuring (lineLength + (cString name).length) parts := by
  apply fill_congr (R := fun s n => s = int32 n ∧ -2 ^ 31 ≤ n ∧ n < 2 ^ 31 + 78)
  · rintro s n p hp ⟨rfl, hlo, hhi⟩
    exact fits_iff hlo hhi (hparts p hp)
  · rintro s n p hp ⟨rfl, hlo, hhi⟩ hfits
    obtain ⟨hlo', hhi'⟩ : 0 ≤ n + p.width ∧ n + p.width ≤ prefferedLineLength := hfits
    unfold prefferedLineLength at hhi'
    refine ⟨int32_add n p.width, ?_, ?_⟩
    · change -2 ^ 31 ≤ n + p.width
      omega
    · change n + p.width < 2 ^ 31 + 78
      omega
  · intro p hp
    have hlength := hparts p hp
    refine ⟨by simp only [counting, measuring], ?_, ?_⟩
    · change -2 ^ 31 ≤ 1 + (p.bytes.length : Int)
      omega
    · change 1 + (p.bytes.length : Int) < 2 ^ 31 + 78
      omega
  · exact ⟨rfl, by omega, by omega⟩

end Count

section Lines

variable {name : Bytes} {parts : List Part} {lineLength : Int}

/-- The physical lines of a header. -/
theorem header_split (lineLength : Int) (name : Bytes) (hparts : ∀ p ∈ parts, cr ∉ p.bytes) :
    let filled := fill (counting prefferedLineLength)
      (int32 (lineLength + (cString name).length)) parts
    (splitCrlf [] (Writer.header prefferedLineLength lineLength name parts)).1 =
      (splitCrlf [] (cString name)).1 ++
        (lastLine name ++ text ":" ++ render filled.first) :: filled.lines.map body := by
  intro filled
  obtain ⟨hfirst, hlines⟩ := filled_clear hparts (F := counting prefferedLineLength)
    (int32 (lineLength + (cString name).length))
  have hbodies : ∀ l ∈ filled.lines.map body, cr ∉ l := by
    intro l hl
    obtain ⟨line, hline, rfl⟩ := List.mem_map.mp hl
    have htab : cr ∉ text "\t" := by decide
    rw [body, List.mem_append, List.mem_append, not_or, not_or]
    exact ⟨⟨htab, (hlines line hline).1⟩, (hlines line hline).2⟩
  have hflat : filled.lines.flatMap (body · ++ crlf) =
      (filled.lines.map body).flatMap (· ++ crlf) := by
    rw [List.flatMap_map]
  have hcolon : text ":" = [58] := rfl
  have hlast : (lastLine name ++ [58]).getLast? ≠ some cr := by
    rw [List.getLast?_concat]
    decide
  rw [header_lines, splitCrlf_append, hflat, hcolon, List.singleton_append,
    splitCrlf_other (fun h => absurd h.1 (by decide)), ← lastLine, splitCrlf_clear hlast hfirst,
    splitCrlf_end, splitCrlf_lines hbodies]

/-- No line of a text is longer than the text. -/
theorem length_splitCrlf (bs : Bytes) :
    (∀ line ∈ (splitCrlf [] bs).1, line.length ≤ bs.length) ∧
      (splitCrlf [] bs).2.length ≤ bs.length := by
  have hflatten := splitCrlf_flatten [] bs
  rw [List.nil_append] at hflatten
  constructor
  · intro line hline
    obtain ⟨front, back, hsplit⟩ := List.append_of_mem hline
    rw [hsplit] at hflatten
    have hlength := congrArg List.length hflatten
    simp only [List.flatMap_append, List.flatMap_cons, List.length_append] at hlength
    omega
  · have hlength := congrArg List.length hflatten
    rw [List.length_append] at hlength
    omega

theorem render_prefix {pre : List Part} (h : pre <+: parts) :
    (render pre).length ≤ (render parts).length := by
  obtain ⟨post, rfl⟩ := h
  rw [render, render, List.flatMap_append, List.length_append]
  exact Nat.le_add_right _ _

/-- No line is filled past the preferred length. -/
theorem measured {n : Int} (hparts : ∀ p ∈ parts, p.bytes.length ≤ 77) :
    ((fill measuring n parts).first ≠ [] →
      n + (render (fill measuring n parts).first).length ≤ prefferedLineLength) ∧
        ∀ line ∈ (fill measuring n parts).lines,
          1 + line.1.bytes.length + (render line.2).length ≤ prefferedLineLength := by
  have hinvariant := fill_invariant (F := measuring) (P := fun n => n ≤ prefferedLineLength)
    (fun n p _ hfits => hfits.2) (fun p hp => by
      have hlength := hparts p hp
      change 1 + (p.bytes.length : Int) ≤ prefferedLineLength
      unfold prefferedLineLength
      omega) n
  simp only [foldl_next] at hinvariant
  refine ⟨hinvariant.1, fun line hline => ?_⟩
  have hle := hinvariant.2 line hline
  change 1 + (line.1.bytes.length : Int) + _ ≤ _ at hle
  omega

/-- The lines that the writer starts are short. -/
theorem body_short {n : Int} (hparts : ∀ p ∈ parts, p.bytes.length ≤ 77)
    {line : Part × List Part} (hline : line ∈ (fill measuring n parts).lines) :
    (body line).length ≤ prefferedLineLength := by
  have hle := (measured hparts).2 line hline
  have htab : (text "\t").length = 1 := rfl
  rwa [body, List.length_append, List.length_append, htab]

/-- Parts are on the first line as long as they are counted in range. -/
theorem Overlong.first {pre : List Part} (h : Overlong lineLength name parts pre) :
    pre <+: (fill measuring (lineLength + (cString name).length) parts).first := by
  refine prefix_first h.of_parts fun front p hfront => ?_
  have hle := render_prefix hfront
  have hge : (render (pre.take 1)).length ≤ (render (front ++ [p])).length := by
    refine render_prefix (List.prefix_of_prefix_length_le (List.take_prefix 1 pre) hfront ?_)
    rw [List.length_take, List.length_append, List.length_singleton]
    omega
  have happend : (render (front ++ [p])).length = (render front).length + p.width := by
    rw [render, List.flatMap_append, List.length_append, List.flatMap_singleton]
    rfl
  have hcounted := h.counted
  have hstarted := h.started
  rw [foldl_next]
  change 0 ≤ _ + (p.width : Int) ∧ _ + (p.width : Int) ≤ prefferedLineLength
  constructor <;> omega

/-- If the first line is too long, the parts on it are counted in range. -/
theorem overlong_first (hname : (cString name).length ≤ 77)
    (hparts : ∀ p ∈ parts, p.bytes.length ≤ 77)
    (hlong : prefferedLineLength < (lastLine name).length + 1 +
      (render (fill measuring (lineLength + (cString name).length) parts).first).length) :
    Overlong lineLength name parts
      (fill measuring (lineLength + (cString name).length) parts).first := by
  have hlast := (length_splitCrlf (cString name)).2
  have hitems := fill_items (F := measuring) (lineLength + (cString name).length) parts
  have hmeasured := (measured (n := lineLength + (cString name).length) hparts).1
  have hhead (p : Part)
      (h : p ∈ (fill measuring (lineLength + (cString name).length) parts).first.head?) :=
    fits_head h
  generalize (fill measuring (lineLength + (cString name).length) parts).first = first at *
  cases first with
  | nil =>
      have hempty : (render []).length = 0 := rfl
      rw [lastLine, hempty, prefferedLineLength] at hlong
      omega
  | cons p rest =>
      have hcounted := hmeasured (List.cons_ne_nil p rest)
      refine ⟨⟨_, hitems⟩, List.cons_ne_nil p rest, hlong, hcounted, ?_⟩
      have hstarted := (hhead p rfl).1
      have htake : (render ((p :: rest).take 1)).length = p.width := by
        rw [List.take_succ_cons, List.take_zero, render, List.flatMap_singleton]
        rfl
      rwa [htake]

/-- The physical lines are short if and only if the first of them does not become too long while
the writer's count is in range. -/
theorem short_iff (lineLength : Int) (name : Bytes) (parts : List Part)
    (hlo : -2 ^ 31 ≤ lineLength) (hhi : lineLength < 2 ^ 31)
    (hname : (cString name).length ≤ 77)
    (hparts : ∀ p ∈ parts, p.bytes.length ≤ 77 ∧ cr ∉ p.bytes ∧ lf ∉ p.bytes) :
    Short lineLength name parts ↔ ∀ pre, ¬ Overlong lineLength name parts pre := by
  have hlengths : ∀ p ∈ parts, p.bytes.length ≤ 77 := fun p hp => (hparts p hp).1
  have hsplit := header_split lineLength name fun p hp => (hparts p hp).2.1
  rw [fill_measuring hlo hhi hname hlengths] at hsplit
  simp only at hsplit
  have hitems := fill_items (F := measuring) (lineLength + (cString name).length) parts
  obtain ⟨hnames, hlast⟩ := length_splitCrlf (cString name)
  have hcolon : (text ":").length = 1 := rfl
  rw [Short, hsplit]
  constructor
  · intro short pre overlong
    have hfirst := short _ (List.mem_append_right _ List.mem_cons_self)
    have hpre := render_prefix overlong.first
    have hlong := overlong.long
    rw [List.length_append, List.length_append, hcolon] at hfirst
    omega
  · intro fine line hline
    rcases List.mem_append.mp hline with hline | hline
    · have hle := hnames line hline
      exact Nat.le_trans hle (Nat.le_trans hname (by decide))
    · rcases List.mem_cons.mp hline with rfl | hline
      · by_contra hlong
        rw [List.length_append, List.length_append, hcolon, Nat.not_le] at hlong
        exact fine _ (overlong_first hname hlengths hlong)
      · obtain ⟨l, hl, rfl⟩ := List.mem_map.mp hline
        exact body_short hlengths hl

theorem short_iff_received :
    Short 0 (text "Received") [⟨text "by", true⟩, ⟨List.replicate 66 97, true⟩] ↔
      ∀ pre, ¬ Overlong 0 (text "Received")
        [⟨text "by", true⟩, ⟨List.replicate 66 97, true⟩] pre :=
  short_iff 0 _ _ (by decide) (by decide) (by decide) (by decide)

/-- Even with a count that starts at zero, the colon makes the line too long. -/
theorem not_short_received : ¬ ∀ (lineLength : Int) (name : Bytes) (parts : List Part),
    -2 ^ 31 ≤ lineLength → lineLength < 2 ^ 31 → (cString name).length ≤ 77 →
      (∀ p ∈ parts, p.bytes.length ≤ 77 ∧ cr ∉ p.bytes ∧ lf ∉ p.bytes) →
        Short lineLength name parts := by
  intro h
  have hshort := h 0 (text "Received") [⟨text "by", true⟩, ⟨List.replicate 66 97, true⟩]
    (by decide) (by decide) (by decide) (by decide)
  revert hshort
  unfold Short
  decide

end Lines

end Ervan.Rfc5322
