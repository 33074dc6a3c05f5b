import Ervan.Common.Folding

/-!
# Unfolding a header

A reader takes CRLF and TAB for one space. A line that starts with a part after a space is then
as it would have been without a limit, and a line that starts with any other part is not.
-/

namespace Ervan.Rfc5322

open Filling

/-- What starts a line. -/
def lineFold : Bytes := text "\r\n\t"

/-- The text behind the next `n` bytes with a space for every CRLF and TAB. -/
def unfoldedFrom : Nat → Bytes → Bytes
  | _, [] => []
  | n + 1, _ :: bs => unfoldedFrom n bs
  | 0, c :: bs =>
      if lineFold.isPrefixOf (c :: bs) then 32 :: unfoldedFrom 2 bs else c :: unfoldedFrom 0 bs

def unfolded (bs : Bytes) : Bytes := unfoldedFrom 0 bs

/-- A folded header says what it says on one line. -/
def Transparent (lineLength : Int) (name : Bytes) (parts : List Part) : Prop :=
  unfolded (Writer.header prefferedLineLength lineLength name parts) =
    Writer.header (2 ^ 64 - 1) lineLength name parts

section Unfold

variable {c d : UInt8} {xs : Bytes}

theorem unfolded_fold (rest : Bytes) : unfolded (lineFold ++ rest) = 32 :: unfolded rest := rfl

theorem unfolded_other (h : ¬ lineFold <+: c :: xs) : unfolded (c :: xs) = c :: unfolded xs :=
  if_neg (fun hprefix => h (List.isPrefixOf_iff_prefix.mp hprefix))

theorem unfolded_start (h : c ≠ cr) (xs : Bytes) : unfolded (c :: xs) = c :: unfolded xs :=
  unfolded_other fun hprefix => h (List.cons_prefix_cons.mp hprefix).1.symm

/-- Text without a CR stays as it is. -/
theorem unfolded_clear (h : cr ∉ xs) (bs : Bytes) : unfolded (xs ++ bs) = xs ++ unfolded bs := by
  induction xs with
  | nil => rfl
  | cons c xs ih =>
      rw [List.mem_cons, not_or] at h
      rw [List.cons_append, unfolded_start (Ne.symm h.1), ih h.2]
      rfl

/-- A fold that starts in a text ends in it if what follows is no part of one. -/
theorem fold_within (hd : d ∉ lineFold) {bs : Bytes} (h : lineFold <+: xs ++ d :: bs) :
    lineFold <+: xs := by
  have hnext : xs ++ [d] <+: xs ++ d :: bs := ⟨bs, List.append_assoc xs [d] bs⟩
  rcases List.prefix_or_prefix_of_prefix h hnext with hfold | hfold
  · refine (List.prefix_concat_iff.mp hfold).resolve_left fun heq => hd ?_
    rw [heq]
    exact List.mem_concat_self
  · exact absurd (hfold.subset List.mem_concat_self) hd

/-- Text without a fold stays as it is if what follows it does not complete one. -/
theorem unfolded_before (h : ¬ lineFold <:+: xs) (hd : d ∉ lineFold) (bs : Bytes) :
    unfolded (xs ++ d :: bs) = xs ++ d :: unfolded bs := by
  induction xs with
  | nil => exact unfolded_start (fun hcr => hd (by rw [hcr]; exact List.mem_cons_self)) bs
  | cons c xs ih =>
      rw [List.infix_cons_iff, not_or] at h
      have hother : ¬ lineFold <+: c :: (xs ++ d :: bs) := fun hprefix =>
        h.1 (fold_within hd hprefix)
      rw [List.cons_append, unfolded_other hother, ih h.2]
      rfl

/-- A fold within the text does not stay. -/
theorem unfolded_within (h : lineFold <:+: xs) (bs bs' : Bytes) :
    unfolded (xs ++ bs) ≠ xs ++ bs' := by
  induction xs with
  | nil => exact absurd (List.infix_nil.mp h) (by decide)
  | cons c xs ih =>
      by_cases hprefix : lineFold <+: c :: xs
      · obtain ⟨rest, hrest⟩ := hprefix
        rw [← hrest, List.append_assoc, unfolded_fold]
        intro heq
        exact absurd (List.cons.inj heq).1 (by decide)
      · have hinfix := (List.infix_cons_iff.mp h).resolve_left hprefix
        have hother : ¬ lineFold <+: c :: (xs ++ bs) := fun hfold =>
          hprefix (List.prefix_of_prefix_length_le hfold (List.prefix_append (c :: xs) bs)
            h.length_le)
        rw [List.cons_append, unfolded_other hother]
        intro heq
        exact ih hinfix (List.cons.inj heq).2

end Unfold

section Lines

variable {parts : List Part} {lines : List (Part × List Part)}

/-- A line that is not the first one, with its CRLF and TAB unfolded. -/
def unfoldedLine (line : Part × List Part) : Bytes := [32] ++ line.1.bytes ++ render line.2

theorem unfolded_lines (h : ∀ line ∈ lines, cr ∉ line.1.bytes ∧ cr ∉ render line.2) (bs : Bytes) :
    unfolded (lines.flatMap (crlf ++ body ·) ++ bs) =
      lines.flatMap unfoldedLine ++ unfolded bs := by
  induction lines with
  | nil => rfl
  | cons line lines ih =>
      obtain ⟨hfirst, hrest⟩ := h line List.mem_cons_self
      have hfold : crlf ++ body line = lineFold ++ (line.1.bytes ++ render line.2) := rfl
      have hclear : cr ∉ line.1.bytes ++ render line.2 := by
        rw [List.mem_append, not_or]
        exact ⟨hfirst, hrest⟩
      rw [List.flatMap_cons, hfold, List.append_assoc, List.append_assoc, unfolded_fold,
        unfolded_clear hclear, ih fun l hl => h l (List.mem_cons_of_mem line hl),
        List.flatMap_cons, unfoldedLine]
      simp only [List.append_assoc, List.cons_append, List.nil_append]

/-- A line that starts with a part without a space is longer by the space. -/
theorem length_unfoldedLine (line : Part × List Part) : (unfoldedLine line).length =
    (render (line.1 :: line.2)).length + if line.1.space then 0 else 1 := by
  cases hspace : line.1.space <;>
    simp [unfoldedLine, render, Part.rendered, hspace, text]

theorem length_unfoldedLines (lines : List (Part × List Part)) :
    (lines.flatMap unfoldedLine).length =
      (lines.flatMap fun line => render (line.1 :: line.2)).length +
        lines.countP (fun line => ! line.1.space) := by
  induction lines with
  | nil => rfl
  | cons line lines ih =>
      rw [List.flatMap_cons, List.flatMap_cons, List.length_append, List.length_append,
        length_unfoldedLine, ih, List.countP_cons]
      cases line.1.space <;> simp <;> omega

/-- The lines are unfolded to their parts if and only if they start with parts after a space. -/
theorem unfoldedLines_iff (lines : List (Part × List Part)) :
    lines.flatMap unfoldedLine = lines.flatMap (fun line => render (line.1 :: line.2)) ↔
      ∀ line ∈ lines, line.1.space = true := by
  constructor
  · intro heq line hline
    have hlength := length_unfoldedLines lines
    rw [heq] at hlength
    have hzero : lines.countP (fun line => ! line.1.space) = 0 := by omega
    have hnot := List.countP_eq_zero.mp hzero line hline
    simpa using hnot
  · intro hspace
    refine List.flatMap_congr fun line hline => ?_
    simp [unfoldedLine, render, Part.rendered, hspace line hline, text]

end Lines

section Header

variable {parts : List Part}

/-- A header can be unfolded if and only if its name has no fold in it and, of the parts put on
lines as they are counted, only those after a space start a line. -/
theorem transparent_iff (lineLength : Int) (name : Bytes) (parts : List Part)
    (hparts : ∀ p ∈ parts, cr ∉ p.bytes) :
    Transparent lineLength name parts ↔ ¬ lineFold <:+: cString name ∧
      ∀ line ∈ (fill (counting prefferedLineLength)
        (int32 (lineLength + (cString name).length)) parts).lines, line.1.space = true := by
  have hfolds := header_folds prefferedLineLength lineLength name parts
  have hitems := fill_items (F := counting prefferedLineLength)
    (int32 (lineLength + (cString name).length)) parts
  obtain ⟨hfirst, hlines⟩ := filled_clear hparts (F := counting prefferedLineLength)
    (int32 (lineLength + (cString name).length))
  generalize fill (counting prefferedLineLength) (int32 (lineLength + (cString name).length))
    parts = filled at hfolds hitems hfirst hlines ⊢
  simp only at hfolds
  have hrender : render parts =
      render filled.first ++ filled.lines.flatMap (fun line => render (line.1 :: line.2)) := by
    rw [← hitems, render, List.flatMap_append, List.flatMap_assoc]
    rfl
  rw [Transparent, header_unlimited, hfolds]
  by_cases hname : lineFold <:+: cString name
  · exact iff_of_false (unfolded_within hname _ _) fun h => h.1 hname
  · have hcolon : text ":" = [58] := rfl
    have hcrlf : unfolded crlf = crlf := rfl
    rw [hcolon, List.singleton_append, List.singleton_append, unfolded_before hname (by decide),
      unfolded_clear hfirst, unfolded_lines hlines, hcrlf, hrender]
    simp only [List.append_assoc, List.append_cancel_left_eq, List.cons.injEq, true_and,
      ← unfoldedLines_iff, hname, not_false_eq_true]
    rw [List.append_cancel_right_eq]

/-- A `';'` that is written without a space and does not fit. -/
theorem transparent_iff_semicolon :
    Transparent 0 (text "Received") [⟨List.replicate 69 97, true⟩, ⟨text ";", false⟩] ↔
      ¬ lineFold <:+: cString (text "Received") ∧
        ∀ line ∈ (fill (counting prefferedLineLength)
          (int32 (0 + (cString (text "Received")).length))
            [⟨List.replicate 69 97, true⟩, ⟨text ";", false⟩]).lines, line.1.space = true :=
  transparent_iff _ _ _ (by decide)

/-- The `';'` is separated from the host name before it. -/
theorem not_transparent_semicolon : ¬ ∀ (lineLength : Int) (name : Bytes) (parts : List Part),
    (∀ p ∈ parts, cr ∉ p.bytes ∧ lf ∉ p.bytes ∧ 9 ∉ p.bytes) →
      Transparent lineLength name parts := by
  intro h
  have hfolded := h 0 (text "Received") [⟨List.replicate 69 97, true⟩, ⟨text ";", false⟩]
    (by decide)
  revert hfolded
  unfold Transparent
  decide

end Header

end Ervan.Rfc5322
