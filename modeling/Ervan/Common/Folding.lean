import Ervan.Common.Framed
import Ervan.Common.Rfc5322
import Ervan.Library.Filling

/-!
# Folded headers

A header is its name, a colon and the parts that follow. The writer puts parts on a line as long
as `line_length` allows, and starts a new line before a part that is too long for the old one.
What `line_length` counts is not what is on the line: it starts with what was in memory, and the
colon is left out.
-/

namespace Ervan.Rfc5322

open Filling

/-- The arguments of a call of `write_body_part`. -/
structure Part where
  part : Bytes
  space : Bool
  deriving DecidableEq, Repr

namespace Part

def bytes (p : Part) : Bytes := cString p.part

/-- A part on the line of the part before it. -/
def rendered (p : Part) : Bytes := (if p.space then text " " else []) ++ p.bytes

def width (p : Part) : Nat := p.rendered.length

end Part

namespace Writer

def writeParts (limit : Nat) (w : Writer) : List Part → Writer × List Bytes
  | [] => (w, [])
  | p :: parts =>
      let (w, first) := w.writeBodyPartWithin limit p.part p.space
      let (w, rest) := w.writeParts limit parts
      (w, first ++ rest)

/-- What `begin_header`, the calls of `write_body_part` and `end_header` write, when memory held
`lineLength` before. -/
def header (limit : Nat) (lineLength : Int) (name : Bytes) (parts : List Part) : Bytes :=
  let (w, first) := (Writer.mk lineLength).beginHeader name
  let (_, body) := w.writeParts limit parts
  (first ++ body ++ endHeader).flatten

end Writer

/-- How `write_body_part` counts. -/
def counting (limit : Nat) : Filler Int Part where
  Fits n p := sizeT (int32 (n + (if p.space then 1 else 0)) + p.bytes.length) ≤ limit
  next n p := int32 (n + p.width)
  fresh p := int32 (1 + p.bytes.length)

instance (limit : Nat) (n : Int) (p : Part) : Decidable ((counting limit).Fits n p) :=
  inferInstanceAs (Decidable (_ ≤ _))

def render (parts : List Part) : Bytes := parts.flatMap Part.rendered

/-- A line that is not the first one, without its CRLF. -/
def body (line : Part × List Part) : Bytes := text "\t" ++ line.1.bytes ++ render line.2

section Layout

variable {limit : Nat} {parts : List Part} {w : Writer} {p : Part}

theorem width_eq (p : Part) : p.width = (if p.space then 1 else 0) + p.bytes.length := by
  unfold Part.width Part.rendered
  rw [List.length_append]
  split <;> rfl

/-- A part that fits goes on the line. -/
theorem writeBodyPartWithin_fits (h : (counting limit).Fits w.lineLength p) :
    (w.writeBodyPartWithin limit p.part p.space).1 = ⟨(counting limit).next w.lineLength p⟩ ∧
      (w.writeBodyPartWithin limit p.part p.space).2.flatten = p.rendered := by
  have hfits : ¬ sizeT (int32 (w.lineLength + (if p.space then 1 else 0)) +
    (cString p.part).length) > limit := Nat.not_lt.mpr h
  unfold Writer.writeBodyPartWithin
  rw [if_neg hfits]
  cases hspace : p.space
  · simp [counting, width_eq, hspace, Part.rendered, Part.bytes]
  · simp [counting, width_eq, hspace, Part.rendered, Part.bytes, Int.add_assoc]

/-- A part that does not fit starts a line. -/
theorem writeBodyPartWithin_breaks (h : ¬ (counting limit).Fits w.lineLength p) :
    (w.writeBodyPartWithin limit p.part p.space).1 = ⟨(counting limit).fresh p⟩ ∧
      (w.writeBodyPartWithin limit p.part p.space).2.flatten = text "\r\n\t" ++ p.bytes := by
  have hbreaks : sizeT (int32 (w.lineLength + (if p.space then 1 else 0)) +
    (cString p.part).length) > limit := Nat.not_le.mp h
  unfold Writer.writeBodyPartWithin
  rw [if_pos hbreaks]
  simp [counting, Part.bytes]

/-- The writer fills lines. -/
theorem writeParts_flatten (limit : Nat) (w : Writer) (parts : List Part) :
    (w.writeParts limit parts).2.flatten =
      render (fill (counting limit) w.lineLength parts).first ++
        (fill (counting limit) w.lineLength parts).lines.flatMap (crlf ++ body ·) := by
  induction parts generalizing w with
  | nil => rfl
  | cons p parts ih =>
      by_cases h : (counting limit).Fits w.lineLength p
      · obtain ⟨hnext, hwritten⟩ := writeBodyPartWithin_fits h
        rw [Writer.writeParts, List.flatten_append, hwritten, hnext, ih, fill_fits h]
        simp only [render, List.flatMap_cons, List.append_assoc]
      · obtain ⟨hfresh, hwritten⟩ := writeBodyPartWithin_breaks h
        rw [Writer.writeParts, List.flatten_append, hwritten, hfresh, ih, fill_breaks h]
        have htab : text "\r\n\t" = crlf ++ text "\t" := rfl
        simp only [render, body, htab, List.flatMap_cons, List.flatMap_nil, List.nil_append,
          List.append_assoc]

theorem header_folds (limit : Nat) (lineLength : Int) (name : Bytes) (parts : List Part) :
    let filled := fill (counting limit) (int32 (lineLength + (cString name).length)) parts
    Writer.header limit lineLength name parts = cString name ++
      (text ":" ++ (render filled.first ++ (filled.lines.flatMap (crlf ++ body ·) ++ crlf))) := by
  intro filled
  have hbody := writeParts_flatten limit ((Writer.mk lineLength).beginHeader name).1 parts
  rw [Writer.header]
  simp only [List.flatten_append, hbody, Writer.endHeader, List.flatten_cons, List.flatten_nil,
    List.append_nil, List.append_assoc]
  simp only [Writer.beginHeader, List.flatten_cons, List.flatten_nil, List.append_nil,
    List.append_assoc]
  rfl

/-- A header line by line. -/
theorem header_lines (limit : Nat) (lineLength : Int) (name : Bytes) (parts : List Part) :
    let filled := fill (counting limit) (int32 (lineLength + (cString name).length)) parts
    Writer.header limit lineLength name parts = cString name ++
      (text ":" ++ (render filled.first ++ (crlf ++ filled.lines.flatMap (body · ++ crlf)))) := by
  intro filled
  have hmove (lines : List (Part × List Part)) :
      lines.flatMap (crlf ++ body ·) ++ crlf = crlf ++ lines.flatMap (body · ++ crlf) := by
    induction lines with
    | nil => rfl
    | cons line lines ih => simp only [List.flatMap_cons, List.append_assoc, ih]
  rw [header_folds, hmove]

/-- Without a limit there is one line. -/
theorem header_unlimited (lineLength : Int) (name : Bytes) (parts : List Part) :
    Writer.header (2 ^ 64 - 1) lineLength name parts =
      cString name ++ (text ":" ++ (render parts ++ crlf)) := by
  have hfill (n : Int) : fill (counting (2 ^ 64 - 1)) n parts = ⟨parts, []⟩ := by
    induction parts generalizing n with
    | nil => rfl
    | cons p parts ih =>
        have hfits : (counting (2 ^ 64 - 1)).Fits n p := by
          change sizeT _ ≤ 2 ^ 64 - 1
          unfold sizeT
          omega
        rw [fill_fits hfits, ih]
  rw [header_folds, hfill]
  rfl

theorem clear_render (h : ∀ p ∈ parts, cr ∉ p.bytes) : cr ∉ render parts := by
  intro hmem
  obtain ⟨p, hp, hc⟩ := List.mem_flatMap.mp hmem
  rcases List.mem_append.mp hc with hspace | hc
  · revert hspace
    split <;> decide
  · exact h p hp hc

/-- Parts without a CR are put on lines without a CR. -/
theorem filled_clear {σ : Type*} {F : Filler σ Part} [∀ s p, Decidable (F.Fits s p)]
    (h : ∀ p ∈ parts, cr ∉ p.bytes) (s : σ) : cr ∉ render (fill F s parts).first ∧
      ∀ line ∈ (fill F s parts).lines, cr ∉ line.1.bytes ∧ cr ∉ render line.2 := by
  rw [← fill_items (F := F) s parts] at h
  refine ⟨clear_render fun p hp => h p (List.mem_append_left _ hp), fun line hline => ?_⟩
  have hmem (p : Part) (hp : p ∈ line.1 :: line.2) : cr ∉ p.bytes :=
    h p (List.mem_append_right _ (List.mem_flatMap.mpr ⟨line, hline, hp⟩))
  exact ⟨hmem _ List.mem_cons_self, clear_render fun p hp => hmem p (List.mem_cons_of_mem _ hp)⟩

end Layout

end Ervan.Rfc5322
