import Mathlib.Data.List.Infix

/-!
# Filling lines

Items are put on a line one after another as long as they fit, and an item that does not fit
starts a new line. What a line holds so far is a state: it says which items still fit.
-/

namespace Filling

variable {α σ τ : Type*}

/-- How items fit on a line, and what the line is with one more item or with its first one. -/
structure Filler (σ α : Type*) where
  Fits : σ → α → Prop
  next : σ → α → σ
  fresh : α → σ

/-- The items of the line that was there already, and the new lines. These are not empty. -/
structure Filled (α : Type*) where
  first : List α
  lines : List (α × List α)

variable (F : Filler σ α) [∀ s x, Decidable (F.Fits s x)]

def fill : σ → List α → Filled α
  | _, [] => ⟨[], []⟩
  | s, x :: xs =>
      if F.Fits s x then
        let rest := fill (F.next s x) xs
        ⟨x :: rest.first, rest.lines⟩
      else
        let rest := fill (F.fresh x) xs
        ⟨[], (x, rest.first) :: rest.lines⟩

variable {F} {s : σ} {x : α} {xs : List α}

theorem fill_fits (h : F.Fits s x) (xs : List α) : fill F s (x :: xs) =
    ⟨x :: (fill F (F.next s x) xs).first, (fill F (F.next s x) xs).lines⟩ := if_pos h

theorem fill_breaks (h : ¬ F.Fits s x) (xs : List α) : fill F s (x :: xs) =
    ⟨[], (x, (fill F (F.fresh x) xs).first) :: (fill F (F.fresh x) xs).lines⟩ := if_neg h

/-- No item is lost or moved. -/
theorem fill_items (s : σ) (xs : List α) :
    (fill F s xs).first ++ (fill F s xs).lines.flatMap (fun line => line.1 :: line.2) = xs := by
  induction xs generalizing s with
  | nil => rfl
  | cons x xs ih =>
      by_cases h : F.Fits s x
      · rw [fill_fits h, List.cons_append, ih]
      · rw [fill_breaks h, List.nil_append, List.flatMap_cons, List.cons_append, ih]

/-- What holds of a line with one item, and of a line that an item has just been put on, holds of
the lines in the end. -/
theorem fill_invariant {P : σ → Prop} (hnext : ∀ s, ∀ x ∈ xs, F.Fits s x → P (F.next s x))
    (hfresh : ∀ x ∈ xs, P (F.fresh x)) (s : σ) :
    ((fill F s xs).first ≠ [] → P ((fill F s xs).first.foldl F.next s)) ∧
      ∀ line ∈ (fill F s xs).lines, P (line.2.foldl F.next (F.fresh line.1)) := by
  induction xs generalizing s with
  | nil => exact ⟨fun h => absurd rfl h, fun line hline => by cases hline⟩
  | cons x xs ih =>
      have ih := ih (fun s y hy => hnext s y (List.mem_cons_of_mem x hy))
        (fun y hy => hfresh y (List.mem_cons_of_mem x hy))
      have hx : x ∈ x :: xs := List.mem_cons_self
      -- the line goes on with items or ends as it is
      have hline {s : σ} (hs : P s) : P ((fill F s xs).first.foldl F.next s) := by
        by_cases hempty : (fill F s xs).first = []
        · rw [hempty]
          exact hs
        · exact (ih s).1 hempty
      by_cases h : F.Fits s x
      · rw [fill_fits h]
        exact ⟨fun _ => hline (hnext s x hx h), (ih _).2⟩
      · rw [fill_breaks h]
        refine ⟨fun hne => absurd rfl hne, fun line hmem => ?_⟩
        rcases List.mem_cons.mp hmem with rfl | hmem
        · exact hline (hfresh x hx)
        · exact (ih _).2 line hmem

/-- The first item of the old line fits on it. -/
theorem fits_head (h : x ∈ (fill F s xs).first.head?) : F.Fits s x := by
  cases xs with
  | nil => cases h
  | cons y xs =>
      by_cases hfits : F.Fits s y
      · rw [fill_fits hfits] at h
        cases h
        exact hfits
      · rw [fill_breaks hfits] at h
        cases h

/-- Items that fit one after another are on the old line. -/
theorem prefix_first {pre : List α} (hpre : pre <+: xs)
    (hfits : ∀ front x, front ++ [x] <+: pre → F.Fits (front.foldl F.next s) x) :
    pre <+: (fill F s xs).first := by
  induction xs generalizing s pre with
  | nil =>
      rw [List.prefix_nil.mp hpre]
      exact List.nil_prefix
  | cons x xs ih =>
      cases pre with
      | nil => exact List.nil_prefix
      | cons y pre =>
          obtain ⟨rfl, htail⟩ := List.cons_prefix_cons.mp hpre
          have hy : F.Fits s y := hfits [] y (List.cons_prefix_cons.mpr ⟨rfl, List.nil_prefix⟩)
          rw [fill_fits hy]
          refine List.cons_prefix_cons.mpr ⟨rfl, ih htail fun front x hfront => ?_⟩
          exact hfits (y :: front) x (List.cons_prefix_cons.mpr ⟨rfl, hfront⟩)

/-- Two ways to keep track of a line that agree on what fits fill the same lines. -/
theorem fill_congr {G : Filler τ α} [∀ t x, Decidable (G.Fits t x)] {R : σ → τ → Prop}
    (hfits : ∀ s t, ∀ x ∈ xs, R s t → (F.Fits s x ↔ G.Fits t x))
    (hnext : ∀ s t, ∀ x ∈ xs, R s t → G.Fits t x → R (F.next s x) (G.next t x))
    (hfresh : ∀ x ∈ xs, R (F.fresh x) (G.fresh x)) {s : σ} {t : τ} (h : R s t) :
    fill F s xs = fill G t xs := by
  induction xs generalizing s t with
  | nil => rfl
  | cons x xs ih =>
      have hx : x ∈ x :: xs := List.mem_cons_self
      have ih {s : σ} {t : τ} (h : R s t) : fill F s xs = fill G t xs :=
        ih (fun s t y hy => hfits s t y (List.mem_cons_of_mem x hy))
          (fun s t y hy => hnext s t y (List.mem_cons_of_mem x hy))
          (fun y hy => hfresh y (List.mem_cons_of_mem x hy)) h
      by_cases hf : G.Fits t x
      · rw [fill_fits ((hfits s t x hx h).mpr hf), fill_fits hf, ih (hnext s t x hx h hf)]
      · rw [fill_breaks (fun hf' => hf ((hfits s t x hx h).mp hf')), fill_breaks hf,
          ih (hfresh x hx)]

end Filling
