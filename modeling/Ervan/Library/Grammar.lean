import Mathlib.Data.List.TakeWhile

/-!
# Grammars of prefix parsers

The shapes that a scanner over a list looks for: a run of elements of one class, and words
joined by single separators. A prefix is settled by what may come after it, so both come with
what ends them.
-/

namespace Grammar

variable {α : Type*} {p q : α → Bool} {P Q : List α → Prop} {sep : α} {x y : List α}

/-- All elements are of one class. -/
def Each (p : α → Bool) (x : List α) : Prop := ∀ c ∈ x, p c = true

/-- One or more elements, all of one class. -/
structure Stretch (p : α → Bool) (x : List α) : Prop where
  ne : x ≠ []
  each : Each p x

/-- What comes next is not an element of the class. -/
def Until (p : α → Bool) (y : List α) : Prop := ∀ c ∈ y.head?, p c = false

/-- One or more words, with a separator between each and the next. -/
inductive SepBy (sep : α) (P : List α → Prop) : List α → Prop
  | one {x : List α} (h : P x) : SepBy sep P x
  | more {x xs : List α} (h : P x) (rest : SepBy sep P xs) : SepBy sep P (x ++ sep :: xs)

theorem until_nil : Until p [] := fun _ hc => by cases hc

theorem until_cons {c : α} : Until p (c :: y) ↔ p c = false := by simp [Until]

theorem Each.nil : Each p [] := fun _ hc => absurd hc List.not_mem_nil

theorem each_cons {c : α} : Each p (c :: x) ↔ p c = true ∧ Each p x := by simp [Each]

theorem Each.of_all (h : x.all p = true) : Each p x := List.all_eq_true.mp h

theorem each_append : Each p (x ++ y) ↔ Each p x ∧ Each p y := List.forall_mem_append

theorem Each.mono (h : Each p x) (imp : ∀ c, p c = true → q c = true) : Each q x :=
  fun c hc => imp c (h c hc)

theorem Until.mono (h : Until q y) (imp : ∀ c, p c = true → q c = true) : Until p y := by
  intro c hc
  rw [Bool.eq_false_iff]
  intro hp
  exact Bool.false_ne_true ((h c hc).symm.trans (imp c hp))

/-- Every list starts with its longest stretch of a class. -/
theorem exists_each (p : α → Bool) (xs : List α) : ∃ x y, xs = x ++ y ∧ Each p x ∧ Until p y := by
  refine ⟨xs.takeWhile p, xs.dropWhile p, List.takeWhile_append_dropWhile.symm,
    fun c hc => List.mem_takeWhile_imp hc, fun c hc => ?_⟩
  have hhead := List.head?_dropWhile_not p xs
  rw [hc] at hhead
  exact hhead

theorem takeWhile_append (each : Each p x) (ends : Until p y) : (x ++ y).takeWhile p = x := by
  rw [List.takeWhile_append_of_pos each]
  cases y with
  | nil => simp
  | cons c y => simp [until_cons.mp ends]

theorem dropWhile_append (each : Each p x) (ends : Until p y) : (x ++ y).dropWhile p = y := by
  rw [List.dropWhile_append_of_pos each]
  cases y with
  | nil => rfl
  | cons c y => simp [until_cons.mp ends]

/-- The longest stretch of a class is the only one that something else ends. -/
theorem each_unique {x' y' : List α} (each : Each p x) (ends : Until p y) (each' : Each p x')
    (ends' : Until p y') (heq : x ++ y = x' ++ y') : x = x' ∧ y = y' := by
  have hx : x = x' := by
    rw [← takeWhile_append each ends, heq, takeWhile_append each' ends']
  subst hx
  exact ⟨rfl, List.append_cancel_left heq⟩

theorem SepBy.mono (h : SepBy sep P x) (imp : ∀ x, P x → Q x) : SepBy sep Q x := by
  induction h with
  | one h => exact .one (imp _ h)
  | more h rest ih => exact .more (imp _ h) ih

/-- Words of one class, joined by a separator of that class. -/
theorem SepBy.each (h : SepBy sep P x) (hsep : p sep = true) (word : ∀ x, P x → Each p x) :
    Each p x := by
  induction h with
  | one h => exact word _ h
  | more h rest ih => exact each_append.mpr ⟨word _ h, each_cons.mpr ⟨hsep, ih⟩⟩

/-- The first element of words that are not empty. -/
theorem SepBy.head (h : SepBy sep P x) (word : ∀ x, P x → ∃ c x', x = c :: x' ∧ p c = true) :
    ∃ c x', x = c :: x' ∧ p c = true := by
  cases h with
  | one h => exact word _ h
  | more h rest =>
      obtain ⟨c, x', rfl, hc⟩ := word _ h
      exact ⟨c, _, rfl, hc⟩

end Grammar
