import Mathlib.Data.List.Basic

/-!
# Parties that share a state

A trace is what several parties do to one state, in the order in which they get to do it. What a
party sees of the state is a relation on states. If the steps of the others do not change what it
sees, and its own steps make of what it sees something that depends on that alone, then in every
interleaving it sees what it would see without the others.
-/

namespace Interleaving

variable {ι α σ : Type*}

/-- The steps of one party. -/
def own [DecidableEq ι] (i : ι) (trace : List (ι × α)) : List α :=
  trace.filterMap fun a => if a.1 = i then some a.2 else none

section Own

variable [DecidableEq ι] {i j : ι} {a : α} {trace trace' : List (ι × α)}

@[simp] theorem own_nil (i : ι) : own i ([] : List (ι × α)) = [] := rfl

@[simp] theorem own_cons_self (i : ι) (a : α) (trace : List (ι × α)) :
    own i ((i, a) :: trace) = a :: own i trace := by
  simp [own]

theorem own_cons_other (h : j ≠ i) (a : α) (trace : List (ι × α)) :
    own i ((j, a) :: trace) = own i trace := by
  simp [own, h]

theorem own_append (i : ι) (trace trace' : List (ι × α)) :
    own i (trace ++ trace') = own i trace ++ own i trace' := List.filterMap_append

/-- The parties and their steps under other names. -/
theorem own_map {κ β : Type*} [DecidableEq κ] {g : ι → κ} (hg : Function.Injective g) (f : α → β)
    (i : ι) (trace : List (ι × α)) :
    own (g i) (trace.map fun a => (g a.1, f a.2)) = (own i trace).map f := by
  induction trace with
  | nil => rfl
  | cons a trace ih =>
      obtain ⟨j, a⟩ := a
      by_cases hj : j = i
      · subst hj
        rw [List.map_cons, own_cons_self, own_cons_self, List.map_cons, ih]
      · rw [List.map_cons, own_cons_other (hg.ne hj), own_cons_other hj, ih]

theorem own_eq_nil (h : ∀ a ∈ trace, a.1 ≠ i) : own i trace = [] := by
  rw [own, List.filterMap_eq_nil_iff]
  exact fun a ha => if_neg (h a ha)

theorem mem_own : a ∈ own i trace ↔ (i, a) ∈ trace := by
  simp [own]

theorem own_front (i : ι) (h : trace <+: trace') : own i trace <+: own i trace' := by
  obtain ⟨rest, rfl⟩ := h
  rw [own_append]
  exact List.prefix_append _ _

end Own

/-- What one party sees is its own affair. `inv` is an invariant of the state, and `ok` is what is
known of every step. -/
structure Isolates (step : σ → ι × α → σ) (inv : σ → Prop) (ok : ι × α → Prop) (i : ι)
    (same : σ → σ → Prop) : Prop where
  keeps : ∀ s a, inv s → ok a → inv (step s a)
  trans : ∀ s t u, same s t → same t u → same s u
  symm : ∀ s t, same s t → same t s
  respects : ∀ s a, inv s → ok a → a.1 ≠ i → same s (step s a)
  agrees : ∀ s t a, inv s → inv t → ok (i, a) → same s t → same (step s (i, a)) (step t (i, a))

section Isolates

variable {step : σ → ι × α → σ} {inv : σ → Prop} {ok : ι × α → Prop} {i : ι} {same : σ → σ → Prop}
variable {s t : σ} {trace : List (ι × α)}

/-- The others might as well not be there. -/
theorem Isolates.alone [DecidableEq ι] (h : Isolates step inv ok i same) (hs : inv s) (ht : inv t)
    (hsame : same s t) (hok : ∀ a ∈ trace, ok a) :
    same (trace.foldl step s) ((own i trace).foldl (fun s a => step s (i, a)) t) := by
  induction trace generalizing s t with
  | nil => exact hsame
  | cons a trace ih =>
      obtain ⟨j, a⟩ := a
      have hstep := hok (j, a) List.mem_cons_self
      have hrest (b : ι × α) (hb : b ∈ trace) : ok b := hok b (List.mem_cons_of_mem _ hb)
      by_cases hj : j = i
      · subst hj
        rw [own_cons_self]
        exact ih (h.keeps _ _ hs hstep) (h.keeps _ _ ht hstep)
          (h.agrees s t a hs ht hstep hsame) hrest
      · rw [own_cons_other hj]
        have hother := h.symm _ _ (h.respects s (j, a) hs hstep hj)
        exact ih (h.keeps _ _ hs hstep) ht (h.trans _ _ _ hother hsame) hrest

end Isolates

end Interleaving
