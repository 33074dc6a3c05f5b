import Mathlib.Data.List.Induction
import Mathlib.Logic.Function.Iterate

/-!
# Runs of deterministic systems

A system that consumes inputs runs by folding its step over them; a system that
moves on its own runs by iterating its step. For both, a property of a whole run
is a property of the state before each step, and an invariant is proved one step
at a time, as is a relation between two runs that take their steps together.
-/

namespace Run

variable {σ τ α : Type*}

/-- Every step of the run over the inputs starts in a state, and consumes an
input, that satisfy `P`. -/
def Along (f : σ → α → σ) (P : σ → α → Prop) : σ → List α → Prop
  | _, [] => True
  | s, a :: as => P s a ∧ Along f P (f s a) as

section Inputs

variable {f : σ → α → σ} {g : τ → α → τ} {P : σ → α → Prop} {Q : τ → α → Prop}

@[simp] theorem along_nil (s : σ) : Along f P s [] := trivial

@[simp] theorem along_cons (s : σ) (a : α) (as : List α) :
    Along f P s (a :: as) ↔ P s a ∧ Along f P (f s a) as := Iff.rfl

theorem along_append (s : σ) (as bs : List α) :
    Along f P s (as ++ bs) ↔ Along f P s as ∧ Along f P (as.foldl f s) bs := by
  induction as generalizing s with
  | nil => simp
  | cons a as ih => simp [ih, and_assoc]

/-- A condition on the inputs alone. -/
theorem along_of_forall {s : σ} {as : List α} (h : ∀ a ∈ as, ∀ s, P s a) : Along f P s as := by
  induction as generalizing s with
  | nil => trivial
  | cons a as ih =>
      exact ⟨h a List.mem_cons_self s, ih fun b hb => h b (List.mem_cons_of_mem a hb)⟩

instance Along.decidable [∀ s a, Decidable (P s a)] :
    (s : σ) → (as : List α) → Decidable (Along f P s as)
  | _, [] => isTrue trivial
  | s, a :: as =>
      have := Along.decidable (f s a) as
      inferInstanceAs (Decidable (P s a ∧ Along f P (f s a) as))

/-- An invariant of single steps holds after the whole run. -/
theorem foldl_invariant {I : σ → Prop} (step : ∀ s a, I s → P s a → I (f s a))
    {s : σ} (init : I s) {as : List α} (along : Along f P s as) : I (as.foldl f s) := by
  induction as generalizing s with
  | nil => exact init
  | cons a as ih => exact ih (step s a init along.1) along.2

/-- A condition that a simulation carries over step by step holds along the other run. -/
theorem Along.transfer {R : σ → τ → Prop} (carry : ∀ s t a, R s t → P s a → Q t a)
    (step : ∀ s t a, R s t → Q t a → R (f s a) (g t a))
    {s : σ} {t : τ} (init : R s t) {as : List α} (along : Along f P s as) :
    Along g Q t as := by
  induction as generalizing s t with
  | nil => trivial
  | cons a as ih =>
      have first := carry s t a init along.1
      exact ⟨first, ih (step s t a init first) along.2⟩

/-- Where every step can be followed by some choice of the other system, so can a run. -/
theorem exists_choices {β : Type*} {h : τ → β → α → τ} {R : σ → τ → Prop} {C : β → Prop}
    (step : ∀ s t a, R s t → P s a → ∃ b, C b ∧ R (f s a) (h t b a)) {s : σ} {t : τ}
    (init : R s t) {as : List α} (along : Along f P s as) :
    ∃ bs : List β, bs.length = as.length ∧ (∀ b ∈ bs, C b) ∧
      R (as.foldl f s) ((bs.zip as).foldl (fun t x => h t x.1 x.2) t) := by
  induction as generalizing s t with
  | nil => exact ⟨[], rfl, fun b hb => absurd hb List.not_mem_nil, init⟩
  | cons a as ih =>
      obtain ⟨b, hb, hstep⟩ := step s t a init along.1
      obtain ⟨bs, hlength, hbs, hrun⟩ := ih hstep along.2
      exact ⟨b :: bs, by rw [List.length_cons, hlength, List.length_cons],
        List.forall_mem_cons.mpr ⟨hb, hbs⟩, hrun⟩

/-- Where an input overrides what a state says, or keeps it, the last input to override decides. -/
theorem foldl_latest {β : Type*} (say : σ → Option β) {told : α → Option β}
    (step : ∀ s a, say (f s a) = (told a).or (say s)) (s : σ) (as : List α) :
    say (as.foldl f s) = (as.filterMap told).getLast?.or (say s) := by
  induction as using List.reverseRecOn with
  | nil => rfl
  | append_singleton as a ih =>
      rw [List.foldl_append, List.foldl_cons, List.foldl_nil, step, ih, List.filterMap_append]
      cases ha : told a with
      | none => simp [ha]
      | some b => simp [ha]

end Inputs

/-- Every state of the run that starts in `x` satisfies `P`. -/
def Always (step : σ → σ) (P : σ → Prop) (x : σ) : Prop := ∀ n, P (step^[n] x)

namespace Always

variable {step : σ → σ} {P I : σ → Prop} {x : σ}

theorem head (h : Always step P x) : P x := h 0

theorem tail (h : Always step P x) : Always step P (step x) := fun n => h (n + 1)

theorem cons (first : P x) (h : Always step P (step x)) : Always step P x
  | 0 => first
  | n + 1 => h n

theorem iff_cons : Always step P x ↔ P x ∧ Always step P (step x) :=
  ⟨fun h => ⟨h.head, h.tail⟩, fun h => cons h.1 h.2⟩

theorem mono {Q : σ → Prop} (h : Always step P x) (imp : ∀ y, P y → Q y) : Always step Q x :=
  fun n => imp _ (h n)

/-- An invariant that holds at the start and that every step from a state
satisfying `P` preserves holds throughout a run along which `P` holds. -/
theorem invariant (h : Always step P x) (init : I x)
    (preserve : ∀ y, P y → I y → I (step y)) : Always step I x := by
  intro n
  induction n with
  | zero => exact init
  | succ n ih =>
      rw [Function.iterate_succ_apply']
      exact preserve _ (h n) ih

end Always

/-- The unconditional case: an invariant of the step holds throughout. -/
theorem always_of_step (step : σ → σ) {I : σ → Prop} {x : σ} (init : I x)
    (preserve : ∀ y, I y → I (step y)) : Always step I x :=
  Always.invariant (P := fun _ => True) (fun _ => trivial) init (fun y _ => preserve y)

/-- A run that has come to rest has finitely many states. -/
theorem always_of_fixed {step : σ → σ} {P : σ → Prop} {x : σ} (k : Nat)
    (fixed : step (step^[k] x) = step^[k] x) (h : ∀ n ≤ k, P (step^[n] x)) :
    Always step P x := by
  have hrest (n : Nat) : step^[n + k] x = step^[k] x := by
    induction n with
    | zero => rw [Nat.zero_add]
    | succ n ih => rw [Nat.add_right_comm, Function.iterate_succ_apply', ih, fixed]
  intro n
  rcases Nat.le_total n k with hle | hle
  · exact h n hle
  · rw [← Nat.sub_add_cancel hle, hrest]
    exact h k (Nat.le_refl k)

/-- A relation between two runs that take their steps together, under a condition on the pair of
states before each step. -/
theorem lockstep {f : σ → σ} {g : τ → τ} {R C : σ → τ → Prop} {x : σ} {y : τ} (init : R x y)
    (cond : ∀ n, C (f^[n] x) (g^[n] y)) (step : ∀ a b, C a b → R a b → R (f a) (g b)) (n : Nat) :
    R (f^[n] x) (g^[n] y) := by
  induction n with
  | zero => exact init
  | succ n ih =>
      rw [Function.iterate_succ_apply', Function.iterate_succ_apply']
      exact step _ _ (cond n) ih

end Run
