import Ervan.Library.Run

/-!
# Two parties that take turns

A speaker says a line, a listener takes a step with it and may have something to answer, and the
speaker decides by the answer what it says next. What the speaker says depends on what the listener
has done, so a property of the conversation is a relation between their states that every turn
preserves.
-/

namespace Conversation

variable {π σ α β : Type*}

/-- What a speaker says next, if anything, and what it makes of an answer. -/
structure Speaker (π α β : Type*) where
  line : π → Option α
  hear : π → Option β → π

/-- What has been answered since. -/
def answer (before after : List β) : Option β := (after.drop before.length).head?

@[simp] theorem answer_append (before : List β) (b : β) :
    answer before (before ++ [b]) = some b := by simp [answer]

section Turns

variable (S : Speaker π α β) (step : σ → α → σ) (answers : σ → List β)

/-- A turn of both. -/
def turn (x : π × σ) : π × σ :=
  match S.line x.1 with
  | none => x
  | some a =>
      let t := step x.2 a
      (S.hear x.1 (answer (answers x.2) (answers t)), t)

/-- What is said in so many turns. -/
def said : Nat → π × σ → List α
  | 0, _ => []
  | n + 1, x => (S.line x.1).toList ++ said n (turn S step answers x)

variable {x : π × σ}

variable {S step answers} in
theorem turn_none (h : S.line x.1 = none) : turn S step answers x = x := by rw [turn, h]

variable {S step answers} in
theorem turn_some {a : α} (h : S.line x.1 = some a) :
    turn S step answers x =
      (S.hear x.1 (answer (answers x.2) (answers (step x.2 a))), step x.2 a) := by rw [turn, h]

/-- The listener has heard what has been said. -/
theorem said_foldl (n : Nat) (x : π × σ) :
    (said S step answers n x).foldl step x.2 = ((turn S step answers)^[n] x).2 := by
  induction n generalizing x with
  | zero => rfl
  | succ n ih =>
      rw [Function.iterate_succ_apply, ← ih, said, List.foldl_append]
      unfold turn
      cases S.line x.1 <;> rfl

/-- A relation that every turn preserves holds after all of them, and every line meets the condition
that it comes with. -/
theorem invariant {R : π → σ → Prop} {P : σ → α → Prop}
    (hturn : ∀ p s a, S.line p = some a → R p s →
      P s a ∧ R (S.hear p (answer (answers s) (answers (step s a)))) (step s a))
    (init : R x.1 x.2) (n : Nat) :
    Run.Along step P x.2 (said S step answers n x) ∧
      R ((turn S step answers)^[n] x).1 ((turn S step answers)^[n] x).2 := by
  induction n generalizing x with
  | zero => exact ⟨trivial, init⟩
  | succ n ih =>
      rw [Function.iterate_succ_apply, said]
      cases hline : S.line x.1 with
      | none =>
          rw [turn_none hline]
          exact ih init
      | some a =>
          obtain ⟨hcondition, hnext⟩ := hturn x.1 x.2 a hline init
          rw [turn_some hline]
          obtain ⟨halong, hend⟩ := ih (x := (_, step x.2 a)) hnext
          exact ⟨⟨hcondition, halong⟩, hend⟩

variable {S step answers}

/-- What a speaker says, whatever it is answered. -/
theorem said_forall {I : π → Prop} {C : α → Prop}
    (hear : ∀ p a, I p → S.line p = some a → ∀ b, I (S.hear p b))
    (line : ∀ p a, I p → S.line p = some a → C a) (init : I x.1) (n : Nat) :
    ∀ a ∈ said S step answers n x, C a := by
  induction n generalizing x with
  | zero => exact fun a ha => absurd ha List.not_mem_nil
  | succ n ih =>
      intro a ha
      rw [said, List.mem_append, Option.mem_toList] at ha
      rcases ha with ha | ha
      · exact line x.1 a init ha
      · refine ih ?_ a ha
        cases hline : S.line x.1 with
        | none => rwa [turn_none hline]
        | some b =>
            rw [turn_some hline]
            exact hear x.1 b init hline _

/-- A speaker that has less to say after every answer falls silent. -/
theorem silent {μ : π → ℕ} (hless : ∀ p b a, S.line p = some a → μ (S.hear p b) < μ p) {n : Nat}
    (h : μ x.1 ≤ n) : S.line ((turn S step answers)^[n] x).1 = none := by
  induction n generalizing x with
  | zero =>
      rw [Function.iterate_zero_apply]
      cases hline : S.line x.1 with
      | none => rfl
      | some a => exact absurd (hless x.1 none a hline) (by omega)
  | succ n ih =>
      cases hline : S.line x.1 with
      | none => rw [Function.iterate_fixed (turn_none hline), hline]
      | some a =>
          rw [Function.iterate_succ_apply, turn_some hline]
          exact ih (Nat.le_of_lt_succ (Nat.lt_of_lt_of_le (hless _ _ _ hline) h))

end Turns

end Conversation
