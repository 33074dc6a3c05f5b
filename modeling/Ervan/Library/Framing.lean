import Mathlib.Data.List.Infix

/-!
# Framing by a terminator

A receiver that finds the end of a record by shifting the input through a window
of the terminator's length. The input is quiet as long as the window never shows
the terminator; it is either quiet altogether or has a first end of record.
-/

namespace Framing

variable {α : Type*}

/-- The window after one more input: the oldest element leaves it. -/
def push (window : List α) (c : α) : List α := (window ++ [c]).tail

/-- The window after a sequence of inputs. -/
def slide (window : List α) (xs : List α) : List α := xs.foldl push window

/-- No input of the sequence completes the terminator. -/
def Quiet (terminator : List α) : List α → List α → Prop
  | _, [] => True
  | window, c :: xs => push window c ≠ terminator ∧ Quiet terminator (push window c) xs

variable {terminator window : List α}

@[simp] theorem slide_nil : slide window [] = window := rfl

@[simp] theorem slide_cons (c : α) (xs : List α) :
    slide window (c :: xs) = slide (push window c) xs := rfl

theorem slide_append (xs ys : List α) :
    slide window (xs ++ ys) = slide (slide window xs) ys := List.foldl_append

theorem quiet_append (xs ys : List α) :
    Quiet terminator window (xs ++ ys) ↔
      Quiet terminator window xs ∧ Quiet terminator (slide window xs) ys := by
  induction xs generalizing window with
  | nil => simp [Quiet]
  | cons c xs ih => simp [Quiet, ih, and_assoc]

theorem length_push (window : List α) (c : α) : (push window c).length = window.length := by
  simp [push]

theorem length_slide (window xs : List α) : (slide window xs).length = window.length := by
  induction xs generalizing window with
  | nil => rfl
  | cons c xs ih => exact (ih (push window c)).trans (length_push window c)

/-- The last input is the last element of the window. -/
theorem getLast?_push (window : List α) (c : α) (h : 0 < window.length) : (push window c).getLast? = some c := by
  cases window with
  | nil => simp at h
  | cons x xs => simp [push]

/-- Either nothing is completed or there is a first input that completes the terminator. -/
theorem quiet_or_first (terminator window xs : List α) :
    Quiet terminator window xs ∨ ∃ pre c rest, xs = pre ++ c :: rest ∧
      Quiet terminator window pre ∧ push (slide window pre) c = terminator := by
  induction xs generalizing window with
  | nil => exact Or.inl trivial
  | cons c xs ih =>
      by_cases hc : push window c = terminator
      · exact Or.inr ⟨[], c, xs, rfl, trivial, hc⟩
      · rcases ih (push window c) with quiet | ⟨pre, d, rest, rfl, quiet, complete⟩
        · exact Or.inl ⟨hc, quiet⟩
        · exact Or.inr ⟨c :: pre, d, rest, rfl, ⟨hc, quiet⟩, complete⟩

/-- The oldest element of the window makes no difference to what is completed. -/
theorem push_congr {window' : List α} (h : window.tail = window'.tail) (hne : 0 < window.length)
    (hne' : 0 < window'.length) (c : α) : push window c = push window' c := by
  obtain ⟨a, window, rfl⟩ := List.exists_cons_of_length_pos hne
  obtain ⟨a', window', rfl⟩ := List.exists_cons_of_length_pos hne'
  rw [List.tail_cons, List.tail_cons] at h
  rw [h]
  rfl

theorem slide_congr {window' : List α} (h : window.tail = window'.tail) (hne : 0 < window.length)
    (hne' : 0 < window'.length) (xs : List α) :
    (slide window xs).tail = (slide window' xs).tail := by
  cases xs with
  | nil => exact h
  | cons c xs => rw [slide_cons, slide_cons, push_congr h hne hne']

theorem quiet_congr {window' : List α} (h : window.tail = window'.tail) (hne : 0 < window.length)
    (hne' : 0 < window'.length) (xs : List α) :
    Quiet terminator window xs ↔ Quiet terminator window' xs := by
  cases xs with
  | nil => exact Iff.rfl
  | cons c xs => rw [Quiet, Quiet, push_congr h hne hne']

section Frames

variable [DecidableEq α] {pending xs : List α}

/-- The inputs cut behind every terminator that the window shows, and those that are left. -/
def frames (terminator : List α) : List α → List α → List α → List (List α) × List α
  | _, pending, [] => ([], pending)
  | window, pending, c :: xs =>
      if push window c = terminator then
        let (raws, rest) := frames terminator (push window c) [] xs
        ((pending ++ [c]) :: raws, rest)
      else frames terminator (push window c) (pending ++ [c]) xs

/-- The inputs up to the end of the first record. -/
def firstFrame (terminator : List α) : List α → List α → List α
  | _, [] => []
  | window, c :: xs =>
      if push window c = terminator then [c] else c :: firstFrame terminator (push window c) xs

theorem frames_congr {window' : List α} (h : window.tail = window'.tail) (hne : 0 < window.length)
    (hne' : 0 < window'.length) (pending xs : List α) :
    frames terminator window pending xs = frames terminator window' pending xs := by
  cases xs with
  | nil => rfl
  | cons c xs => rw [frames, frames, push_congr h hne hne']

theorem frames_append (terminator window pending xs ys : List α) :
    frames terminator window pending (xs ++ ys) =
      ((frames terminator window pending xs).1 ++
          (frames terminator (slide window xs) (frames terminator window pending xs).2 ys).1,
        (frames terminator (slide window xs) (frames terminator window pending xs).2 ys).2) := by
  induction xs generalizing window pending with
  | nil => rfl
  | cons c xs ih =>
      rw [List.cons_append, frames, frames, slide_cons]
      split
      · simp only [ih, List.cons_append]
      · rw [ih]

theorem frames_quiet (pending : List α) (h : Quiet terminator window xs) :
    frames terminator window pending xs = ([], pending ++ xs) := by
  induction xs generalizing window pending with
  | nil => simp [frames]
  | cons c xs ih =>
      rw [frames, if_neg h.1, ih (pending ++ [c]) h.2]
      simp

/-- The first terminator ends the first record. -/
theorem frames_complete {pre : List α} {c : α} (pending rest : List α)
    (quiet : Quiet terminator window pre) (complete : push (slide window pre) c = terminator) :
    frames terminator window pending (pre ++ c :: rest) =
      ((pending ++ pre ++ [c]) :: (frames terminator terminator [] rest).1,
        (frames terminator terminator [] rest).2) := by
  rw [frames_append, frames_quiet pending quiet, frames, if_pos complete, complete]
  rfl

theorem firstFrame_quiet (h : Quiet terminator window xs) :
    firstFrame terminator window xs = xs := by
  induction xs generalizing window with
  | nil => rfl
  | cons c xs ih => rw [firstFrame, if_neg h.1, ih h.2]

theorem firstFrame_complete {pre : List α} {c : α} (rest : List α)
    (quiet : Quiet terminator window pre) (complete : push (slide window pre) c = terminator) :
    firstFrame terminator window (pre ++ c :: rest) = pre ++ [c] := by
  induction pre generalizing window with
  | nil => exact if_pos complete
  | cons d pre ih =>
      rw [List.cons_append, firstFrame, if_neg quiet.1, ih quiet.2 complete]
      rfl

theorem length_firstFrame_le (terminator window xs : List α) :
    (firstFrame terminator window xs).length ≤ xs.length := by
  induction xs generalizing window with
  | nil => exact Nat.le_refl 0
  | cons c xs ih =>
      rw [firstFrame]
      split
      · simp
      · simpa using ih (push window c)

end Frames

section Pair

variable {a b x y : α}

@[simp] theorem push_pair (c : α) : push [x, y] c = [y, c] := rfl

/-- A window of two elements holds the last two inputs. -/
theorem push_slide_pair (xs : List α) (c : α) :
    push (slide [x, y] xs) c = [(y :: xs).getLast (List.cons_ne_nil y xs), c] := by
  induction xs generalizing x y with
  | nil => rfl
  | cons d xs ih =>
      rw [slide_cons, push_pair, ih, List.getLast_cons (List.cons_ne_nil d xs)]

theorem slide_concat (xs : List α) (c : α) :
    slide window (xs ++ [c]) = push (slide window xs) c := by
  rw [slide_append]
  rfl

/-- For a terminator of two elements, quiet means that the terminator does not
occur in the input preceded by the window's last element. -/
theorem quiet_pair_iff (xs : List α) :
    Quiet [a, b] [x, y] xs ↔ ¬ [a, b] <:+: y :: xs := by
  induction xs generalizing x y with
  | nil => simp [Quiet, List.infix_cons_iff]
  | cons c xs ih =>
      rw [Quiet, push_pair, ih, show [a, b] <:+: y :: c :: xs ↔ _ from List.infix_cons_iff]
      simp [List.cons_prefix_cons, eq_comm]

/-- A record that does not contain the terminator ends exactly with the terminator
that follows it, unless the window and its first element already form one. -/
theorem quiet_pair_record {record : List α} (hab : a ≠ b) (clean : ¬ [a, b] <:+: record)
    (start : y = a → record.head? ≠ some b) : Quiet [a, b] [x, y] (record ++ [a]) := by
  rw [quiet_pair_iff]
  intro h
  have inner : [a, b] <:+: y :: record := by
    rw [← List.cons_append, List.infix_concat_iff] at h
    rcases h with suffix | inner
    · obtain ⟨front, hfront⟩ := suffix
      have last := congrArg List.getLast? hfront
      rw [List.getLast?_append, List.getLast?_concat] at last
      exact absurd (Option.some.inj last).symm hab
    · exact inner
  rcases List.infix_cons_iff.mp inner with h | h
  · rw [List.cons_prefix_cons] at h
    obtain ⟨rfl, tail⟩ := h
    cases record with
    | nil => simp at tail
    | cons c record =>
        rw [List.cons_prefix_cons] at tail
        exact start rfl (by simp [tail.1])
  · exact clean h

end Pair

end Framing
