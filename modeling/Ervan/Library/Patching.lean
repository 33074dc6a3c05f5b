import Mathlib.Data.List.Basic

/-!
# Writing into memory

Memory as a list of cells. A patch replaces as many cells as it is long, so that what lies
before it and behind it stays as it was.
-/

namespace Patching

variable {α : Type*}

/-- `xs` in the place of the cells from `start` on. -/
def patch (mem : List α) (start : Nat) (xs : List α) : List α :=
  mem.take start ++ (xs ++ mem.drop (start + xs.length))

variable {mem pre old post xs ys : List α} {start n : Nat}

@[simp] theorem patch_nil (mem : List α) (start : Nat) : patch mem start [] = mem :=
  List.take_append_drop start mem

theorem patch_append (hold : old.length = xs.length) (hstart : pre.length = start)
    (post : List α) : patch (pre ++ (old ++ post)) start xs = pre ++ (xs ++ post) := by
  have hdrop : (pre ++ (old ++ post)).drop (start + xs.length) = post := by
    rw [← hstart, ← hold, ← List.length_append, ← List.append_assoc]
    exact List.drop_left
  rw [patch, hdrop, List.take_left' hstart]

/-- The cells a patch replaces, if there are so many. -/
theorem patch_cut (h : start + n ≤ mem.length) : ∃ pre old post,
    mem = pre ++ (old ++ post) ∧ pre.length = start ∧ old.length = n := by
  refine ⟨mem.take start, (mem.drop start).take n, (mem.drop start).drop n, ?_, ?_, ?_⟩
  · rw [List.take_append_drop, List.take_append_drop]
  · rw [List.length_take]
    omega
  · rw [List.length_take, List.length_drop]
    omega

theorem length_patch (h : start + xs.length ≤ mem.length) :
    (patch mem start xs).length = mem.length := by
  obtain ⟨pre, old, post, rfl, hpre, hold⟩ := patch_cut h
  rw [patch_append hold hpre post]
  simp only [List.length_append, hold]

/-- Two patches side by side are one. -/
theorem patch_patch (h : start + xs.length ≤ mem.length) (ys : List α) :
    patch (patch mem start xs) (start + xs.length) ys = patch mem start (xs ++ ys) := by
  obtain ⟨pre, old, post, rfl, rfl, hold⟩ := patch_cut h
  have hdrop (ns : List α) (hns : ns.length = xs.length) :
      (pre ++ (ns ++ post)).drop (pre.length + xs.length + ys.length) = post.drop ys.length := by
    rw [← List.append_assoc, ← hns, ← List.length_append, List.drop_length_add_append]
  rw [patch_append hold rfl post, patch, hdrop xs rfl, patch, List.length_append, ← Nat.add_assoc,
    hdrop old hold, List.take_left' rfl, ← List.append_assoc pre xs post,
    List.take_left' (by rw [List.length_append]), List.append_assoc, List.append_assoc]

end Patching
