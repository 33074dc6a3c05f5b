import Ervan.Library.Framing
import Mathlib.Data.Nat.Find

/-!
# Streams and their terminators

A stream is cut at the leftmost occurrence of a terminator, and what follows it is cut again. A
receiver that shifts the stream through a window sees every occurrence, also one that shares
elements with the occurrence before it or with what the window held at first. It cuts the stream
as it should exactly when there is no such occurrence.
-/

namespace Framing

variable {α : Type*} {terminator window xs ys record rest : List α} {i j : Nat}

/-- The terminator stands at this place. -/
def OccursAt (terminator xs : List α) (i : Nat) : Prop := terminator <+: xs.drop i

/-- The records in front of the leftmost terminators that do not overlap, and what follows the
last of them. -/
inductive Splits (terminator : List α) : List α → List (List α) → List α → Prop
  | tail {xs : List α} (none : ¬ terminator <:+: xs) : Splits terminator xs [] xs
  | record {record rest tail : List α} {records : List (List α)}
      (first : ¬ terminator <:+: (record ++ terminator).dropLast)
      (next : Splits terminator rest records tail) :
      Splits terminator (record ++ terminator ++ rest) (record :: records) tail

/-- No two terminators of the stream overlap, and none overlaps what the window holds. -/
structure Apart (terminator window xs : List α) : Prop where
  window : ∀ i, 0 < i → OccursAt terminator (window ++ xs) i → window.length ≤ i
  stream : ∀ i j, i < j → OccursAt terminator xs i → OccursAt terminator xs j →
    i + terminator.length ≤ j

section Occurrences

theorem occursAt_append_length (xs ys : List α) (i : Nat) :
    OccursAt terminator (xs ++ ys) (xs.length + i) ↔ OccursAt terminator ys i := by
  rw [OccursAt, List.drop_length_add_append, OccursAt]

theorem OccursAt.le (h : OccursAt terminator xs i) (hne : terminator ≠ []) :
    i + terminator.length ≤ xs.length := by
  have hlength := h.length_le
  have hpos := List.length_pos_iff.mpr hne
  rw [List.length_drop] at hlength
  omega

theorem OccursAt.append (h : OccursAt terminator xs i) (hne : terminator ≠ []) (ys : List α) :
    OccursAt terminator (xs ++ ys) i := by
  have hlt := h.le hne
  rw [OccursAt, List.drop_append_of_le_length (by omega)]
  exact h.trans (List.prefix_append _ ys)

theorem OccursAt.of_append (h : OccursAt terminator (xs ++ ys) i)
    (hle : i + terminator.length ≤ xs.length) : OccursAt terminator xs i := by
  rw [OccursAt, List.drop_append_of_le_length (by omega)] at h
  refine List.prefix_of_prefix_length_le h (List.prefix_append _ ys) ?_
  rw [List.length_drop]
  omega

theorem infix_iff_occursAt : terminator <:+: xs ↔ ∃ i, OccursAt terminator xs i := by
  constructor
  · rintro ⟨front, back, rfl⟩
    exact ⟨front.length, by
      rw [OccursAt, List.append_assoc, List.drop_left]
      exact List.prefix_append terminator back⟩
  · rintro ⟨i, h⟩
    exact h.isInfix.trans (List.drop_suffix i xs).isInfix

/-- Nothing stands in front of the first record's terminator. -/
theorem OccursAt.after_first {record : List α}
    (h : OccursAt terminator (record ++ terminator ++ rest) i)
    (first : ¬ terminator <:+: (record ++ terminator).dropLast) : record.length ≤ i := by
  by_contra hlt
  obtain ⟨last, hlast⟩ := List.dropLast_prefix (record ++ terminator)
  rw [← hlast, List.append_assoc] at h
  refine first (infix_iff_occursAt.mpr ⟨i, h.of_append ?_⟩)
  rw [List.length_dropLast, List.length_append]
  omega

theorem occursAt_record (record rest : List α) :
    OccursAt terminator (record ++ terminator ++ rest) record.length := by
  rw [OccursAt, List.append_assoc, List.drop_left]
  exact List.prefix_append terminator rest

end Occurrences

section Windows

theorem push_eq (hne : window ≠ []) (c : α) : push window c = window.tail ++ [c] := by
  rw [push, List.tail_append_of_ne_nil hne]

/-- The window shows the last elements that went through it. -/
theorem slide_eq_drop (window xs : List α) : slide window xs = (window ++ xs).drop xs.length := by
  induction xs generalizing window with
  | nil => simp
  | cons c xs ih =>
      rw [slide_cons, ih]
      cases window with
      | nil => simp [push]
      | cons a window => simp [push]

/-- The window shows the terminator behind a record. -/
theorem slide_terminator (hlen : window.length = terminator.length) (record : List α) :
    slide window (record ++ terminator) = terminator := by
  have hdrop : (record ++ terminator).length = (window ++ record).length := by
    rw [List.length_append, List.length_append, hlen, Nat.add_comm]
  rw [slide_eq_drop, ← List.append_assoc, hdrop, List.drop_left]

/-- The window shows the terminator when it occurs, except for the place where the window is. -/
theorem quiet_iff (hlen : window.length = terminator.length) (hne : terminator ≠ []) :
    Quiet terminator window xs ↔ ¬ terminator <:+: window.tail ++ xs := by
  have hpos := List.length_pos_iff.mpr hne
  induction xs generalizing window with
  | nil =>
      refine iff_of_true trivial fun h => ?_
      have hle := h.length_le
      rw [List.append_nil, List.length_tail] at hle
      omega
  | cons c xs ih =>
      have hwindow : window ≠ [] := List.length_pos_iff.mp (by omega)
      have hlen' : (push window c).length = terminator.length := by rw [length_push, hlen]
      have hshown : window.tail ++ c :: xs = push window c ++ xs := by
        rw [push_eq hwindow, List.append_assoc]
        rfl
      obtain ⟨a, tail, hpush⟩ := List.exists_cons_of_length_pos (hlen'.symm ▸ hpos)
      have hhere : terminator <+: push window c ++ xs ↔ push window c = terminator := by
        constructor
        · intro h
          exact ((List.prefix_of_prefix_length_le h (List.prefix_append _ xs)
            (Nat.le_of_eq hlen'.symm)).eq_of_length hlen'.symm).symm
        · intro h
          rw [h]
          exact List.prefix_append terminator xs
      have hrest : Quiet terminator (a :: tail) xs ↔ ¬ terminator <:+: tail ++ xs := by
        simpa only [hpush, List.tail_cons] using ih hlen'
      rw [Quiet, hshown, Ne, ← hhere, hpush, hrest, List.cons_append, List.infix_cons_iff, not_or]

/-- Without the window, whose first place does not count. -/
theorem quiet_iff_occursAt (hlen : window.length = terminator.length) (hne : terminator ≠ []) :
    Quiet terminator window xs ↔ ∀ i, 0 < i → ¬ OccursAt terminator (window ++ xs) i := by
  have hpos := List.length_pos_iff.mpr hne
  obtain ⟨a, tail, rfl⟩ := List.exists_cons_of_length_pos (hlen.symm ▸ hpos)
  rw [quiet_iff hlen hne, infix_iff_occursAt, not_exists]
  constructor
  · rintro h (_ | i) hi
    · exact absurd hi (Nat.lt_irrefl 0)
    · exact h i
  · exact fun h i => h (i + 1) (Nat.succ_pos i)

end Windows

section Apart

variable (hlen : window.length = terminator.length) (hne : terminator ≠ [])

include hlen hne

/-- A stream without a terminator completes none when there is none at its beginning either. -/
theorem quiet_iff_apart (none : ¬ terminator <:+: xs) :
    Quiet terminator window xs ↔ Apart terminator window xs := by
  rw [quiet_iff_occursAt hlen hne]
  have hnone (i : Nat) : ¬ OccursAt terminator xs i := fun h =>
    none (infix_iff_occursAt.mpr ⟨i, h⟩)
  constructor
  · exact fun quiet => ⟨fun i hi h => absurd h (quiet i hi), fun i j _ h => absurd h (hnone i)⟩
  · intro apart i hi h
    have hle := apart.window i hi h
    rw [← Nat.add_sub_of_le hle, occursAt_append_length] at h
    exact hnone _ h

/-- The first record is found when no terminator overlaps the window. -/
theorem quiet_record_iff {record : List α}
    (first : ¬ terminator <:+: (record ++ terminator).dropLast) (rest : List α) :
    Quiet terminator window (record ++ terminator).dropLast ↔
      ∀ i, 0 < i → OccursAt terminator (window ++ (record ++ terminator ++ rest)) i →
        window.length ≤ i := by
  have hpos := List.length_pos_iff.mpr hne
  have hdrop : (record ++ terminator).dropLast.length = record.length + terminator.length - 1 := by
    rw [List.length_dropLast, List.length_append]
  obtain ⟨last, hlast⟩ := List.dropLast_prefix (record ++ terminator)
  rw [quiet_iff_occursAt hlen hne]
  constructor
  · intro quiet i hi h
    by_contra hlt
    refine quiet i hi ?_
    rw [← hlast, List.append_assoc, ← List.append_assoc] at h
    refine h.of_append ?_
    rw [List.length_append]
    omega
  · intro clear i hi h
    have hle : window.length ≤ i := by
      refine clear i hi ?_
      rw [← hlast, List.append_assoc, ← List.append_assoc]
      exact h.append hne _
    rw [← Nat.add_sub_of_le hle, occursAt_append_length] at h
    exact first (infix_iff_occursAt.mpr ⟨_, h⟩)

omit hlen hne in
/-- The other terminators overlap neither each other nor the first one. -/
theorem stream_record_iff {record : List α}
    (first : ¬ terminator <:+: (record ++ terminator).dropLast) (rest : List α) :
    (∀ i j, i < j → OccursAt terminator (record ++ terminator ++ rest) i →
        OccursAt terminator (record ++ terminator ++ rest) j → i + terminator.length ≤ j) ↔
      Apart terminator terminator rest := by
  have hrest (i : Nat) : OccursAt terminator (record ++ terminator ++ rest) (record.length + i) ↔
      OccursAt terminator (terminator ++ rest) i := by
    rw [List.append_assoc, occursAt_append_length]
  constructor
  · intro stream
    constructor
    · intro i hi h
      have hle := stream record.length (record.length + i) (by omega) (occursAt_record record rest)
        ((hrest i).mpr h)
      omega
    · intro i j hij hi hj
      rw [← occursAt_append_length terminator, ← hrest] at hi hj
      have hle := stream _ _ (by omega) hi hj
      omega
  · intro apart i j hij hi hj
    obtain ⟨i, rfl⟩ := Nat.exists_eq_add_of_le (hi.after_first first)
    obtain ⟨j, rfl⟩ := Nat.exists_eq_add_of_le (hj.after_first first)
    rw [hrest] at hi hj
    have hj' := apart.window j (by omega) hj
    rcases Nat.eq_zero_or_pos i with rfl | hpos
    · omega
    · have hi' := apart.window i hpos hi
      obtain ⟨i, rfl⟩ := Nat.exists_eq_add_of_le hi'
      obtain ⟨j, rfl⟩ := Nat.exists_eq_add_of_le hj'
      rw [occursAt_append_length] at hi hj
      have hle := apart.stream i j (by omega) hi hj
      omega

/-- Terminators are apart record by record. -/
theorem apart_record_iff {record : List α}
    (first : ¬ terminator <:+: (record ++ terminator).dropLast) (rest : List α) :
    Apart terminator window (record ++ terminator ++ rest) ↔
      Quiet terminator window (record ++ terminator).dropLast ∧
        Apart terminator terminator rest := by
  rw [quiet_record_iff hlen hne first rest, ← stream_record_iff first rest]
  exact ⟨fun h => ⟨h.window, h.stream⟩, fun h => ⟨h.1, h.2⟩⟩

omit hlen hne in
/-- A terminator that does not begin as it ends cannot overlap another one, and it cannot begin in
a window in which its first element does not occur. -/
theorem apart_of_unbordered
    (unbordered : ∀ i, 0 < i → i < terminator.length → ¬ terminator.drop i <+: terminator)
    (fresh : ∀ a ∈ window, terminator.head? ≠ some a) (hne : terminator ≠ []) (xs : List α) :
    Apart terminator window xs := by
  constructor
  · intro i hi h
    by_contra hlt
    obtain ⟨c, rest, rfl⟩ := List.exists_cons_of_ne_nil hne
    rw [OccursAt, List.drop_append_of_le_length (by omega),
      List.drop_eq_getElem_cons (by omega), List.cons_append, List.cons_prefix_cons] at h
    exact fresh _ (List.getElem_mem (by omega)) (congrArg some h.1)
  · intro i j hij hi hj
    by_contra hlt
    obtain ⟨rest, hrest⟩ := hi
    refine unbordered (j - i) (by omega) (by omega) ?_
    have hshift : xs.drop j = terminator.drop (j - i) ++ rest := by
      rw [← List.drop_append_of_le_length (by omega), hrest, List.drop_drop]
      congr 1
      omega
    rw [OccursAt, hshift] at hj
    refine List.prefix_of_prefix_length_le (List.prefix_append _ rest) hj ?_
    rw [List.length_drop]
    omega

end Apart

section Frames

variable [DecidableEq α] {records : List (List α)} {tail : List α}

/-- The last input of the first record completes the terminator. -/
theorem frames_record {record : List α} (hne : terminator ≠ [])
    (hlen : window.length = terminator.length)
    (quiet : Quiet terminator window (record ++ terminator).dropLast) (rest : List α) :
    frames terminator window [] (record ++ terminator ++ rest) =
      ((record ++ terminator) :: (frames terminator terminator [] rest).1,
        (frames terminator terminator [] rest).2) := by
  have hne' : record ++ terminator ≠ [] := by simp [hne]
  have hcut := List.dropLast_append_getLast hne'
  have complete := slide_terminator hlen record
  rw [← hcut, slide_concat] at complete
  have hframes := frames_complete [] rest quiet complete
  rw [List.nil_append, hcut, ← List.singleton_append, ← List.append_assoc, hcut] at hframes
  exact hframes

/-- A receiver cuts the stream at its terminators when they are apart. -/
theorem Splits.frames_eq (h : Splits terminator xs records tail) (hne : terminator ≠ [])
    (hlen : window.length = terminator.length) (apart : Apart terminator window xs) :
    frames terminator window [] xs = (records.map (· ++ terminator), tail) := by
  induction h generalizing window with
  | tail none =>
      rw [frames_quiet [] ((quiet_iff_apart hlen hne none).mpr apart)]
      rfl
  | record first next ih =>
      obtain ⟨quiet, apart⟩ := (apart_record_iff hlen hne first _).mp apart
      rw [frames_record hne hlen quiet, ih rfl apart]
      rfl

theorem quiet_of_frames (pending : List α) (h : (frames terminator window pending xs).1 = []) :
    Quiet terminator window xs := by
  rcases quiet_or_first terminator window xs with quiet | ⟨pre, c, rest, rfl, quiet, complete⟩
  · exact quiet
  · rw [frames_complete pending rest quiet complete] at h
    cases h

/-- A receiver that finds the ends of the records has not seen any other terminator. -/
theorem Splits.apart (h : Splits terminator xs records tail) (hne : terminator ≠ [])
    (hlen : window.length = terminator.length)
    (ends : (frames terminator window [] xs).1.map List.length =
      records.map fun record => record.length + terminator.length) :
    Apart terminator window xs := by
  induction h generalizing window with
  | tail none =>
      refine (quiet_iff_apart hlen hne none).mp (quiet_of_frames [] ?_)
      exact List.map_eq_nil_iff.mp ends
  | @record record rest tail records first next ih =>
      have hfirst : Quiet terminator window (record ++ terminator).dropLast := by
        rcases quiet_or_first terminator window (record ++ terminator ++ rest) with
          quiet | ⟨pre, c, rest', heq, quiet, complete⟩
        · rw [frames_quiet [] quiet] at ends
          cases ends
        · rw [heq, frames_complete [] rest' quiet complete] at ends
          have hlength := (List.cons.inj ends).1
          simp only [List.nil_append, List.length_append, List.length_singleton] at hlength
          rw [← List.singleton_append, ← List.append_assoc] at heq
          obtain ⟨hpre, -⟩ := List.append_inj heq (by simp [hlength])
          rw [hpre, List.dropLast_concat]
          exact quiet
      refine (apart_record_iff hlen hne first rest).mpr ⟨hfirst, ih rfl ?_⟩
      rw [frames_record hne hlen hfirst] at ends
      exact (List.cons.inj ends).2

end Frames

section Cutting

variable {records records' : List (List α)} {tail tail' : List α}

theorem exists_first (hne : terminator ≠ []) (h : terminator <:+: xs) :
    ∃ record rest, xs = record ++ terminator ++ rest ∧
      ¬ terminator <:+: (record ++ terminator).dropLast := by
  classical
  have hoccurs := infix_iff_occursAt.mp h
  obtain ⟨rest, hrest⟩ := Nat.find_spec hoccurs
  have hxs : xs = xs.take (Nat.find hoccurs) ++ terminator ++ rest := by
    rw [List.append_assoc, hrest, List.take_append_drop]
  refine ⟨_, rest, hxs, fun hinner => ?_⟩
  obtain ⟨i, hi⟩ := infix_iff_occursAt.mp hinner
  have hle := hi.le hne
  rw [List.length_dropLast, List.length_append, List.length_take] at hle
  obtain ⟨last, hlast⟩ := List.dropLast_prefix (xs.take (Nat.find hoccurs) ++ terminator)
  have hearlier : OccursAt terminator xs i := by
    rw [hxs, ← hlast, List.append_assoc]
    exact hi.append hne _
  have hpos := List.length_pos_iff.mpr hne
  exact Nat.find_min hoccurs (by omega) hearlier

/-- Every stream can be cut. -/
theorem exists_splits (hne : terminator ≠ []) (xs : List α) :
    ∃ records tail, Splits terminator xs records tail := by
  have hpos := List.length_pos_iff.mpr hne
  induction hn : xs.length using Nat.strongRecOn generalizing xs with
  | ind n ih =>
      by_cases h : terminator <:+: xs
      · obtain ⟨record, rest, rfl, first⟩ := exists_first hne h
        simp only [List.length_append] at hn
        obtain ⟨records, tail, next⟩ := ih rest.length (by omega) rest rfl
        exact ⟨_, tail, .record first next⟩
      · exact ⟨[], xs, .tail h⟩

/-- There is one way to cut a stream. -/
theorem Splits.unique (h : Splits terminator xs records tail)
    (h' : Splits terminator xs records' tail') : records = records' ∧ tail = tail' := by
  induction h generalizing records' with
  | tail none =>
      cases h' with
      | tail none' => exact ⟨rfl, rfl⟩
      | record first next => exact absurd (List.infix_append _ _ _) none
  | @record record rest tail records first next ih =>
      generalize hxs : record ++ terminator ++ rest = xs at h'
      cases h' with
      | tail none' => exact absurd (hxs ▸ List.infix_append _ _ _) none'
      | @record record' rest' _ records' first' next' =>
          have hle : record'.length ≤ record.length :=
            (hxs ▸ occursAt_record record rest).after_first first'
          have hge : record.length ≤ record'.length :=
            (hxs ▸ occursAt_record record' rest').after_first first
          rw [List.append_assoc, List.append_assoc] at hxs
          obtain ⟨rfl, hrest⟩ := List.append_inj hxs (Nat.le_antisymm hge hle)
          obtain rfl := List.append_cancel_left hrest
          obtain ⟨rfl, rfl⟩ := ih next'
          exact ⟨rfl, rfl⟩

end Cutting

end Framing
