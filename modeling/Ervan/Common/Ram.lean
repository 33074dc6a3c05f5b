import Ervan.Common.Join

/-!
# `join` in the memory around its buffer

The writes of `join`, at the addresses that the source computes and with nothing that keeps
them inside the buffer. With an offset that is not negative they stay inside, and then what
`join` does to the buffer and what it returns is what it does to a `Buffer`.
-/

namespace Ervan

/-- The memory around a buffer, addressed from the buffer's first byte. -/
abbrev Ram := Int → UInt8

namespace Ram

def read (m : Ram) (start : Int) (n : Nat) : Bytes := (List.range n).map fun i : Nat => m (start + i)

def store (m : Ram) (a : Int) (c : UInt8) : Ram := Function.update m a c

/-- `memcpy`. -/
def copy (m : Ram) (a : Int) : Bytes → Ram
  | [] => m
  | c :: bs => (m.store a c).copy (a + 1) bs

/-- `push_back`, its loop from the `i`th byte of the span on. -/
def pushBackLoop (m : Ram) (a : Int) : Nat → Ram
  | 0 => m
  | n + 1 => (m.store a (m (a + 1))).pushBackLoop (a + 1) n

/-- `push_back` on the span of `n` bytes at `a`. -/
def pushBack (m : Ram) (a : Int) (n : Nat) (c : UInt8) : Ram :=
  (m.pushBackLoop a (n - 1)).store (a + n - 1) c

/-- The loop of `join`. -/
def joinLoop (cap : Nat) (terminator : Bytes) :
    Bytes → Nat → Ram → Int → Ram × Int × JoinResult
  | [], _, m, offset => (m, offset, ⟨none, [], false⟩)
  | c :: rest, i, m, offset =>
      if 2 ^ 31 ≤ i then (m, offset, ⟨none, [], false⟩)
      else
        let m := m.pushBack cap terminator.length c
        if m.read cap terminator.length = terminator then
          let targetLen := sizeT (offset - terminator.length + 1)
          if cap < targetLen then (m, 0, ⟨none, rest, true⟩)
          else (m.store targetLen nul, 0, ⟨some targetLen, rest, false⟩)
        else joinLoop cap terminator rest (i + 1) m (int32 (offset + 1))

/-- `join` on the buffer of `size` bytes at address 0. -/
def join (size : Nat) (m : Ram) (src : Bytes) (offset : Int) (terminator : Bytes) :
    Ram × Int × JoinResult :=
  if src = [] then (m, offset, ⟨none, [], false⟩)
  else
    let cap := size - terminator.length
    let n := if sizeT offset < cap then min (cap - sizeT offset) src.length else 0
    joinLoop cap terminator src 0 (m.copy offset (src.take n)) offset

/-- Nothing outside the first `size` bytes differs. -/
def Within (size : Nat) (m m' : Ram) : Prop := ∀ a, a < 0 ∨ size ≤ a → m' a = m a

/-- The array at address 0. -/
def buffer (m : Ram) (cap win : Nat) : Buffer cap win where
  target := m.read 0 cap
  tCheck := m.read cap win
  target_length := by simp [read]
  tCheck_length := by simp [read]

section Reads

variable {m m' : Ram} {size cap win : Nat}

theorem Within.refl (size : Nat) (m : Ram) : Within size m m := fun _ _ => rfl

theorem Within.trans {m'' : Ram} (h : Within size m m') (h' : Within size m' m'') :
    Within size m m'' := fun a ha => (h' a ha).trans (h a ha)

theorem Within.mono {size' : Nat} (h : Within size m m') (hle : size ≤ size') :
    Within size' m m' := fun a ha => h a (by omega)

@[simp] theorem length_read (m : Ram) (start : Int) (n : Nat) : (m.read start n).length = n := by
  simp [read]

theorem getElem?_read (m : Ram) (start : Int) {n i : Nat} (h : i < n) :
    (m.read start n)[i]? = some (m (start + i)) := by
  simp [read, h]

theorem store_within (m : Ram) {a : Int} (hlo : 0 ≤ a) (hhi : a < size) (c : UInt8) :
    Within size m (m.store a c) := by
  intro a' ha'
  apply Function.update_of_ne
  omega

theorem copy_within (m : Ram) {a : Int} (hlo : 0 ≤ a) (bs : Bytes) (hhi : a + bs.length ≤ size) :
    Within size m (m.copy a bs) := by
  induction bs generalizing m a with
  | nil => exact Within.refl size m
  | cons c bs ih =>
      rw [List.length_cons] at hhi
      have hstore := m.store_within hlo (show a < size by omega) c
      exact hstore.trans (ih (m.store a c) (by omega) (by omega))

/-- What `memcpy` has copied, and what it has left as it was. -/
theorem copy_apply (m : Ram) (a : Int) (bs : Bytes) (a' : Int) :
    m.copy a bs a' =
      if a ≤ a' ∧ a' < a + bs.length then bs.getD (a' - a).toNat nul else m a' := by
  induction bs generalizing m a with
  | nil =>
      rw [if_neg (by simp)]
      rfl
  | cons c bs ih =>
      rw [copy, ih, List.length_cons]
      by_cases hfirst : a' = a
      · subst hfirst
        rw [if_neg (by omega), if_pos (by omega), store, Function.update_self, Int.sub_self]
        rfl
      · by_cases hinside : a + 1 ≤ a' ∧ a' < a + 1 + bs.length
        · have hindex : (a' - a).toNat = (a' - (a + 1)).toNat + 1 := by omega
          rw [if_pos hinside, if_pos (by omega), hindex, List.getD_cons_succ]
        · rw [if_neg hinside, if_neg (by omega), store, Function.update_of_ne hfirst]

/-- The loop of `push_back` moves every byte but the last one down. -/
theorem pushBackLoop_apply (m : Ram) (a : Int) (n : Nat) (a' : Int) :
    m.pushBackLoop a n a' = if a ≤ a' ∧ a' < a + n then m (a' + 1) else m a' := by
  induction n generalizing m a with
  | zero =>
      rw [if_neg (by omega)]
      rfl
  | succ n ih =>
      rw [pushBackLoop, ih, store]
      by_cases hfirst : a' = a
      · subst hfirst
        rw [if_neg (by omega), if_pos (by omega), Function.update_self]
      · by_cases hinside : a + 1 ≤ a' ∧ a' < a + 1 + n
        · rw [if_pos hinside, if_pos (by omega), Function.update_of_ne (by omega)]
        · rw [if_neg hinside, if_neg (by omega), Function.update_of_ne hfirst]

theorem pushBack_apply (m : Ram) (a : Int) {n : Nat} (hn : 0 < n) (c : UInt8) (a' : Int) :
    m.pushBack a n c a' =
      if a' = a + n - 1 then c else if a ≤ a' ∧ a' < a + n then m (a' + 1) else m a' := by
  rw [pushBack, store]
  by_cases hlast : a' = a + n - 1
  · rw [if_pos hlast, hlast, Function.update_self]
  · rw [if_neg hlast, Function.update_of_ne hlast, pushBackLoop_apply]
    by_cases hinside : a ≤ a' ∧ a' < a + n
    · rw [if_pos hinside, if_pos (by omega)]
    · rw [if_neg hinside, if_neg (by omega)]

end Reads

section Buffers

variable {m m' : Ram} {cap win : Nat}

/-- The array is its bytes. -/
theorem buffer_eq (b : Buffer cap win)
    (h : ∀ i < cap + win, m i = (b.target ++ b.tCheck).getD i nul) : m.buffer cap win = b := by
  have htarget := b.target_length
  have htCheck := b.tCheck_length
  apply Buffer.ext
  · apply List.ext_getElem?
    intro i
    by_cases hi : i < cap
    · have hbyte := h i (by omega)
      rw [List.getD_eq_getElem?_getD, List.getElem?_append_left (by omega),
        List.getElem?_eq_getElem (by omega), Option.getD_some] at hbyte
      rw [buffer, getElem?_read _ _ hi, Int.zero_add, hbyte, List.getElem?_eq_getElem]
    · rw [List.getElem?_eq_none (by simp [buffer]; omega), List.getElem?_eq_none (by omega)]
  · apply List.ext_getElem?
    intro i
    by_cases hi : i < win
    · have hbyte := h (cap + i) (by omega)
      rw [List.getD_eq_getElem?_getD, List.getElem?_append_right (by omega),
        List.getElem?_eq_getElem (by omega), Option.getD_some] at hbyte
      rw [buffer, getElem?_read _ _ hi, ← Int.natCast_add, hbyte, ← List.getElem?_eq_getElem]
      congr 1
      omega
    · rw [List.getElem?_eq_none (by simp [buffer]; omega), List.getElem?_eq_none (by omega)]

/-- A byte of the array. -/
theorem buffer_getD (m : Ram) {i : Nat} (h : i < cap + win) :
    ((m.buffer cap win).target ++ (m.buffer cap win).tCheck).getD i nul = m i := by
  rw [List.getD_eq_getElem?_getD]
  by_cases hi : i < cap
  · rw [List.getElem?_append_left (by simpa [buffer] using hi), buffer, getElem?_read _ _ hi,
      Option.getD_some, Int.zero_add]
  · have hlength : (m.buffer cap win).target.length = cap := (m.buffer cap win).target_length
    rw [List.getElem?_append_right (by omega), hlength, buffer, getElem?_read _ _ (by omega),
      Option.getD_some]
    congr 1
    omega

theorem buffer_mem (m : Ram) {i : Nat} (h : i < cap + win) : (m.buffer cap win).mem i = m i :=
  m.buffer_getD h

theorem buffer_read (m : Ram) {n : Nat} (h : n ≤ cap + win) :
    (m.buffer cap win).mem.read 0 n = m.read 0 n := by
  apply List.map_congr_left
  intro i hi
  rw [List.mem_range] at hi
  rw [Nat.zero_add, m.buffer_mem (by omega), Int.zero_add]

/-- A write before the match window leaves it as it is. -/
theorem Within.tCheck (h : Within cap m m') :
    (m'.buffer cap win).tCheck = (m.buffer cap win).tCheck := by
  apply List.map_congr_left
  intro i _
  exact h _ (by omega)

theorem store_buffer (m : Ram) {i : Nat} (h : i < cap + win) (c : UInt8) :
    (m.store i c).buffer cap win = (m.buffer cap win).poke i c := by
  apply buffer_eq
  intro j hj
  have hlength : (m.buffer cap win).target.length = cap := (m.buffer cap win).target_length
  have hpoke : ((m.buffer cap win).poke i c).target ++ ((m.buffer cap win).poke i c).tCheck =
      ((m.buffer cap win).target ++ (m.buffer cap win).tCheck).set i c := by
    rw [List.set_append, hlength]
    by_cases hi : i < cap
    · simp only [Buffer.poke, if_pos hi]
    · simp only [Buffer.poke, if_neg hi]
      rw [List.set_eq_of_length_le (by omega)]
  rw [hpoke, List.getD_eq_getElem?_getD, store]
  by_cases hji : j = i
  · subst hji
    have hbound : j < ((m.buffer cap win).target ++ (m.buffer cap win).tCheck).length := by
      rw [List.length_append, hlength, (m.buffer cap win).tCheck_length]
      exact h
    rw [List.getElem?_set_self hbound, Option.getD_some, Function.update_self]
  · rw [List.getElem?_set_ne (Ne.symm hji), ← List.getD_eq_getElem?_getD, m.buffer_getD hj,
      Function.update_of_ne (by omega)]

theorem pushBack_buffer (m : Ram) (hwin : 0 < win) (c : UInt8) :
    (m.pushBack cap win c).buffer cap win = (m.buffer cap win).push c := by
  apply Buffer.ext
  · apply List.map_congr_left
    intro i hi
    rw [List.mem_range] at hi
    rw [pushBack_apply _ _ hwin, if_neg (by omega), if_neg (by omega)]
  · apply List.ext_getElem?
    intro i
    change ((m.pushBack cap win c).read cap win)[i]? = (Ervan.pushBack (m.read cap win) c)[i]?
    rw [Ervan.pushBack, List.getElem?_tail]
    by_cases hi : i < win
    · rw [getElem?_read _ _ hi, pushBack_apply _ _ hwin]
      by_cases hlast : i + 1 = win
      · have hlength : i + 1 = (m.read cap win).length := by rw [length_read, hlast]
        rw [if_pos (by omega), hlength, List.getElem?_concat_length]
      · rw [if_neg (by omega), if_pos (by omega),
          List.getElem?_append_left (by rw [length_read]; omega), getElem?_read _ _ (by omega)]
        congr 2
    · rw [List.getElem?_eq_none (by simp; omega), List.getElem?_eq_none (by simp; omega)]

theorem copy_buffer (m : Ram) (i : Nat) (bs : Bytes) (h : i + bs.length ≤ cap) :
    (m.copy i bs).buffer cap win = (m.buffer cap win).copy i bs h := by
  apply Buffer.ext
  · have hlength : (m.buffer cap win).target.length = cap := (m.buffer cap win).target_length
    have htake : ((m.buffer cap win).target.take i).length = i := by
      rw [List.length_take, hlength]
      omega
    apply List.ext_getElem?
    intro j
    change ((m.copy i bs).read 0 cap)[j]? =
      ((m.buffer cap win).target.take i ++ bs ++ (m.buffer cap win).target.drop (i + bs.length))[j]?
    by_cases hj : j < cap
    · rw [getElem?_read _ _ hj, copy_apply, Int.zero_add]
      by_cases hbefore : j < i
      · rw [if_neg (by omega), List.append_assoc, List.getElem?_append_left (by omega),
          List.getElem?_take_of_lt hbefore, buffer, getElem?_read _ _ hj, Int.zero_add]
      · by_cases hinside : j < i + bs.length
        · rw [if_pos (by omega), List.getElem?_append_left (by rw [List.length_append]; omega),
            List.getElem?_append_right (by omega), htake, List.getElem?_eq_getElem (by omega),
            List.getD_eq_getElem?_getD, List.getElem?_eq_getElem (by omega), Option.getD_some]
          congr 2
          omega
        · rw [if_neg (by omega), List.getElem?_append_right (by rw [List.length_append]; omega),
            List.getElem?_drop, List.length_append, htake, buffer]
          have hindex : i + bs.length + (j - (i + bs.length)) = j := by omega
          rw [hindex, getElem?_read _ _ hj, Int.zero_add]
    · rw [List.getElem?_eq_none (by simp; omega), List.getElem?_eq_none (by simp [hlength]; omega)]
  · apply List.map_congr_left
    intro j hj
    rw [copy_apply, if_neg (by omega)]

theorem pushBack_within (m : Ram) (hwin : 0 < win) (c : UInt8) :
    Within (cap + win) m (m.pushBack cap win c) := by
  intro a ha
  rw [pushBack_apply _ _ hwin, if_neg (by omega), if_neg (by omega)]

end Buffers

section Joins

variable {cap : Nat} {terminator : Bytes}

theorem joinLoop_buffer (cap : Nat) (hwin : terminator ≠ []) (src : Bytes) (i : Nat) (m : Ram) (offset : Int) :
    Within (cap + terminator.length) m (joinLoop cap terminator src i m offset).1 ∧
      ((joinLoop cap terminator src i m offset).1.buffer cap terminator.length,
        (joinLoop cap terminator src i m offset).2) =
        Ervan.joinLoop terminator src i (m.buffer cap terminator.length) offset := by
  have hpos : 0 < terminator.length := List.length_pos_iff.mpr hwin
  induction src generalizing i m offset with
  | nil => exact ⟨Within.refl _ m, rfl⟩
  | cons c src ih =>
      rw [joinLoop, Ervan.joinLoop]
      by_cases hi : 2 ^ 31 ≤ i
      · rw [if_pos hi, if_pos hi]
        exact ⟨Within.refl _ m, rfl⟩
      · have hpush : Within (cap + terminator.length) m (m.pushBack cap terminator.length c) :=
          m.pushBack_within hpos c
        simp only [if_neg hi]
        rw [← m.pushBack_buffer hpos c]
        change _ ∧ _ = if (m.pushBack cap terminator.length c).read cap terminator.length = terminator
          then _ else _
        by_cases hc : (m.pushBack cap terminator.length c).read cap terminator.length = terminator
        · simp only [if_pos hc]
          by_cases hfits : cap < sizeT (offset - terminator.length + 1)
          · simp only [if_pos hfits]
            exact ⟨hpush, trivial⟩
          · simp only [if_neg hfits]
            refine ⟨hpush.trans (store_within _ (Int.natCast_nonneg _) (by omega) nul), ?_⟩
            rw [store_buffer _ (by omega)]
        · simp only [if_neg hc]
          obtain ⟨hwithin, heq⟩ := ih (i + 1) (m.pushBack cap terminator.length c)
            (int32 (offset + 1))
          exact ⟨hpush.trans hwithin, heq⟩

/-- With an offset in range `join` writes inside its buffer only, and it does what it does to
the `Buffer` there. -/
theorem join_buffer (hwin : terminator ≠ []) (m : Ram) (src : Bytes) {offset : Nat}
    (hoffset : offset < 2 ^ 64) :
    Within (cap + terminator.length) m (join (cap + terminator.length) m src offset terminator).1 ∧
      ((join (cap + terminator.length) m src offset terminator).1.buffer cap terminator.length,
        (join (cap + terminator.length) m src offset terminator).2) =
        Ervan.join (m.buffer cap terminator.length) src offset terminator := by
  unfold join Ervan.join
  by_cases hsrc : src = []
  · rw [if_pos hsrc, if_pos hsrc]
    exact ⟨Within.refl _ m, rfl⟩
  · rw [if_neg hsrc, if_neg hsrc, Nat.add_sub_cancel]
    simp only [sizeT_natCast hoffset]
    by_cases hcap : offset < cap
    · rw [if_pos hcap, dif_pos hcap]
      have hcopied : offset + (src.take (min (cap - offset) src.length)).length ≤ cap := by
        rw [List.length_take]
        omega
      have hwithin : Within (cap + terminator.length) m
          (m.copy offset (src.take (min (cap - offset) src.length))) :=
        m.copy_within (Int.natCast_nonneg _) _ (by omega)
      obtain ⟨hloop, heq⟩ := joinLoop_buffer cap hwin src 0
        (m.copy offset (src.take (min (cap - offset) src.length))) offset
      rw [m.copy_buffer _ _ hcopied] at heq
      exact ⟨hwithin.trans hloop, heq⟩
    · rw [if_neg hcap, dif_neg hcap, List.take_zero]
      exact joinLoop_buffer cap hwin src 0 m offset

end Joins

end Ram

end Ervan
