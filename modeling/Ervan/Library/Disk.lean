import Ervan.Library.Interleaving
import Mathlib.Logic.Function.Basic

/-!
# A directory that clients share

Clients open files of one directory by their paths and then work on the inode, whatever becomes
of the path. A client has one open file at a time. A client whose paths nobody else opens or
unlinks has the disk to itself, in any interleaving.
-/

open Function

/-- `γ` is what an inode holds, and `β` is where in it a client is. -/
structure Disk (ι κ γ β : Type*) where
  inodes : Nat → γ
  /-- The first number that is not in use. -/
  next : Nat
  directory : κ → Option Nat
  handles : ι → Option (Nat × β)

namespace Disk

/-- `access` is anything done to the open file: it reads, writes or moves. -/
inductive Op (κ γ β : Type*)
  | open_ (path : κ)
  | access (f : γ × β → γ × β)
  | close
  | unlink (path : κ)

variable {ι κ γ β : Type*} [DecidableEq ι] [DecidableEq κ] [Inhabited γ] [Inhabited β]

/-- A file that is opened is created if it does not exist. -/
def step (d : Disk ι κ γ β) : ι × Op κ γ β → Disk ι κ γ β
  | (i, .open_ path) =>
      match d.directory path with
      | some n => { d with handles := update d.handles i (some (n, default)) }
      | none =>
          { inodes := update d.inodes d.next default
            next := d.next + 1
            directory := update d.directory path (some d.next)
            handles := update d.handles i (some (d.next, default)) }
  | (i, .access f) =>
      match d.handles i with
      | some (n, b) =>
          { d with
            inodes := update d.inodes n (f (d.inodes n, b)).1
            handles := update d.handles i (some (n, (f (d.inodes n, b)).2)) }
      | none => d
  | (i, .close) => { d with handles := update d.handles i none }
  | (_, .unlink path) => { d with directory := update d.directory path none }

/-- The open file of a client. -/
def opened (d : Disk ι κ γ β) (i : ι) : Option (γ × β) :=
  (d.handles i).map fun h => (d.inodes h.1, h.2)

/-- What is found at a path. -/
def lookup (d : Disk ι κ γ β) (path : κ) : Option γ := (d.directory path).map d.inodes

/-- The open file of the client is at the path. -/
def Linked (d : Disk ι κ γ β) (i : ι) (path : κ) : Prop :=
  ∃ n b, d.directory path = some n ∧ d.handles i = some (n, b)

/-- The client opens and unlinks its own paths only. -/
def Owns (owner : κ → ι) : ι × Op κ γ β → Prop
  | (i, .open_ path) => owner path = i
  | (i, .unlink path) => owner path = i
  | _ => True

/-- No inode is at two paths or open twice, or at the path of one client and open at another. -/
structure Separate (owner : κ → ι) (d : Disk ι κ γ β) : Prop where
  directory_lt : ∀ path n, d.directory path = some n → n < d.next
  handle_lt : ∀ i n b, d.handles i = some (n, b) → n < d.next
  one_path : ∀ p q n, d.directory p = some n → d.directory q = some n → p = q
  one_handle : ∀ i j n b b', d.handles i = some (n, b) → d.handles j = some (n, b') → i = j
  own : ∀ i path n b, d.directory path = some n → d.handles i = some (n, b) → owner path = i

/-- Two disks between which a client cannot tell. -/
structure Same (owner : κ → ι) (i : ι) (d d' : Disk ι κ γ β) : Prop where
  opened : d.opened i = d'.opened i
  lookup : ∀ path, owner path = i → d.lookup path = d'.lookup path
  linked : ∀ path, owner path = i → (d.Linked i path ↔ d'.Linked i path)

section Fields

variable {d : Disk ι κ γ β} {i j : ι} {path p : κ} {n : Nat} {b : β} {f : γ × β → γ × β}

theorem step_existing (h : d.directory path = some n) : d.step (i, .open_ path) =
    { d with handles := update d.handles i (some (n, default)) } := by
  simp only [step, h]

theorem step_new (h : d.directory path = none) : d.step (i, .open_ path) =
    { inodes := update d.inodes d.next default
      next := d.next + 1
      directory := update d.directory path (some d.next)
      handles := update d.handles i (some (d.next, default)) } := by
  simp only [step, h]

theorem step_access (h : d.handles i = some (n, b)) : d.step (i, .access f) =
    { d with
      inodes := update d.inodes n (f (d.inodes n, b)).1
      handles := update d.handles i (some (n, (f (d.inodes n, b)).2)) } := by
  simp only [step, h]

theorem step_access_none (h : d.handles i = none) (f : γ × β → γ × β) :
    d.step (i, .access f) = d := by
  simp only [step, h]

omit [DecidableEq ι] [DecidableEq κ] [Inhabited γ] [Inhabited β] in
theorem lookup_isSome (d : Disk ι κ γ β) (path : κ) :
    (d.lookup path).isSome = (d.directory path).isSome := Option.isSome_map

end Fields

/-- Nobody has a file open, and no file has two paths. -/
structure Resting (d : Disk ι κ γ β) : Prop where
  handles : ∀ i, d.handles i = none
  directory_lt : ∀ path n, d.directory path = some n → n < d.next
  one_path : ∀ p q n, d.directory p = some n → d.directory q = some n → p = q

section Separate

variable {owner : κ → ι} {d : Disk ι κ γ β} {i j : ι}

omit [DecidableEq ι] [DecidableEq κ] [Inhabited γ] [Inhabited β] in
theorem Resting.separate (h : d.Resting) (owner : κ → ι) : d.Separate owner where
  directory_lt := h.directory_lt
  handle_lt i n b hi := by rw [h.handles i] at hi; cases hi
  one_path := h.one_path
  one_handle i j n b b' hi _ := by rw [h.handles i] at hi; cases hi
  own i path n b _ hi := by rw [h.handles i] at hi; cases hi

theorem Separate.open_ (h : d.Separate owner) {path : κ} (howns : owner path = i) :
    (d.step (i, .open_ path)).Separate owner := by
  cases hpath : d.directory path with
  | some n =>
      rw [step_existing hpath]
      refine ⟨h.directory_lt, fun j m b hj => ?_, h.one_path, fun j k m b b' hj hk => ?_,
        fun j p m b hp hj => ?_⟩
      · by_cases hji : j = i
        · subst hji
          simp only [update_self, Option.some.injEq, Prod.mk.injEq] at hj
          exact hj.1 ▸ h.directory_lt path n hpath
        · exact h.handle_lt j m b (by simpa [hji] using hj)
      · have howner (k : ι) (b : β) (hk : d.handles k = some (n, b)) : k = i :=
          (h.own k path n b hpath hk).symm.trans howns
        by_cases hji : j = i <;> by_cases hki : k = i
        · rw [hji, hki]
        · simp only [hji, update_self, Option.some.injEq, Prod.mk.injEq, ne_eq, hki,
            not_false_eq_true, update_of_ne] at hj hk
          exact absurd (howner k b' (hj.1 ▸ hk)) hki
        · simp only [hki, update_self, Option.some.injEq, Prod.mk.injEq, ne_eq, hji,
            not_false_eq_true, update_of_ne] at hj hk
          exact absurd (howner j b (hk.1 ▸ hj)) hji
        · exact h.one_handle j k m b b' (by simpa [hji] using hj) (by simpa [hki] using hk)
      · by_cases hji : j = i
        · subst hji
          simp only [update_self, Option.some.injEq, Prod.mk.injEq] at hj
          rw [h.one_path p path m hp (hj.1 ▸ hpath), howns]
        · exact h.own j p m b hp (by simpa [hji] using hj)
  | none =>
      rw [step_new hpath]
      have hdirectory (p : κ) (m : Nat) (hp : update d.directory path (some d.next) p = some m) :
          p = path ∧ m = d.next ∨ d.directory p = some m ∧ m < d.next := by
        by_cases hpath' : p = path
        · subst hpath'
          simp only [update_self, Option.some.injEq] at hp
          exact Or.inl ⟨rfl, hp.symm⟩
        · have hp : d.directory p = some m := by simpa [hpath'] using hp
          exact Or.inr ⟨hp, h.directory_lt p m hp⟩
      have hhandles (j : ι) (m : Nat) (b : β)
          (hj : update d.handles i (some (d.next, default)) j = some (m, b)) :
          j = i ∧ m = d.next ∨ d.handles j = some (m, b) ∧ m < d.next := by
        by_cases hji : j = i
        · subst hji
          simp only [update_self, Option.some.injEq, Prod.mk.injEq] at hj
          exact Or.inl ⟨rfl, hj.1.symm⟩
        · have hj : d.handles j = some (m, b) := by simpa [hji] using hj
          exact Or.inr ⟨hj, h.handle_lt j m b hj⟩
      refine ⟨fun p m hp => ?_, fun j m b hj => ?_, fun p q m hp hq => ?_,
        fun j k m b b' hj hk => ?_, fun j p m b hp hj => ?_⟩
      · change m < d.next + 1
        rcases hdirectory p m hp with ⟨-, rfl⟩ | ⟨-, hlt⟩ <;> omega
      · change m < d.next + 1
        rcases hhandles j m b hj with ⟨-, rfl⟩ | ⟨-, hlt⟩ <;> omega
      · rcases hdirectory p m hp with ⟨rfl, rfl⟩ | ⟨hp, hlt⟩ <;>
          rcases hdirectory q _ hq with ⟨rfl, heq⟩ | ⟨hq, hlt'⟩
        · rfl
        · omega
        · omega
        · exact h.one_path p q m hp hq
      · rcases hhandles j m b hj with ⟨rfl, rfl⟩ | ⟨hj, hlt⟩ <;>
          rcases hhandles k _ b' hk with ⟨rfl, heq⟩ | ⟨hk, hlt'⟩
        · rfl
        · omega
        · omega
        · exact h.one_handle j k m b b' hj hk
      · rcases hdirectory p m hp with ⟨rfl, rfl⟩ | ⟨hp, hlt⟩ <;>
          rcases hhandles j _ b hj with ⟨rfl, heq⟩ | ⟨hj, hlt'⟩
        · exact howns
        · omega
        · omega
        · exact h.own j p m b hp hj

theorem Separate.access (h : d.Separate owner) (i : ι) (f : γ × β → γ × β) :
    (d.step (i, .access f)).Separate owner := by
  cases hi : d.handles i with
  | none =>
      rw [step_access_none hi]
      exact h
  | some x =>
      obtain ⟨n, c⟩ := x
      rw [step_access hi]
      have hhandles (j : ι) (m : Nat) (b : β)
          (hj : update d.handles i (some (n, (f (d.inodes n, c)).2)) j = some (m, b)) :
          ∃ b', d.handles j = some (m, b') := by
        by_cases hji : j = i
        · subst hji
          simp only [update_self, Option.some.injEq, Prod.mk.injEq] at hj
          exact ⟨c, hj.1 ▸ hi⟩
        · exact ⟨b, by simpa [hji] using hj⟩
      refine ⟨h.directory_lt, fun j m b hj => ?_, h.one_path, fun j k m b b' hj hk => ?_,
        fun j p m b hp hj => ?_⟩
      · obtain ⟨b', hj⟩ := hhandles j m b hj
        exact h.handle_lt j m b' hj
      · obtain ⟨_, hj⟩ := hhandles j m b hj
        obtain ⟨_, hk⟩ := hhandles k m b' hk
        exact h.one_handle j k m _ _ hj hk
      · obtain ⟨b', hj⟩ := hhandles j m b hj
        exact h.own j p m b' hp hj

theorem Separate.close (h : d.Separate owner) (i : ι) :
    (d.step (i, .close)).Separate owner := by
  have hhandles (j : ι) (m : Nat) (b : β) (hj : update d.handles i none j = some (m, b)) :
      d.handles j = some (m, b) := by
    by_cases hji : j = i
    · subst hji
      simp only [update_self, reduceCtorEq] at hj
    · simpa [hji] using hj
  exact ⟨h.directory_lt, fun j m b hj => h.handle_lt j m b (hhandles j m b hj), h.one_path,
    fun j k m b b' hj hk => h.one_handle j k m b b' (hhandles j m b hj) (hhandles k m b' hk),
    fun j p m b hp hj => h.own j p m b hp (hhandles j m b hj)⟩

theorem Separate.unlink (h : d.Separate owner) (i : ι) (path : κ) :
    (d.step (i, .unlink path)).Separate owner := by
  have hdirectory (p : κ) (m : Nat) (hp : update d.directory path none p = some m) :
      d.directory p = some m := by
    by_cases hpath : p = path
    · subst hpath
      simp only [update_self, reduceCtorEq] at hp
    · simpa [hpath] using hp
  exact ⟨fun p m hp => h.directory_lt p m (hdirectory p m hp), h.handle_lt,
    fun p q m hp hq => h.one_path p q m (hdirectory p m hp) (hdirectory q m hq), h.one_handle,
    fun j p m b hp hj => h.own j p m b (hdirectory p m hp) hj⟩

theorem Separate.step (h : d.Separate owner) {a : ι × Op κ γ β} (howns : Owns owner a) :
    (d.step a).Separate owner := by
  obtain ⟨i, op⟩ := a
  cases op with
  | open_ path => exact h.open_ howns
  | access f => exact h.access i f
  | close => exact h.close i
  | unlink path => exact h.unlink i path

end Separate

section Others

variable {owner : κ → ι} {d : Disk ι κ γ β} {i j : ι} {op : Op κ γ β} {path : κ}

/-- A step leaves the handles of the others alone. -/
theorem handles_other (hji : j ≠ i) (op : Op κ γ β) : (d.step (j, op)).handles i = d.handles i := by
  cases op with
  | open_ path =>
      cases hpath : d.directory path with
      | some n => rw [step_existing hpath]; exact update_of_ne hji.symm _ _
      | none => rw [step_new hpath]; exact update_of_ne hji.symm _ _
  | access f =>
      cases hj : d.handles j with
      | some x => rw [step_access hj]; exact update_of_ne hji.symm _ _
      | none => rw [step_access_none hj]
  | close => exact update_of_ne hji.symm _ _
  | unlink path => rfl

/-- A step leaves the paths of the others alone. -/
theorem directory_other (howns : Owns owner (j, op)) (hpath : owner path ≠ j) :
    (d.step (j, op)).directory path = d.directory path := by
  cases op with
  | open_ q =>
      have hne : path ≠ q := fun heq => hpath (heq ▸ howns)
      cases hq : d.directory q with
      | some n => rw [step_existing hq]
      | none => rw [step_new hq]; exact update_of_ne hne _ _
  | access f =>
      cases hj : d.handles j with
      | some x => rw [step_access hj]
      | none => rw [step_access_none hj]
  | close => rfl
  | unlink q =>
      have hne : path ≠ q := fun heq => hpath (heq ▸ howns)
      exact update_of_ne hne _ _

/-- A step changes a new inode or the one that the client has open. -/
theorem inodes_other {n : Nat} (hn : n < d.next) (hj : ∀ b, d.handles j ≠ some (n, b))
    (op : Op κ γ β) : (d.step (j, op)).inodes n = d.inodes n := by
  cases op with
  | open_ q =>
      cases hq : d.directory q with
      | some m => rw [step_existing hq]
      | none => rw [step_new hq]; exact update_of_ne (Nat.ne_of_lt hn) _ _
  | access f =>
      cases hx : d.handles j with
      | some x =>
          have hne : n ≠ x.1 := fun heq => hj x.2 (by rw [hx, heq])
          rw [step_access hx]
          exact update_of_ne hne _ _
      | none => rw [step_access_none hx]
  | close => rfl
  | unlink q => rfl

theorem Separate.respects (h : d.Separate owner) (howns : Owns owner (j, op)) (hji : j ≠ i) :
    Same owner i d (d.step (j, op)) := by
  have hhandles := handles_other (d := d) hji op
  have hdirectory (path : κ) (hpath : owner path = i) :
      (d.step (j, op)).directory path = d.directory path :=
    directory_other howns fun heq => hji (heq.symm.trans hpath)
  refine ⟨?_, fun path hpath => ?_, fun path hpath => ?_⟩
  · rw [opened, opened, hhandles]
    cases hi : d.handles i with
    | none => rfl
    | some x =>
        have hne (b : β) : d.handles j ≠ some (x.1, b) := fun hj =>
          hji (h.one_handle j i x.1 b x.2 hj hi)
        rw [Option.map_some, Option.map_some, inodes_other (h.handle_lt i x.1 x.2 hi) hne]
  · rw [lookup, lookup, hdirectory path hpath]
    cases hn : d.directory path with
    | none => rfl
    | some n =>
        have hne (b : β) : d.handles j ≠ some (n, b) := fun hj =>
          hji ((h.own j path n b hn hj).symm.trans hpath)
        rw [Option.map_some, Option.map_some, inodes_other (h.directory_lt path n hn) hne]
  · rw [Linked, Linked, hhandles, hdirectory path hpath]

end Others

section Own

variable {owner : κ → ι} {d d' : Disk ι κ γ β} {i : ι} {path p : κ}

/-- A client that opens a path gets what is there. -/
theorem opened_open (d : Disk ι κ γ β) (i : ι) (path : κ) :
    (d.step (i, .open_ path)).opened i = some ((d.lookup path).getD default, default) := by
  cases hn : d.directory path with
  | some n =>
      rw [step_existing hn]
      simp [opened, lookup, hn]
  | none =>
      rw [step_new hn]
      simp [opened, lookup, hn]

theorem Separate.lookup_open (h : d.Separate owner) (i : ι) (path p : κ) :
    (d.step (i, .open_ path)).lookup p =
      if p = path then some ((d.lookup path).getD default) else d.lookup p := by
  cases hn : d.directory path with
  | some n =>
      rw [step_existing hn]
      by_cases hp : p = path
      · simp [lookup, hp, hn]
      · simp [lookup, hp]
  | none =>
      rw [step_new hn]
      by_cases hp : p = path
      · simp [lookup, hp, hn]
      · cases hm : d.directory p with
        | none => simp [lookup, hp, hm]
        | some m => simp [lookup, hp, hm, Nat.ne_of_lt (h.directory_lt p m hm)]

theorem Separate.linked_open (h : d.Separate owner) (i : ι) (path p : κ) :
    (d.step (i, .open_ path)).Linked i p ↔ p = path := by
  constructor
  · rintro ⟨n, b, hp, hi⟩
    cases hn : d.directory path with
    | some m =>
        rw [step_existing hn] at hp hi
        simp only [update_self, Option.some.injEq, Prod.mk.injEq] at hi
        exact h.one_path p path n hp (hi.1 ▸ hn)
    | none =>
        rw [step_new hn] at hp hi
        simp only [update_self, Option.some.injEq, Prod.mk.injEq] at hi
        by_contra hne
        have hp : d.directory p = some n := by simpa [hne] using hp
        exact absurd (h.directory_lt p n hp) (by omega)
  · rintro rfl
    cases hn : d.directory p with
    | some m =>
        rw [step_existing hn]
        exact ⟨m, default, hn, update_self _ _ _⟩
    | none =>
        rw [step_new hn]
        exact ⟨d.next, default, update_self _ _ _, update_self _ _ _⟩

theorem isSome_open (d : Disk ι κ γ β) (i : ι) (path p : κ) :
    ((d.step (i, .open_ path)).directory p).isSome ↔ p = path ∨ (d.directory p).isSome := by
  cases hn : d.directory path with
  | some n =>
      rw [step_existing hn]
      by_cases hp : p = path
      · simp [hp, hn]
      · simp [hp]
  | none =>
      rw [step_new hn]
      by_cases hp : p = path
      · simp [hp]
      · simp [hp]

theorem directory_access (d : Disk ι κ γ β) (i : ι) (f : γ × β → γ × β) :
    (d.step (i, .access f)).directory = d.directory := by
  cases hi : d.handles i with
  | none => rw [step_access_none hi]
  | some x => rw [step_access hi]

theorem opened_access (d : Disk ι κ γ β) (i : ι) (f : γ × β → γ × β) :
    (d.step (i, .access f)).opened i = (d.opened i).map f := by
  cases hi : d.handles i with
  | some x => simp [step_access hi, opened, hi]
  | none => simp [step_access_none hi, opened, hi]

/-- What is done to the open file is seen at its path. -/
theorem lookup_access_linked (hlinked : d.Linked i p) (f : γ × β → γ × β) :
    (d.step (i, .access f)).lookup p = (d.opened i).map fun x => (f x).1 := by
  obtain ⟨n, b, hp, hi⟩ := hlinked
  simp [step_access hi, lookup, opened, hp, hi]

theorem lookup_access_other (hlinked : ¬ d.Linked i p) (f : γ × β → γ × β) :
    (d.step (i, .access f)).lookup p = d.lookup p := by
  cases hi : d.handles i with
  | none => rw [step_access_none hi]
  | some x =>
      rw [step_access hi, lookup, lookup]
      cases hp : d.directory p with
      | none => rfl
      | some n =>
          have hne : n ≠ x.1 := fun heq => hlinked ⟨n, x.2, hp, by rw [hi, heq]⟩
          simp [hne]

theorem linked_access (f : γ × β → γ × β) :
    (d.step (i, .access f)).Linked i p ↔ d.Linked i p := by
  cases hi : d.handles i with
  | none => rw [step_access_none hi]
  | some x =>
      obtain ⟨n, b⟩ := x
      simp [step_access hi, Linked, hi]

omit [DecidableEq ι] [DecidableEq κ] [Inhabited γ] [Inhabited β] in
/-- What is at the path of the open file. -/
theorem lookup_linked (hlinked : d.Linked i p) : d.lookup p = (d.opened i).map Prod.fst := by
  obtain ⟨n, b, hp, hi⟩ := hlinked
  simp [opened, lookup, hp, hi]

theorem opened_close (d : Disk ι κ γ β) (i : ι) : (d.step (i, .close)).opened i = none := by
  have hclosed : (d.step (i, .close)).handles i = none := update_self _ _ _
  rw [opened, hclosed, Option.map_none]

theorem lookup_unlink (d : Disk ι κ γ β) (i : ι) (path p : κ) :
    (d.step (i, .unlink path)).lookup p = if p = path then none else d.lookup p := by
  by_cases hp : p = path
  · simp [step, lookup, hp]
  · simp [step, lookup, hp]

theorem linked_unlink (d : Disk ι κ γ β) (i : ι) (path p : κ) :
    (d.step (i, .unlink path)).Linked i p ↔ p ≠ path ∧ d.Linked i p := by
  by_cases hp : p = path
  · simp [step, Linked, hp]
  · simp [step, Linked, hp]

theorem not_linked_close (d : Disk ι κ γ β) (i : ι) (p : κ) :
    ¬ (d.step (i, .close)).Linked i p := by
  rintro ⟨n, b, -, hi⟩
  simp [step] at hi

/-- What a client's own step makes of what it sees depends on that alone. -/
theorem Separate.agrees (h : d.Separate owner) (h' : d'.Separate owner) {op : Op κ γ β}
    (howns : Owns owner (i, op)) (hsame : Same owner i d d') :
    Same owner i (d.step (i, op)) (d'.step (i, op)) := by
  cases op with
  | open_ path =>
      have hlookup := hsame.lookup path howns
      refine ⟨?_, fun p hp => ?_, fun p hp => ?_⟩
      · rw [opened_open, opened_open, hlookup]
      · rw [h.lookup_open, h'.lookup_open, hlookup, hsame.lookup p hp]
      · rw [h.linked_open, h'.linked_open]
  | access f =>
      refine ⟨?_, fun p hp => ?_, fun p hp => ?_⟩
      · rw [opened_access, opened_access, hsame.opened]
      · by_cases hlinked : d.Linked i p
        · rw [lookup_access_linked hlinked,
            lookup_access_linked ((hsame.linked p hp).mp hlinked), hsame.opened]
        · rw [lookup_access_other hlinked,
            lookup_access_other (fun hlinked' => hlinked ((hsame.linked p hp).mpr hlinked')),
            hsame.lookup p hp]
      · rw [linked_access, linked_access, hsame.linked p hp]
  | close =>
      refine ⟨by rw [opened_close, opened_close], hsame.lookup, fun p _ => ?_⟩
      exact iff_of_false (not_linked_close d i p) (not_linked_close d' i p)
  | unlink path =>
      refine ⟨hsame.opened, fun p hp => ?_, fun p hp => ?_⟩
      · rw [lookup_unlink, lookup_unlink, hsame.lookup p hp]
      · rw [linked_unlink, linked_unlink, hsame.linked p hp]

theorem isolates (owner : κ → ι) (i : ι) : Interleaving.Isolates (step (γ := γ) (β := β))
    (Separate owner) (Owns owner) i (Same owner i) where
  keeps _ _ h howns := h.step howns
  trans _ _ _ h h' := ⟨h.opened.trans h'.opened, fun p hp => (h.lookup p hp).trans (h'.lookup p hp),
    fun p hp => (h.linked p hp).trans (h'.linked p hp)⟩
  symm _ _ h := ⟨h.opened.symm, fun p hp => (h.lookup p hp).symm, fun p hp => (h.linked p hp).symm⟩
  respects _ _ h howns hne := h.respects howns hne
  agrees _ _ _ h h' howns hsame := h.agrees h' howns hsame

end Own

section Alone

variable {owner : κ → ι} {d : Disk ι κ γ β} {trace : List (ι × Op κ γ β)}

/-- The operations of one client. -/
def run (d : Disk ι κ γ β) (i : ι) (ops : List (Op κ γ β)) : Disk ι κ γ β :=
  ops.foldl (fun d op => d.step (i, op)) d

theorem run_append (d : Disk ι κ γ β) (i : ι) (ops ops' : List (Op κ γ β)) :
    d.run i (ops ++ ops') = (d.run i ops).run i ops' := List.foldl_append

/-- In every interleaving a client sees what it would see alone. -/
theorem alone (h : d.Separate owner) (howns : ∀ a ∈ trace, Owns owner a) (i : ι) :
    Same owner i (trace.foldl step d) (d.run i (Interleaving.own i trace)) :=
  (isolates owner i).alone h h ⟨rfl, fun _ _ => rfl, fun _ _ => Iff.rfl⟩ howns

end Alone

end Disk
