import Ervan.Common.Text
import Ervan.Library.Run
import Mathlib.Data.List.Nodup

/-!
# The monitor and its children

The entries of the monitor, the process table of the kernel and the one SIGCHLD that can be
pending. Children exit, are stopped and are continued in any order; the kernel raises SIGCHLD
each time, and a SIGCHLD that finds another one pending is merged with it, so that one of the
two pids is lost. The monitor starts an entry again for every signal with the pid of the entry,
whatever `waitpid` said. That keeps one process for each entry if every signal that is read
comes from a child that has terminated, and no termination is lost.
-/

namespace Ervan.Main

abbrev Pid := Nat

/-- A terminated child stays in the process table until it is waited for. -/
inductive Status
  | running
  | stopped
  | terminated
  deriving DecidableEq, Repr

variable {α : Type}

/-- A child, with the place of the entry it was started for, its name and what it runs. -/
structure Process (α : Type) where
  pid : Pid
  entry : Nat
  name : Bytes
  main : α
  status : Status
  deriving DecidableEq, Repr

structure MonitorEntry (α : Type) where
  name : Bytes
  main : α
  pid : Pid := 0
  deriving DecidableEq, Repr

/-- The monitor, its children and its pending SIGCHLD. In debug mode entries are threads. -/
structure System (α : Type) where
  debug : Bool
  entries : List (MonitorEntry α) := []
  procs : List (Process α) := []
  threads : List α := []
  forks : Nat := 0
  pending : Option Pid := none

/-- The pids that `fork` gives. None is that of a process in the table. -/
structure Kernel (α : Type) where
  pid : Nat → List (Process α) → Pid
  fresh : ∀ n procs, ∀ p ∈ procs, p.pid ≠ pid n procs

namespace System

/-- `entry.pid = pid`. -/
def setPid (s : System α) (i : Nat) (pid : Pid) : System α :=
  { s with entries := s.entries.modify i fun e => { e with pid := pid } }

/-- `monitor::enter`, for the entry at `i`. -/
def enter (k : Kernel α) (s : System α) (i : Nat) (name : Bytes) (main : α) : System α × Pid :=
  if s.debug then ({ s with threads := s.threads ++ [main] }, 0)
  else
    let pid := k.pid s.forks s.procs
    ({ s with
        procs := s.procs ++ [⟨pid, i, name, main, .running⟩]
        forks := s.forks + 1 }, pid)

/-- `entry.pid = enter(entry.name, entry.main)`. -/
def start (k : Kernel α) (s : System α) (i : Nat) (name : Bytes) (main : α) : System α :=
  let (s, pid) := s.enter k i name main
  s.setPid i pid

/-- `monitor::add`. -/
def add (k : Kernel α) (s : System α) (name : Bytes) (main : α) : System α :=
  start k { s with entries := s.entries ++ [⟨name, main, 0⟩] } s.entries.length name main

/-- `waitpid` with `WNOHANG`, whose result is not looked at. -/
def waitpid (s : System α) (pid : Pid) : System α :=
  { s with procs := s.procs.filter fun p => ¬ (p.pid = pid ∧ p.status = .terminated) }

/-- The body of the loop of `monitor::signal`, for the entry at `i`. -/
def signalEntry (k : Kernel α) (pid : Pid) (s : System α) (i : Nat) : System α :=
  match s.entries[i]? with
  | none => s
  | some e =>
      if e.pid ≠ pid then s
      else (s.waitpid pid).start k i e.name e.main

/-- The loop of `monitor::signal` over `n` entries from `i` on. -/
def signalLoop (k : Kernel α) (pid : Pid) : Nat → Nat → System α → System α
  | 0, _, s => s
  | n + 1, i, s => signalLoop k pid n (i + 1) (s.signalEntry k pid i)

/-- `monitor::signal`. -/
def signal (k : Kernel α) (s : System α) (pid : Pid) : System α :=
  signalLoop k pid s.entries.length 0 s

/-- A SIGCHLD of the child `pid`. If another one is pending, the pid of one of them stays. -/
def raise (s : System α) (pid : Pid) (latest : Bool) : System α :=
  { s with
    pending :=
      match s.pending with
      | none => some pid
      | some pid' => if latest then some pid else some pid' }

/-- There is a child with the pid whose status satisfies `p`. -/
def hasChild (s : System α) (pid : Pid) (p : Status → Bool) : Bool :=
  s.procs.any fun c => c.pid = pid && p c.status

/-- A child with the pid whose status satisfies `p` gets another status. -/
def change (s : System α) (pid : Pid) (p : Status → Bool) (status : Status) (latest : Bool) :
    System α :=
  if s.hasChild pid p then
    let procs := s.procs.map fun c => if c.pid = pid then { c with status := status } else c
    System.raise { s with procs := procs } pid latest
  else s

end System

/-- What can happen. `latest` says which pid a merged SIGCHLD carries. -/
inductive Action (α : Type)
  | add (name : Bytes) (main : α)
  | exit (pid : Pid) (latest : Bool)
  | stop (pid : Pid) (latest : Bool)
  | cont (pid : Pid) (latest : Bool)
  | deliver

namespace System

def step (k : Kernel α) (s : System α) : Action α → System α
  | .add name main => s.add k name main
  | .exit pid latest => s.change pid (· ≠ .terminated) .terminated latest
  | .stop pid latest => s.change pid (· = .running) .stopped latest
  | .cont pid latest => s.change pid (· = .stopped) .running latest
  | .deliver =>
      match s.pending with
      | none => s
      | some pid => System.signal k { s with pending := none } pid

/-- The children of the entry at `i` that have not terminated. -/
def live (s : System α) (i : Nat) : List (Process α) :=
  s.procs.filter fun p => p.entry = i ∧ p.status ≠ .terminated

/-- Every entry has exactly one live process, and its pid is the one recorded. -/
def OneProcessEach (s : System α) : Prop :=
  ∀ i e, s.entries[i]? = some e → (s.live i).map Process.pid = [e.pid]

def Terminated (s : System α) (pid : Pid) : Prop :=
  ∃ p ∈ s.procs, p.pid = pid ∧ p.status = .terminated

/-- A signal is read only if the child it names has terminated, and of two signals that are
merged the lost one is not that of a terminated child. A child that is not there raises none. -/
def Clean (s : System α) : Action α → Prop
  | .add _ _ => True
  | .exit pid latest => s.hasChild pid (· ≠ .terminated) = true →
      ∀ pid' ∈ s.pending, pid' ≠ pid → latest = true ∧ ¬ s.Terminated pid'
  | .stop pid latest => s.hasChild pid (· = .running) = true →
      ∀ pid' ∈ s.pending, pid' ≠ pid → latest = true → ¬ s.Terminated pid'
  | .cont pid latest => s.hasChild pid (· = .stopped) = true →
      ∀ pid' ∈ s.pending, pid' ≠ pid → latest = true → ¬ s.Terminated pid'
  | .deliver => ∀ pid ∈ s.pending, ∀ p ∈ s.procs, p.pid = pid → p.status = .terminated

instance (s : System α) (pid : Pid) : Decidable (s.Terminated pid) :=
  inferInstanceAs (Decidable (∃ p ∈ s.procs, p.pid = pid ∧ p.status = .terminated))

instance (s : System α) : (a : Action α) → Decidable (s.Clean a)
  | .add _ _ => isTrue trivial
  | .exit pid latest => inferInstanceAs
      (Decidable (s.hasChild pid (· ≠ .terminated) = true →
        ∀ pid' ∈ s.pending, pid' ≠ pid → latest = true ∧ ¬ s.Terminated pid'))
  | .stop pid latest => inferInstanceAs
      (Decidable (s.hasChild pid (· = .running) = true →
        ∀ pid' ∈ s.pending, pid' ≠ pid → latest = true → ¬ s.Terminated pid'))
  | .cont pid latest => inferInstanceAs
      (Decidable (s.hasChild pid (· = .stopped) = true →
        ∀ pid' ∈ s.pending, pid' ≠ pid → latest = true → ¬ s.Terminated pid'))
  | .deliver => inferInstanceAs
      (Decidable (∀ pid ∈ s.pending, ∀ p ∈ s.procs, p.pid = pid → p.status = .terminated))

/-- Every entry has one process in the table, with the recorded pid. -/
structure Tracked (s : System α) : Prop where
  debug : s.debug = false
  distinct : (s.procs.map Process.pid).Nodup
  one : ∀ i e, s.entries[i]? = some e →
    (s.procs.filter fun p => p.entry = i).map Process.pid = [e.pid]
  known : ∀ p ∈ s.procs, p.entry < s.entries.length

/-- A terminated process has its signal pending. -/
structure Watched (s : System α) : Prop extends Tracked s where
  signalled : ∀ pid, s.Terminated pid → s.pending = some pid

section Steps

variable {k : Kernel α} {s : System α}

/-- The pid that an entry records belongs to its own process. -/
theorem Tracked.own (h : s.Tracked) {i : Nat} {e : MonitorEntry α} (hi : s.entries[i]? = some e)
    {p : Process α} (hp : p ∈ s.procs) : p.entry = i ↔ p.pid = e.pid := by
  have hone := h.one i e hi
  obtain ⟨q, hq, hpid⟩ : ∃ q, (s.procs.filter fun p => p.entry = i) = [q] ∧ q.pid = e.pid := by
    obtain ⟨q, hq⟩ := List.length_eq_one_iff.mp
      ((List.length_map Process.pid).symm.trans (congrArg List.length hone))
    rw [hq] at hone
    exact ⟨q, hq, List.head_eq_of_cons_eq hone⟩
  have hqmem : q ∈ s.procs ∧ q.entry = i := by
    have hmem : q ∈ s.procs.filter fun p => p.entry = i := by
      rw [hq]
      exact List.mem_singleton_self q
    simpa using hmem
  constructor
  · intro hentry
    have hmem : p ∈ s.procs.filter fun p => p.entry = i := by simpa using ⟨hp, hentry⟩
    rw [hq, List.mem_singleton] at hmem
    rw [hmem, hpid]
  · intro heq
    have hsame : p = q := List.inj_on_of_nodup_map h.distinct hp hqmem.1 (heq.trans hpid.symm)
    rw [hsame, hqmem.2]

/-- With no terminated process in the table, the processes of the entries are live. -/
theorem Tracked.oneProcessEach (h : s.Tracked) (live : ∀ pid, ¬ s.Terminated pid) :
    s.OneProcessEach := by
  intro i e hi
  have hall : s.live i = s.procs.filter fun p => p.entry = i := by
    apply List.filter_congr
    intro p hp
    have hlive : p.status ≠ .terminated := fun hdead => live p.pid ⟨p, hp, rfl, hdead⟩
    simp [hlive]
  rw [hall]
  exact h.one i e hi

/-- The entry at `i` is to be started, and the others have their processes. -/
structure Vacant (s : System α) (i : Nat) : Prop where
  debug : s.debug = false
  distinct : (s.procs.map Process.pid).Nodup
  one : ∀ j e, j ≠ i → s.entries[j]? = some e →
    (s.procs.filter fun p => p.entry = j).map Process.pid = [e.pid]
  known : ∀ p ∈ s.procs, p.entry < s.entries.length ∧ p.entry ≠ i
  present : i < s.entries.length

theorem start_eq (hdebug : s.debug = false) (i : Nat) (name : Bytes) (main : α) :
    s.start k i name main =
      { s with
        procs := s.procs ++ [⟨k.pid s.forks s.procs, i, name, main, .running⟩]
        forks := s.forks + 1
        entries := s.entries.modify i fun e => { e with pid := k.pid s.forks s.procs } } := by
  simp only [start, enter, hdebug, Bool.false_eq_true, if_false, setPid]

theorem Vacant.start {i : Nat} (h : s.Vacant i) (k : Kernel α) (name : Bytes) (main : α) :
    (s.start k i name main).Tracked := by
  rw [start_eq h.debug]
  refine ⟨h.debug, ?_, fun j e hj => ?_, fun p hp => ?_⟩
  · rw [List.map_append, List.nodup_append]
    refine ⟨h.distinct, List.nodup_singleton _, fun pid hpid pid' hpid' => ?_⟩
    obtain ⟨p, hp, rfl⟩ := List.mem_map.mp hpid
    rw [List.mem_singleton.mp hpid']
    exact k.fresh _ _ p hp
  · rw [List.filter_append, List.map_append]
    by_cases hji : j = i
    · subst hji
      have hnone : (s.procs.filter fun p => p.entry = j) = [] := by
        apply List.filter_eq_nil_iff.mpr
        intro p hp
        simpa using (h.known p hp).2
      rw [List.getElem?_modify_eq, Option.map_eq_map, Option.map_eq_some_iff] at hj
      obtain ⟨e', -, rfl⟩ := hj
      simp [hnone]
    · rw [List.getElem?_modify_ne _ _ (Ne.symm hji)] at hj
      rw [h.one j e hji hj]
      simp [Ne.symm hji]
  · rw [List.length_modify]
    rcases List.mem_append.mp hp with hp | hp
    · exact (h.known p hp).1
    · rw [List.mem_singleton.mp hp]
      exact h.present

/-- What has terminated after a start had terminated before. -/
theorem mem_start (hdebug : s.debug = false) {i : Nat} {name : Bytes} {main : α} {p : Process α}
    (hp : p ∈ (s.start k i name main).procs) :
    p ∈ s.procs ∨ (p.entry = i ∧ p.status = .running) := by
  rw [start_eq hdebug] at hp
  rcases List.mem_append.mp hp with hp | hp
  · exact Or.inl hp
  · rw [List.mem_singleton.mp hp]
    exact Or.inr ⟨rfl, rfl⟩

/-- Once its terminated process has been waited for, an entry is to be started. -/
theorem Tracked.vacant (h : s.Tracked) {i : Nat} {e : MonitorEntry α}
    (hi : s.entries[i]? = some e)
    (dead : ∀ p ∈ s.procs, p.pid = e.pid → p.status = .terminated) :
    (s.waitpid e.pid).Vacant i := by
  refine ⟨h.debug, ?_, fun j e' hji hj => ?_, fun p hp => ?_, ?_⟩
  · exact h.distinct.sublist (List.filter_sublist.map _)
  · rw [← h.one j e' hj, waitpid, List.filter_filter]
    congr 1
    apply List.filter_congr
    intro p hp
    by_cases hentry : p.entry = j
    · have hother : p.pid ≠ e.pid := by
        intro heq
        exact hji (hentry.symm.trans ((h.own hi hp).mpr heq))
      simp [hentry, hother]
    · simp [hentry]
  · simp only [waitpid, List.mem_filter, decide_eq_true_eq] at hp
    refine ⟨h.known p hp.1, fun hentry => ?_⟩
    have hpid := (h.own hi hp.1).mp hentry
    exact hp.2 ⟨hpid, dead p hp.1 hpid⟩
  · exact (List.getElem?_eq_some_iff.mp hi).1

/-- The loop of `signal` is at the entry `i` of `n`: what has terminated is ahead. -/
structure Restarting (s : System α) (pid : Pid) (n i : Nat) : Prop extends Tracked s where
  length : s.entries.length = n
  ahead : ∀ p ∈ s.procs, p.status = .terminated → p.pid = pid ∧ i ≤ p.entry
  dead : ∀ p ∈ s.procs, p.pid = pid → i ≤ p.entry → p.status = .terminated

theorem Restarting.signalEntry {pid : Pid} {n i : Nat} (h : s.Restarting pid n i)
    (k : Kernel α) : (s.signalEntry k pid i).Restarting pid n (i + 1) := by
  unfold System.signalEntry
  cases hi : s.entries[i]? with
  | none =>
      have hend := List.getElem?_eq_none_iff.mp hi
      refine ⟨h.toTracked, h.length, fun p hp hdead => ?_, fun p hp hpid hle => ?_⟩
      · have hknown := h.known p hp
        have hahead := (h.ahead p hp hdead).2
        omega
      · exact h.dead p hp hpid (Nat.le_of_succ_le hle)
  | some e =>
      by_cases hpid : e.pid = pid
      · subst hpid
        simp only [ne_eq, not_true, if_false]
        have hdead (p : Process α) (hp : p ∈ s.procs) (hpid : p.pid = e.pid) :
            p.status = .terminated :=
          h.dead p hp hpid (Nat.le_of_eq ((h.own hi hp).mpr hpid).symm)
        have hvacant := h.vacant hi hdead
        have hreaped (p : Process α) (hp : p ∈ (s.waitpid e.pid).procs) :
            p ∈ s.procs ∧ p.pid ≠ e.pid := by
          simp only [waitpid, List.mem_filter, decide_eq_true_eq] at hp
          exact ⟨hp.1, fun heq => hp.2 ⟨heq, hdead p hp.1 heq⟩⟩
        refine ⟨hvacant.start k e.name e.main, ?_, fun p hp hterminated => ?_,
          fun p hp hpid hle => ?_⟩
        · rw [start_eq hvacant.debug, List.length_modify]
          exact h.length
        · rcases mem_start hvacant.debug hp with hp | ⟨-, hrunning⟩
          · obtain ⟨hmem, hother⟩ := hreaped p hp
            exact absurd (h.ahead p hmem hterminated).1 hother
          · rw [hrunning] at hterminated
            cases hterminated
        · rcases mem_start hvacant.debug hp with hp | ⟨hentry, -⟩
          · exact absurd hpid (hreaped p hp).2
          · omega
      · simp only [ne_eq, hpid, not_false_eq_true, if_true]
        refine ⟨h.toTracked, h.length, fun p hp hdead => ?_, fun p hp hpid hle => ?_⟩
        · obtain ⟨hq, hle⟩ := h.ahead p hp hdead
          refine ⟨hq, Nat.lt_of_le_of_ne hle fun heq => hpid ?_⟩
          rw [← (h.own hi hp).mp heq.symm, hq]
        · exact h.dead p hp hpid (Nat.le_of_succ_le hle)

theorem Restarting.signalLoop {pid : Pid} {n i : Nat} (k : Kernel α) {m : Nat}
    (h : s.Restarting pid n i) : (System.signalLoop k pid m i s).Restarting pid n (i + m) := by
  induction m generalizing i s with
  | zero => exact h
  | succ m ih =>
      rw [show i + (m + 1) = i + 1 + m by omega]
      exact ih (h.signalEntry k)

/-- A signal of a terminated process leaves none terminated. -/
theorem Watched.signal (h : s.Watched) {pid : Pid} (hpending : s.pending = some pid)
    (dead : ∀ p ∈ s.procs, p.pid = pid → p.status = .terminated) (k : Kernel α) :
    (System.signal k { s with pending := none } pid).Watched := by
  have hstart : ({ s with pending := none } : System α).Restarting pid s.entries.length 0 := by
    refine ⟨⟨h.debug, h.distinct, h.one, h.known⟩, rfl, fun p hp hdead => ?_,
      fun p hp hpid _ => dead p hp hpid⟩
    have hsignalled := h.signalled p.pid ⟨p, hp, rfl, hdead⟩
    rw [hpending] at hsignalled
    exact ⟨(Option.some_inj.mp hsignalled).symm, Nat.zero_le _⟩
  have hend := hstart.signalLoop k (m := s.entries.length)
  refine ⟨hend.toTracked, fun pid' hterminated => ?_⟩
  obtain ⟨p, hp, -, hdead⟩ := hterminated
  have hknown := hend.known p hp
  have hahead := (hend.ahead p hp hdead).2
  rw [hend.length] at hknown
  omega

theorem Watched.add (h : s.Watched) (k : Kernel α) (name : Bytes) (main : α) :
    (s.add k name main).Watched := by
  have hvacant : ({ s with entries := s.entries ++ [⟨name, main, 0⟩] } : System α).Vacant
      s.entries.length := by
    refine ⟨h.debug, h.distinct, fun j e hj hentry => ?_, fun p hp => ?_, ?_⟩
    · have hlt := (List.getElem?_eq_some_iff.mp hentry).1
      rw [List.length_append, List.length_singleton] at hlt
      rw [List.getElem?_append_left (by omega)] at hentry
      exact h.one j e hentry
    · have hknown := h.known p hp
      rw [List.length_append]
      omega
    · rw [List.length_append]
      exact Nat.lt_add_one _
  refine ⟨hvacant.start k name main, fun pid hterminated => ?_⟩
  obtain ⟨p, hp, hpid, hdead⟩ := hterminated
  rcases mem_start hvacant.debug hp with hp | ⟨-, hrunning⟩
  · rw [System.add, start_eq hvacant.debug]
    exact h.signalled pid ⟨p, hp, hpid, hdead⟩
  · rw [hrunning] at hdead
    cases hdead

/-- The processes may change in anything but their pid and their entry. -/
theorem Tracked.mapped (h : s.Tracked) {f : Process α → Process α} (hpid : ∀ c, (f c).pid = c.pid)
    (hentry : ∀ c, (f c).entry = c.entry) (pending : Option Pid) :
    ({ s with procs := s.procs.map f, pending := pending } : System α).Tracked := by
  refine ⟨h.debug, ?_, fun i e hi => ?_, fun c hc => ?_⟩
  · rw [List.map_map, show Process.pid ∘ f = Process.pid from funext hpid]
    exact h.distinct
  · rw [List.filter_map, List.map_map, show Process.pid ∘ f = Process.pid from funext hpid,
      ← h.one i e hi]
    congr 2
    funext c
    simp [hentry]
  · obtain ⟨c', hc', rfl⟩ := List.mem_map.mp hc
    rw [hentry]
    exact h.known c' hc'

/-- A child that terminates leaves its own signal pending. -/
theorem raise_own {pid : Pid} {latest : Bool}
    (kept : ∀ pid' ∈ s.pending, pid' ≠ pid → latest = true) :
    (s.raise pid latest).pending = some pid := by
  unfold System.raise
  cases hpending : s.pending with
  | none => rfl
  | some pid' =>
      by_cases hsame : pid' = pid
      · simp [hsame]
      · simp [kept pid' hpending hsame]

/-- A change keeps the processes of the entries, and their terminations are not lost. -/
theorem Watched.change (h : s.Watched) {pid : Pid} {p : Status → Bool} {status : Status}
    {latest : Bool} (lossless : s.hasChild pid p = true → ∀ pid' ∈ s.pending, pid' ≠ pid →
      (latest = true → ¬ s.Terminated pid') ∧ (status = .terminated → latest = true)) :
    (s.change pid p status latest).Watched := by
  unfold System.change
  split
  · have kept := lossless ‹_›
    let f (c : Process α) : Process α := if c.pid = pid then { c with status := status } else c
    have hpid (c : Process α) : (f c).pid = c.pid := by
      simp only [f]
      split <;> rfl
    have hentry (c : Process α) : (f c).entry = c.entry := by
      simp only [f]
      split <;> rfl
    refine ⟨h.mapped hpid hentry _, fun pid' hterminated => ?_⟩
    obtain ⟨c', hc', rfl, hdead⟩ := hterminated
    obtain ⟨c, hc, rfl⟩ := List.mem_map.mp hc'
    change (f c).status = .terminated at hdead
    change (System.raise { s with procs := s.procs.map f } pid latest).pending = some (f c).pid
    rw [hpid]
    simp only [f] at hdead
    by_cases hown : c.pid = pid
    · rw [if_pos hown] at hdead
      rw [hown]
      exact raise_own fun pid' hpending hother => (kept pid' hpending hother).2 hdead
    · -- another one: its signal was pending, and has not been lost
      rw [if_neg hown] at hdead
      have hsignalled := h.signalled c.pid ⟨c, hc, rfl, hdead⟩
      have hlatest : latest ≠ true := fun hlatest =>
        (kept c.pid hsignalled hown).1 hlatest ⟨c, hc, rfl, hdead⟩
      simp only [System.raise, hsignalled, if_neg hlatest]
  · exact h

theorem Watched.step (h : s.Watched) (k : Kernel α) {a : Action α} (clean : s.Clean a) :
    (s.step k a).Watched := by
  cases a with
  | add name main => exact h.add k name main
  | exit pid latest =>
      rw [System.step]
      apply Watched.change h
      intro hchild pid' hpending hother
      obtain ⟨hlatest, hlost⟩ := clean hchild pid' hpending hother
      exact ⟨fun _ => hlost, fun _ => hlatest⟩
  | stop pid latest =>
      rw [System.step]
      apply Watched.change h
      intro hchild pid' hpending hother
      exact ⟨clean hchild pid' hpending hother, fun hstop => by cases hstop⟩
  | cont pid latest =>
      rw [System.step]
      apply Watched.change h
      intro hchild pid' hpending hother
      exact ⟨clean hchild pid' hpending hother, fun hcont => by cases hcont⟩
  | deliver =>
      simp only [System.step]
      cases hpending : s.pending with
      | none => exact h
      | some pid => exact h.signal hpending (clean pid hpending) k

end Steps

/-- The monitor before any entry is added. -/
def empty : System α where
  debug := false

theorem empty_watched : (empty : System α).Watched := by
  refine ⟨⟨rfl, List.nodup_nil, fun i e hi => ?_, fun p hp => ?_⟩, fun pid hterminated => ?_⟩
  · cases hi
  · cases hp
  · obtain ⟨p, hp, -⟩ := hterminated
    cases hp

/-- In every run in which only terminated children are signalled, and no termination is lost,
every entry has exactly one live process whenever no signal is pending, and it is the one
recorded. -/
theorem one_process_each (k : Kernel α) (actions : List (Action α))
    (clean : Run.Along (step k) Clean empty actions)
    (handled : (actions.foldl (step k) empty).pending = none) :
    (actions.foldl (step k) empty).OneProcessEach := by
  have hwatched := Run.foldl_invariant (I := Watched)
    (fun s a h clean => Watched.step h k clean) empty_watched clean
  apply hwatched.oneProcessEach
  intro pid hterminated
  have hpending := hwatched.signalled pid hterminated
  rw [handled] at hpending
  cases hpending

/-- The largest pid in use. -/
def largest : List (Process α) → Pid
  | [] => 0
  | p :: procs => max p.pid (largest procs)

theorem le_largest {procs : List (Process α)} {p : Process α} (hp : p ∈ procs) :
    p.pid ≤ largest procs := by
  induction procs with
  | nil => cases hp
  | cons q procs ih =>
      rcases List.mem_cons.mp hp with rfl | hp
      · exact Nat.le_max_left _ _
      · exact (ih hp).trans (Nat.le_max_right _ _)

/-- A kernel that counts on from the largest pid in use. -/
def counting : Kernel α where
  pid _ procs := largest procs + 1
  fresh _ _ _ hp := Nat.ne_of_lt (Nat.lt_succ_of_le (le_largest hp))

/-- Two entries, whose children exit one after the other. -/
theorem one_process_each_two :
    ([.add (text "ervan.smtp") (), .add (text "ervan.imap") (), .exit 1 false, .deliver,
      .exit 2 false, .deliver].foldl (step counting) empty).OneProcessEach :=
  one_process_each counting _ (by decide) rfl

/-- A child that is stopped is started a second time. -/
theorem not_one_process_each_stopped :
    ¬ ∀ (k : Kernel Unit) (actions : List (Action Unit)),
      (actions.foldl (step k) empty).pending = none →
        (actions.foldl (step k) empty).OneProcessEach := by
  intro h
  have hone := h counting [.add (text "ervan.smtp") (), .stop 1 false, .deliver] rfl 0
    ⟨text "ervan.smtp", (), 2⟩ (by decide)
  exact absurd hone (by decide)

/-- Of two children that exit together only one is started again. -/
theorem not_one_process_each_merged :
    ¬ ([.add (text "ervan.smtp") (), .add (text "ervan.imap") (), .exit 1 false, .exit 2 false,
      .deliver].foldl (step counting) empty).OneProcessEach := by
  intro h
  have hone := h 1 ⟨text "ervan.imap", (), 2⟩ (by decide)
  exact absurd hone (by decide)

end System

end Ervan.Main
