import Ervan.Main.Monitor

/-!
# What the monitor keeps in every run

Nothing is assumed of the signals: children are stopped and continued, and signals are merged. Every
entry records a child of its own, which runs what the entry says, and a signal starts at most one
child. Where no child is stopped no entry has two live children, whichever signals are lost. Where
no termination is lost every entry has a live child or its signal pending, whichever children are
stopped.
-/

namespace Ervan.Main

namespace System

variable {α : Type} {k : Kernel α} {s : System α}

/-- The status of the child with the pid changes. -/
def changed (pid : Pid) (status : Status) (c : Process α) : Process α :=
  if c.pid = pid then { c with status := status } else c

section Changes

variable (pid : Pid) (status : Status) (c : Process α)

@[simp] theorem changed_pid : (changed pid status c).pid = c.pid := by
  unfold changed
  split <;> rfl

@[simp] theorem changed_entry : (changed pid status c).entry = c.entry := by
  unfold changed
  split <;> rfl

@[simp] theorem changed_status :
    (changed pid status c).status = if c.pid = pid then status else c.status := by
  unfold changed
  split <;> rfl

/-- Nothing happens, or the status of a child changes and its signal is raised. -/
theorem change_cases (s : System α) (pid : Pid) (p : Status → Bool) (status : Status)
    (latest : Bool) :
    s.change pid p status latest = s ∨
      s.hasChild pid p = true ∧
        s.change pid p status latest =
          { s with
            procs := s.procs.map (changed pid status)
            pending := (s.raise pid latest).pending } := by
  unfold System.change
  split
  · exact Or.inr ⟨‹_›, rfl⟩
  · exact Or.inl rfl

theorem exists_child {s : System α} {p : Status → Bool} (h : s.hasChild pid p = true) :
    ∃ c ∈ s.procs, c.pid = pid ∧ p c.status = true := by
  obtain ⟨c, hc, hp⟩ := List.any_eq_true.mp h
  exact ⟨c, hc, by simpa using hp⟩

/-- The pending signal is the new one or the old one. -/
theorem mem_raise {s : System α} {pid pid' : Pid} {latest : Bool}
    (h : pid' ∈ (s.raise pid latest).pending) : pid' = pid ∨ pid' ∈ s.pending := by
  unfold System.raise at h
  cases hpending : s.pending with
  | none =>
      rw [hpending] at h
      cases h
      exact Or.inl rfl
  | some old =>
      rw [hpending] at h
      dsimp only at h
      split at h
      · cases h
        exact Or.inl rfl
      · exact Or.inr h

end Changes

/-- Every entry but the free one records a child of its own, and every child runs what its entry
says. -/
structure Recorded (s : System α) (free : Option Nat) : Prop where
  debug : s.debug = false
  distinct : (s.procs.map Process.pid).Nodup
  own : ∀ i e, free ≠ some i → s.entries[i]? = some e →
    ∃ p ∈ s.procs, p.pid = e.pid ∧ p.entry = i
  runs : ∀ p ∈ s.procs, ∃ e, s.entries[p.entry]? = some e ∧ p.name = e.name ∧ p.main = e.main

namespace Recorded

variable {i j : Nat} {e e' : MonitorEntry α}

/-- Two entries do not record the same pid. -/
theorem unique (h : s.Recorded none) (hi : s.entries[i]? = some e) (hj : s.entries[j]? = some e')
    (heq : e.pid = e'.pid) : i = j := by
  obtain ⟨p, hp, hpid, rfl⟩ := h.own i e nofun hi
  obtain ⟨p', hp', hpid', rfl⟩ := h.own j e' nofun hj
  rw [List.inj_on_of_nodup_map h.distinct hp hp' (hpid.trans (heq.trans hpid'.symm))]

/-- An entry is started: it is no longer free. -/
theorem start (h : s.Recorded (some i)) (hi : s.entries[i]? = some e) (k : Kernel α) :
    (s.start k i e.name e.main).Recorded none := by
  rw [start_eq h.debug]
  refine ⟨h.debug, ?_, fun j e' _ hj => ?_, fun p hp => ?_⟩
  · rw [List.map_append, List.nodup_append]
    refine ⟨h.distinct, List.nodup_singleton _, fun pid hpid pid' hpid' => ?_⟩
    obtain ⟨p, hp, rfl⟩ := List.mem_map.mp hpid
    rw [List.mem_singleton.mp hpid']
    exact k.fresh _ _ p hp
  · by_cases hij : i = j
    · subst hij
      rw [List.getElem?_modify_eq, hi] at hj
      cases hj
      exact ⟨_, List.mem_append_right _ (List.mem_singleton_self _), rfl, rfl⟩
    · rw [List.getElem?_modify_ne _ _ hij] at hj
      obtain ⟨p, hp, hown⟩ := h.own j e' (fun hfree => hij (Option.some_inj.mp hfree)) hj
      exact ⟨p, List.mem_append_left _ hp, hown⟩
  · have hruns : ∃ e, s.entries[p.entry]? = some e ∧ p.name = e.name ∧ p.main = e.main := by
      rcases List.mem_append.mp hp with hp | hp
      · exact h.runs p hp
      · rw [List.mem_singleton.mp hp]
        exact ⟨e, hi, rfl, rfl⟩
    obtain ⟨e', he', hname, hmain⟩ := hruns
    rw [List.getElem?_modify, he']
    refine ⟨_, rfl, ?_, ?_⟩
    · rw [hname]
      split <;> rfl
    · rw [hmain]
      split <;> rfl

/-- The child of an entry is waited for: the entry is free. -/
theorem waitpid (h : s.Recorded none) (hi : s.entries[i]? = some e) :
    (s.waitpid e.pid).Recorded (some i) := by
  refine ⟨h.debug, ?_, fun j e' hfree hj => ?_, fun p hp => ?_⟩
  · exact h.distinct.sublist (List.filter_sublist.map _)
  · obtain ⟨p, hp, hpid, hentry⟩ := h.own j e' nofun hj
    refine ⟨p, List.mem_filter.mpr ⟨hp, decide_eq_true fun hsame => hfree ?_⟩, hpid, hentry⟩
    rw [h.unique hi hj (hsame.1.symm.trans hpid)]
  · exact h.runs p (List.mem_filter.mp hp).1

/-- An entry that is added is free. -/
theorem push (h : s.Recorded none) (e : MonitorEntry α) :
    ({ s with entries := s.entries ++ [e] } : System α).Recorded (some s.entries.length) := by
  refine ⟨h.debug, h.distinct, fun j e' hfree hj => ?_, fun p hp => ?_⟩
  · have hlt : j < s.entries.length := by
      have hle := (List.getElem?_eq_some_iff.mp hj).1
      rw [List.length_append, List.length_singleton] at hle
      exact Nat.lt_of_le_of_ne (Nat.le_of_lt_succ hle) fun heq => hfree (congrArg some heq.symm)
    rw [List.getElem?_append_left hlt] at hj
    exact h.own j e' nofun hj
  · obtain ⟨e', he', hruns⟩ := h.runs p hp
    refine ⟨e', ?_, hruns⟩
    rw [List.getElem?_append_left (List.getElem?_eq_some_iff.mp he').1, he']

theorem add (h : s.Recorded none) (k : Kernel α) (name : Bytes) (main : α) :
    (s.add k name main).Recorded none :=
  (h.push ⟨name, main, 0⟩).start (List.getElem?_concat_length ..) k

theorem change (h : s.Recorded none) (pid : Pid) (p : Status → Bool) (status : Status)
    (latest : Bool) : (s.change pid p status latest).Recorded none := by
  rcases change_cases s pid p status latest with heq | ⟨-, heq⟩
  · rw [heq]
    exact h
  · rw [heq]
    refine ⟨h.debug, ?_, fun i e _ hi => ?_, fun c hc => ?_⟩
    · rw [List.map_map, show Process.pid ∘ changed pid status = Process.pid from
        funext (changed_pid pid status)]
      exact h.distinct
    · obtain ⟨p, hp, hown, hentry⟩ := h.own i e nofun hi
      exact ⟨changed pid status p, List.mem_map_of_mem hp, by rwa [changed_pid],
        by rwa [changed_entry]⟩
    · obtain ⟨c, hmem, rfl⟩ := List.mem_map.mp hc
      obtain ⟨e, he, hname, hmain⟩ := h.runs c hmem
      refine ⟨e, by rwa [changed_entry], ?_, ?_⟩
      · rw [← hname]
        unfold changed
        split <;> rfl
      · rw [← hmain]
        unfold changed
        split <;> rfl

end Recorded

section Signals

variable {pid : Pid}

/-- The loop of `signal` passes over entries with other pids. -/
theorem signalLoop_other {n i : Nat}
    (h : ∀ (j : Nat) (e : MonitorEntry α), i ≤ j → j < i + n → s.entries[j]? = some e → e.pid ≠ pid) :
    signalLoop k pid n i s = s := by
  induction n generalizing i with
  | zero => rfl
  | succ n ih =>
      have hentry : s.signalEntry k pid i = s := by
        unfold signalEntry
        split
        · rfl
        · rename_i e he
          rw [if_pos (h i e (Nat.le_refl i) (by omega) he)]
      rw [signalLoop, hentry]
      exact ih fun j e hle hlt => h j e (by omega) (by omega)

theorem signalLoop_add (m n i : Nat) (s : System α) :
    signalLoop k pid (m + n) i s = signalLoop k pid n (i + m) (signalLoop k pid m i s) := by
  induction m generalizing i s with
  | zero => rw [Nat.zero_add]; rfl
  | succ m ih =>
      rw [Nat.succ_add, signalLoop, ih, signalLoop]
      congr 1
      omega

/-- The loop starts the entry with the pid again, and there is one such entry at most. -/
theorem Recorded.signal_cases (h : s.Recorded none) (k : Kernel α) (pid : Pid) :
    (s.signal k pid = s ∧ ∀ (i : Nat) (e : MonitorEntry α), s.entries[i]? = some e → e.pid ≠ pid) ∨
      ∃ (i : Nat) (e : MonitorEntry α), s.entries[i]? = some e ∧ e.pid = pid ∧
        s.signal k pid = (s.waitpid pid).start k i e.name e.main := by
  by_cases hfound : ∃ (i : Nat) (e : MonitorEntry α), s.entries[i]? = some e ∧ e.pid = pid
  · obtain ⟨i, e, hi, hpid⟩ := hfound
    refine Or.inr ⟨i, e, hi, hpid, ?_⟩
    have hlt := (List.getElem?_eq_some_iff.mp hi).1
    have hother {j : Nat} {e' : MonitorEntry α} (hne : i ≠ j) (hj : s.entries[j]? = some e') :
        e'.pid ≠ pid := fun heq => hne (h.unique hi hj (hpid.trans heq.symm))
    have hbefore : signalLoop k pid i 0 s = s :=
      signalLoop_other fun j e' _ hji hj => hother (by omega) hj
    have hentry : s.signalEntry k pid i = (s.waitpid pid).start k i e.name e.main := by
      rw [signalEntry, hi]
      exact if_neg (not_not_intro hpid)
    obtain ⟨n, hn⟩ : ∃ n, s.entries.length = i + (1 + n) := ⟨s.entries.length - i - 1, by omega⟩
    rw [signal, hn, signalLoop_add, hbefore, signalLoop_add, Nat.zero_add]
    change signalLoop k pid n (i + 1) (s.signalEntry k pid i) = _
    rw [hentry]
    apply signalLoop_other
    intro j e' hle _ hj
    rw [start_eq (show (s.waitpid pid).debug = false from h.debug)] at hj
    have hij : i ≠ j := by omega
    rw [List.getElem?_modify_ne _ _ hij] at hj
    exact hother hij hj
  · have hnone (i : Nat) (e : MonitorEntry α) (hi : s.entries[i]? = some e) : e.pid ≠ pid :=
      fun heq => hfound ⟨i, e, hi, heq⟩
    exact Or.inl ⟨signalLoop_other fun j e _ _ hj => hnone j e hj, hnone⟩

/-- The pending signal is taken, and its entry, if it has one, is started again. -/
theorem Recorded.deliver_cases (h : s.Recorded none) (k : Kernel α) :
    (s.step k .deliver = { s with pending := none } ∧
        ∀ pid ∈ s.pending, ∀ (i : Nat) (e : MonitorEntry α), s.entries[i]? = some e → e.pid ≠ pid) ∨
      ∃ (i : Nat) (e : MonitorEntry α), s.entries[i]? = some e ∧ s.pending = some e.pid ∧
        s.step k .deliver =
          (({ s with pending := none } : System α).waitpid e.pid).start k i e.name e.main := by
  cases hpending : s.pending with
  | none =>
      refine Or.inl ⟨?_, nofun⟩
      simp only [System.step, hpending]
      rw [← hpending]
  | some pid =>
      have hstep : s.step k .deliver = signal k { s with pending := none } pid := by
        simp only [System.step, hpending]
      have hbare : ({ s with pending := none } : System α).Recorded none :=
        ⟨h.debug, h.distinct, h.own, h.runs⟩
      rw [hstep]
      rcases hbare.signal_cases k pid with ⟨heq, hother⟩ | ⟨i, e, hi, rfl, heq⟩
      · refine Or.inl ⟨heq, fun pid' hpid' => ?_⟩
        cases hpid'
        exact hother
      · exact Or.inr ⟨i, e, hi, rfl, heq⟩

theorem Recorded.step (h : s.Recorded none) (k : Kernel α) (a : Action α) :
    (s.step k a).Recorded none := by
  have hbare : ({ s with pending := none } : System α).Recorded none :=
    ⟨h.debug, h.distinct, h.own, h.runs⟩
  cases a with
  | add name main => exact h.add k name main
  | exit pid latest =>
      rw [System.step]
      exact h.change pid _ _ latest
  | stop pid latest =>
      rw [System.step]
      exact h.change pid _ _ latest
  | cont pid latest =>
      rw [System.step]
      exact h.change pid _ _ latest
  | deliver =>
      rcases h.deliver_cases k with ⟨heq, -⟩ | ⟨i, e, hi, -, heq⟩
      · rw [heq]
        exact hbare
      · rw [heq]
        exact (hbare.waitpid hi).start hi k

end Signals

/-- An action that may start a child. -/
def Action.starts : Action α → Bool
  | .add _ _ => true
  | .deliver => true
  | _ => false

section Runs

theorem start_forks (hdebug : s.debug = false) (k : Kernel α) (i : Nat) (name : Bytes) (main : α) :
    (s.start k i name main).forks = s.forks + 1 := by rw [start_eq hdebug]

theorem change_forks (s : System α) (pid : Pid) (p : Status → Bool) (status : Status)
    (latest : Bool) : (s.change pid p status latest).forks = s.forks := by
  rcases change_cases s pid p status latest with heq | ⟨-, heq⟩ <;> rw [heq]

/-- A signal starts one child at most. -/
theorem Recorded.step_forks (h : s.Recorded none) (k : Kernel α) (a : Action α) :
    (s.step k a).forks ≤ s.forks + if Action.starts a then 1 else 0 := by
  cases a with
  | add name main =>
      have hpush := h.push ⟨name, main, 0⟩
      exact Nat.le_of_eq (start_forks hpush.debug k _ name main)
  | exit pid latest => exact Nat.le_of_eq (change_forks s pid _ _ latest)
  | stop pid latest => exact Nat.le_of_eq (change_forks s pid _ _ latest)
  | cont pid latest => exact Nat.le_of_eq (change_forks s pid _ _ latest)
  | deliver =>
      rcases h.deliver_cases k with ⟨heq, -⟩ | ⟨i, e, -, -, heq⟩
      · rw [heq]
        exact Nat.le_succ _
      · let bare : System α := { s with pending := none }
        have hdebug : (bare.waitpid e.pid).debug = false := h.debug
        rw [heq]
        exact Nat.le_of_eq (start_forks hdebug k i e.name e.main)

theorem recorded_empty : (empty : System α).Recorded none := by
  refine ⟨rfl, List.nodup_nil, fun i e _ hi => ?_, fun p hp => ?_⟩
  · cases hi
  · cases hp

theorem recorded_run (k : Kernel α) (actions : List (Action α)) :
    (actions.foldl (step k) empty).Recorded none :=
  List.foldlRecOn (motive := fun s => s.Recorded none) actions (step k) recorded_empty
    fun _ h a _ => h.step k a

/-- In every run every entry records a child of its own, the children run what their entries say,
and no more of them have been started than entries were added and signals were read. -/
theorem always_recorded (k : Kernel α) (actions : List (Action α)) :
    (actions.foldl (step k) empty).Recorded none ∧
      (actions.foldl (step k) empty).forks ≤ actions.countP Action.starts := by
  have hcount (actions : List (Action α)) (s : System α) (h : s.Recorded none) :
      (actions.foldl (step k) s).forks ≤ s.forks + actions.countP Action.starts := by
    induction actions generalizing s with
    | nil => exact Nat.le_refl _
    | cons a actions ih =>
        have hfirst := h.step_forks k a
        have hrest := ih (s.step k a) (h.step k a)
        rw [List.countP_cons]
        exact hrest.trans (by omega)
  refine ⟨recorded_run k actions, ?_⟩
  have hall := hcount actions empty recorded_empty
  rwa [show (empty : System α).forks = 0 from rfl, Nat.zero_add] at hall

end Runs

/-- No child is stopped, the live children are the recorded ones, and the pending signal is that of
a terminated child. -/
structure Single (s : System α) : Prop extends Recorded s none where
  unstopped : ∀ p ∈ s.procs, p.status ≠ .stopped
  single : ∀ p ∈ s.procs, p.status ≠ .terminated →
    ∃ e, s.entries[p.entry]? = some e ∧ e.pid = p.pid
  signalled : ∀ pid ∈ s.pending, s.Terminated pid

/-- An action that is not the stop of a child. -/
def Action.leavesRunning : Action α → Bool
  | .stop _ _ => false
  | _ => true

namespace Single

variable {i : Nat} {e : MonitorEntry α}

/-- No entry has two live children. -/
theorem live_le (h : s.Single) (i : Nat) : (s.live i).length ≤ 1 := by
  have hmem {p : Process α} (hp : p ∈ s.live i) :
      p ∈ s.procs ∧ ∃ e, s.entries[i]? = some e ∧ e.pid = p.pid := by
    have hfilter := List.mem_filter.mp hp
    simp only [decide_eq_true_eq] at hfilter
    obtain ⟨hprocs, rfl, hlive⟩ := hfilter
    exact ⟨hprocs, h.single p hprocs hlive⟩
  have hnodup : (s.live i).Nodup := (List.Nodup.of_map _ h.distinct).filter _
  rcases hlive : s.live i with _ | ⟨p, _ | ⟨q, rest⟩⟩
  · exact Nat.zero_le _
  · exact Nat.le_refl _
  · rw [hlive] at hnodup hmem
    obtain ⟨hp, e, hi, hpid⟩ := hmem List.mem_cons_self
    obtain ⟨hq, e', hi', hpid'⟩ := hmem (List.mem_cons_of_mem p List.mem_cons_self)
    obtain rfl := Option.some_inj.mp (hi.symm.trans hi')
    have hsame := List.inj_on_of_nodup_map h.distinct hp hq (hpid.symm.trans hpid')
    rw [hsame] at hnodup
    simp at hnodup

/-- A free entry is started whose earlier child, if any, has terminated. -/
theorem start (h : s.Recorded (some i)) (hi : s.entries[i]? = some e) (k : Kernel α)
    (unstopped : ∀ p ∈ s.procs, p.status ≠ .stopped)
    (single : ∀ p ∈ s.procs, p.status ≠ .terminated →
      p.entry ≠ i ∧ ∃ e, s.entries[p.entry]? = some e ∧ e.pid = p.pid)
    (signalled : ∀ pid ∈ s.pending, s.Terminated pid) :
    (s.start k i e.name e.main).Single := by
  have hstart := start_eq (k := k) h.debug i e.name e.main
  refine ⟨h.start hi k, fun p hp => ?_, fun p hp hlive => ?_, fun pid hpid => ?_⟩
  · rw [hstart] at hp
    rcases List.mem_append.mp hp with hp | hp
    · exact unstopped p hp
    · rw [List.mem_singleton.mp hp]
      exact nofun
  · rw [hstart] at hp ⊢
    rcases List.mem_append.mp hp with hp | hp
    · obtain ⟨hother, e', he', hpid⟩ := single p hp hlive
      exact ⟨e', by rw [List.getElem?_modify_ne _ _ (Ne.symm hother), he'], hpid⟩
    · rw [List.mem_singleton.mp hp]
      exact ⟨_, by rw [List.getElem?_modify_eq, hi]; rfl, rfl⟩
  · rw [hstart] at hpid ⊢
    obtain ⟨p, hp, hdead⟩ := signalled pid hpid
    exact ⟨p, List.mem_append_left _ hp, hdead⟩

theorem add (h : s.Single) (k : Kernel α) (name : Bytes) (main : α) :
    (s.add k name main).Single := by
  have hnew : (s.entries ++ [⟨name, main, 0⟩])[s.entries.length]? = some ⟨name, main, 0⟩ :=
    List.getElem?_concat_length ..
  refine Single.start (h.push ⟨name, main, 0⟩) hnew k h.unstopped (fun p hp hlive => ?_) h.signalled
  obtain ⟨e, he, hpid⟩ := h.single p hp hlive
  have hlt := (List.getElem?_eq_some_iff.mp he).1
  exact ⟨Nat.ne_of_lt hlt, e, by rw [List.getElem?_append_left hlt, he], hpid⟩

/-- The child that a signal names has terminated, and is waited for before its entry is started. -/
theorem deliver (h : s.Single) (k : Kernel α) : (s.step k .deliver).Single := by
  rcases h.deliver_cases k with ⟨heq, -⟩ | ⟨i, e, hi, hpending, heq⟩
  · rw [heq]
    exact ⟨⟨h.debug, h.distinct, h.own, h.runs⟩, h.unstopped, h.single, nofun⟩
  · have hbare : ({ s with pending := none } : System α).Recorded none :=
      ⟨h.debug, h.distinct, h.own, h.runs⟩
    rw [heq]
    refine Single.start (hbare.waitpid hi) hi k (fun p hp => ?_) (fun p hp hlive => ?_) nofun
    · exact h.unstopped p (List.mem_filter.mp hp).1
    · have hmem := (List.mem_filter.mp hp).1
      obtain ⟨e', he', hpid⟩ := h.single p hmem hlive
      refine ⟨fun hentry => hlive ?_, e', he', hpid⟩
      obtain ⟨q, hq, hqpid, hdead⟩ := h.signalled e.pid hpending
      rw [hentry, hi] at he'
      cases he'
      rw [List.inj_on_of_nodup_map h.distinct hmem hq (hpid.symm.trans hqpid.symm)]
      exact hdead

theorem exit (h : s.Single) (pid : Pid) (latest : Bool) :
    (s.change pid (· ≠ .terminated) .terminated latest).Single := by
  have hrecorded := h.change pid (· ≠ .terminated) .terminated latest
  rcases change_cases s pid (· ≠ .terminated) .terminated latest with heq | ⟨hchild, heq⟩
  · rw [heq]
    exact h
  · obtain ⟨c, hc, hcpid, -⟩ := exists_child pid hchild
    rw [heq] at hrecorded ⊢
    refine ⟨hrecorded, fun p hp => ?_, fun p hp hlive => ?_, fun pid' hpid' => ?_⟩
    · obtain ⟨q, hq, rfl⟩ := List.mem_map.mp hp
      rw [changed_status]
      split
      · exact nofun
      · exact h.unstopped q hq
    · obtain ⟨q, hq, rfl⟩ := List.mem_map.mp hp
      rw [changed_status] at hlive
      split at hlive
      · exact absurd rfl hlive
      · rw [changed_pid, changed_entry]
        exact h.single q hq hlive
    · have hterminated : ∃ q ∈ s.procs, q.pid = pid' ∧ (q.pid ≠ pid → q.status = .terminated) := by
        rcases mem_raise hpid' with rfl | hpid'
        · exact ⟨c, hc, hcpid, fun hother => absurd hcpid hother⟩
        · obtain ⟨q, hq, hqpid, hdead⟩ := h.signalled pid' hpid'
          exact ⟨q, hq, hqpid, fun _ => hdead⟩
      obtain ⟨q, hq, hqpid, hdead⟩ := hterminated
      refine ⟨changed pid .terminated q, List.mem_map_of_mem hq, by rwa [changed_pid], ?_⟩
      rw [changed_status]
      split
      · rfl
      · exact hdead ‹_›

theorem step (h : s.Single) (k : Kernel α) {a : Action α} (ha : Action.leavesRunning a = true) :
    (s.step k a).Single := by
  cases a with
  | add name main => exact h.add k name main
  | exit pid latest =>
      rw [System.step]
      exact h.exit pid latest
  | stop pid latest => cases ha
  | cont pid latest =>
      -- no child is stopped, so that none is continued
      rcases change_cases s pid (· = .stopped) .running latest with heq | ⟨hchild, -⟩
      · rw [System.step, heq]
        exact h
      · obtain ⟨c, hc, -, hp⟩ := exists_child pid hchild
        exact absurd (of_decide_eq_true hp) (h.unstopped c hc)
  | deliver => exact h.deliver k

end Single

theorem single_empty : (empty : System α).Single := by
  refine ⟨recorded_empty, fun p hp => ?_, fun p hp => ?_, nofun⟩
  · cases hp
  · cases hp

/-- In every run in which no child is stopped, no entry ever has two live children, whichever
signals are merged and lost. -/
theorem at_most_one (k : Kernel α) (actions : List (Action α))
    (running : ∀ a ∈ actions, Action.leavesRunning a = true) (i : Nat) :
    ((actions.foldl (step k) empty).live i).length ≤ 1 :=
  Single.live_le (List.foldlRecOn (motive := Single) actions (step k) single_empty
    fun _ h a ha => h.step k (running a ha)) i

/-- Of two children that exit together one is started again, and the other one has not been. -/
theorem at_most_one_merged :
    let s := [.add (text "ervan.smtp") (), .add (text "ervan.imap") (), .exit 1 false,
      .exit 2 false, .deliver].foldl (step counting) empty
    (s.live 0).length ≤ 1 ∧ (s.live 1).length ≤ 1 :=
  ⟨at_most_one counting _ (by decide) 0, at_most_one counting _ (by decide) 1⟩

/-- Of two signals that are merged, the lost one is not that of a terminated child. Any signal may
be read. -/
def Kept (s : System α) : Action α → Prop
  | .deliver => True
  | a => s.Clean a

instance (s : System α) : (a : Action α) → Decidable (s.Kept a)
  | .deliver => isTrue trivial
  | .add name main => inferInstanceAs (Decidable (s.Clean (.add name main)))
  | .exit pid latest => inferInstanceAs (Decidable (s.Clean (.exit pid latest)))
  | .stop pid latest => inferInstanceAs (Decidable (s.Clean (.stop pid latest)))
  | .cont pid latest => inferInstanceAs (Decidable (s.Clean (.cont pid latest)))

/-- The signal of a terminated child is pending, if an entry records the child. -/
structure Answered (s : System α) : Prop extends Recorded s none where
  signalled : ∀ (i : Nat) (e : MonitorEntry α), s.entries[i]? = some e → s.Terminated e.pid →
    s.pending = some e.pid

namespace Answered

variable {i : Nat} {e : MonitorEntry α}

theorem start (h : s.Recorded (some i)) (hi : s.entries[i]? = some e) (k : Kernel α)
    (signalled : ∀ (j : Nat) (e : MonitorEntry α), j ≠ i → s.entries[j]? = some e →
      s.Terminated e.pid → s.pending = some e.pid) :
    (s.start k i e.name e.main).Answered := by
  refine ⟨h.start hi k, fun j e' hj hterminated => ?_⟩
  rw [start_eq h.debug] at hj hterminated ⊢
  obtain ⟨p, hp, hpid, hdead⟩ := hterminated
  have hold : p ∈ s.procs := by
    rcases List.mem_append.mp hp with hp | hp
    · exact hp
    · rw [List.mem_singleton.mp hp] at hdead
      cases hdead
  by_cases hij : i = j
  · subst hij
    rw [List.getElem?_modify_eq, hi] at hj
    cases hj
    exact absurd hpid (k.fresh _ _ p hold)
  · rw [List.getElem?_modify_ne _ _ hij] at hj
    exact signalled j e' (Ne.symm hij) hj ⟨p, hold, hpid, hdead⟩

theorem add (h : s.Answered) (k : Kernel α) (name : Bytes) (main : α) :
    (s.add k name main).Answered := by
  have hnew : (s.entries ++ [⟨name, main, 0⟩])[s.entries.length]? = some ⟨name, main, 0⟩ :=
    List.getElem?_concat_length ..
  refine Answered.start (h.push ⟨name, main, 0⟩) hnew k fun j e' hother hj hterminated => ?_
  have hlt : j < s.entries.length := by
    have hle := (List.getElem?_eq_some_iff.mp hj).1
    rw [List.length_append, List.length_singleton] at hle
    omega
  rw [List.getElem?_append_left hlt] at hj
  exact h.signalled j e' hj hterminated

/-- The entry whose child has terminated is the one that is started again. -/
theorem deliver (h : s.Answered) (k : Kernel α) : (s.step k .deliver).Answered := by
  have hbare : ({ s with pending := none } : System α).Recorded none :=
    ⟨h.debug, h.distinct, h.own, h.runs⟩
  rcases h.deliver_cases k with ⟨heq, hother⟩ | ⟨i, e, hi, hpending, heq⟩
  · rw [heq]
    refine ⟨hbare, fun j e hj hterminated => ?_⟩
    exact absurd rfl (hother e.pid (h.signalled j e hj hterminated) j e hj)
  · rw [heq]
    refine Answered.start (hbare.waitpid hi) hi k fun j e' hji hj hterminated => ?_
    obtain ⟨p, hp, hdead⟩ := hterminated
    have hsignalled := h.signalled j e' hj ⟨p, (List.mem_filter.mp hp).1, hdead⟩
    rw [hpending, Option.some_inj] at hsignalled
    exact absurd (h.unique hj hi hsignalled.symm) hji

/-- A change keeps the signals of the terminated children. -/
theorem change (h : s.Answered) {pid : Pid} {p : Status → Bool} {status : Status} {latest : Bool}
    (lossless : s.hasChild pid p = true → ∀ pid' ∈ s.pending, pid' ≠ pid →
      (latest = true → ¬ s.Terminated pid') ∧ (status = .terminated → latest = true)) :
    (s.change pid p status latest).Answered := by
  have hrecorded := h.toRecorded.change pid p status latest
  rcases change_cases s pid p status latest with heq | ⟨hchild, heq⟩
  · rw [heq]
    exact h
  · have kept := lossless hchild
    rw [heq] at hrecorded ⊢
    refine ⟨hrecorded, fun i e hi hterminated => ?_⟩
    obtain ⟨c', hc', hpid, hdead⟩ := hterminated
    obtain ⟨c, hc, rfl⟩ := List.mem_map.mp hc'
    rw [changed_pid] at hpid
    rw [changed_status] at hdead
    change (s.raise pid latest).pending = some e.pid
    split at hdead
    · rename_i hown
      rw [← hpid, hown]
      exact raise_own fun pid' hpending hother => (kept pid' hpending hother).2 hdead
    · rename_i hother
      have hsignalled := h.signalled i e hi ⟨c, hc, hpid, hdead⟩
      have hlatest : latest ≠ true := fun hlatest =>
        (kept e.pid hsignalled (hpid ▸ hother)).1 hlatest ⟨c, hc, hpid, hdead⟩
      simp only [System.raise, hsignalled, if_neg hlatest]

theorem step (h : s.Answered) (k : Kernel α) {a : Action α} (kept : s.Kept a) :
    (s.step k a).Answered := by
  cases a with
  | add name main => exact h.add k name main
  | exit pid latest =>
      rw [System.step]
      refine h.change fun hchild pid' hpending hother => ?_
      obtain ⟨hlatest, hlost⟩ := kept hchild pid' hpending hother
      exact ⟨fun _ => hlost, fun _ => hlatest⟩
  | stop pid latest =>
      rw [System.step]
      exact h.change fun hchild pid' hpending hother =>
        ⟨kept hchild pid' hpending hother, fun hstop => by cases hstop⟩
  | cont pid latest =>
      rw [System.step]
      exact h.change fun hchild pid' hpending hother =>
        ⟨kept hchild pid' hpending hother, fun hcont => by cases hcont⟩
  | deliver => exact h.deliver k

end Answered

theorem answered_empty : (empty : System α).Answered :=
  ⟨recorded_empty, fun i e hi => by cases hi⟩

/-- In every run in which no termination is lost, the recorded child of every entry is live or its
signal is pending, whichever children are stopped and continued. -/
theorem live_or_signalled (k : Kernel α) (actions : List (Action α))
    (kept : Run.Along (step k) Kept empty actions) (i : Nat) (e : MonitorEntry α)
    (hi : (actions.foldl (step k) empty).entries[i]? = some e) :
    (∃ p ∈ (actions.foldl (step k) empty).live i, p.pid = e.pid) ∨
      (actions.foldl (step k) empty).pending = some e.pid := by
  have hanswered := Run.foldl_invariant (I := Answered)
    (fun s a h kept => Answered.step h k kept) answered_empty kept
  obtain ⟨p, hp, hpid, rfl⟩ := hanswered.own i e nofun hi
  by_cases hdead : p.status = .terminated
  · exact Or.inr (hanswered.signalled _ e hi ⟨p, hp, hpid, hdead⟩)
  · refine Or.inl ⟨p, List.mem_filter.mpr ⟨hp, ?_⟩, hpid⟩
    exact decide_eq_true ⟨rfl, hdead⟩

/-- A child is stopped, and so started a second time; then the second one exits. -/
theorem live_or_signalled_stopped :
    let s := [.add (text "ervan.smtp") (), .stop 1 false, .deliver, .exit 2 false].foldl
      (step counting) empty
    (∃ p ∈ s.live 0, p.pid = 2) ∨ s.pending = some 2 :=
  live_or_signalled counting _ (by decide) 0 ⟨text "ervan.smtp", (), 2⟩ (by decide)

end System

end Ervan.Main
