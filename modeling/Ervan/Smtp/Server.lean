import Ervan.Smtp.Accounts
import Ervan.Smtp.Transaction

/-!
# Sessions that share a spool directory

The sessions of a process take turns at every event, and several processes may serve the same
directory. The names of the files come from one counter a process, so no two sessions ever have a
file of the same name, and what a session has in the directory is what it would have there alone.
-/

namespace Ervan.Smtp

open Interleaving Session

/-- The paths tell apart the processes and the values of their counters. -/
theorem spoolPath_named {a a' : Answer} {pid time counter rand pid' time' counter' rand' : Nat}
    (hname : a.filename = getUniqueFilename (text "msg") pid time counter rand)
    (hname' : a'.filename = getUniqueFilename (text "msg") pid' time' counter' rand')
    (heq : spoolPath a = spoolPath a') : pid = pid' ∧ counter = counter' := by
  have hpath (a : Answer) {pid time counter rand : Nat}
      (hname : a.filename = getUniqueFilename (text "msg") pid time counter rand) :
      spoolPath a = text "./ingoing/" ++ (a.filename ++ text ".tar") := by
    rw [← List.append_assoc]
    apply List.takeWhile_eq_self_iff.mpr
    have hnul := nul_notMem_getUniqueFilename (show nul ∉ text "msg" by decide) pid time counter rand
    rw [← hname] at hnul
    intro c hc
    rw [bne_iff_ne]
    rintro rfl
    simp only [List.mem_append] at hc
    rcases hc with (hc | hc) | hc
    · exact absurd hc (by decide)
    · exact hnul hc
    · exact absurd hc (by decide)
  rw [hpath a hname, hpath a' hname'] at heq
  have hnames := List.append_cancel_right (List.append_cancel_left heq)
  rw [hname, hname'] at hnames
  exact ⟨getUniqueFilename_pid hnames, getUniqueFilename_counter hnames⟩

/-- Sessions, each with the process that serves it and with everything that happens to it. -/
structure Server (ι : Type) where
  process : ι → Nat
  env : ι → Env
  removed : ι → Nat → Bool
  mem : ι → Memory
  chunks : ι → List Bytes

namespace Server

variable {ι : Type} [DecidableEq ι]

/-- A session after `n` steps. -/
def reached (S : Server ι) (i : ι) (n : Nat) : Progress :=
  (advance (S.env i))^[n] (start (S.env i) (S.mem i), S.chunks i)

/-- What has happened to a session in its first `n` steps. -/
def happened (S : Server ι) (i : ι) (n : Nat) : List Happening :=
  happenings (S.env i) (S.removed i) 0 (S.reached i n).1.log

/-- A call of `get_unique_filename`, after which the file is opened at once. -/
def Names (h : Happening) : Prop := ∃ path ok, h.event = .open_ path ok

instance (h : Happening) : Decidable (Names h) :=
  match h with
  | ⟨.open_ path ok, _, _⟩ => isTrue ⟨path, ok, rfl⟩
  | ⟨.line _, _, _⟩ | ⟨.reply _, _, _⟩ | ⟨.write _ _, _, _⟩ | ⟨.tell _, _, _⟩ | ⟨.seek _ _, _, _⟩
  | ⟨.fsync _, _, _⟩ | ⟨.truncate, _, _⟩ | ⟨.unlink _, _, _⟩ | ⟨.close _, _, _⟩ =>
      isFalse (by rintro ⟨path, ok, h⟩; cases h)

/-- The static counter of `get_unique_filename` in a process. -/
def counter (S : Server ι) (pid : Nat) (trace : List (ι × Happening)) : Nat :=
  trace.countP fun x => S.process x.1 = pid ∧ Names x.2

/-- The sessions have got this far, in this order of their events. The counter of a process gives
the names, and is in the range of an `int`. -/
structure Trace (S : Server ι) (trace : List (ι × Happening)) : Prop where
  interleaves : ∀ i, ∃ n, own i trace <+: S.happened i n
  named : ∀ pre i h post, trace = pre ++ (i, h) :: post → Names h →
    S.counter (S.process i) pre < 2 ^ 31 ∧ ∃ time rand, h.answer.filename =
      getUniqueFilename (text "msg") (S.process i) time (S.counter (S.process i) pre) rand

/-- The directory after a trace. Nobody is `none`. -/
def spool (d : Directory (Option ι)) (trace : List (ι × Happening)) : Directory (Option ι) :=
  (trace.map fun x => (some x.1, x.2.op)).foldl Disk.step d

/-- The session that has created a path. -/
def owner (trace : List (ι × Happening)) (path : Bytes) : Option ι :=
  (trace.find? fun x => x.2.event = .open_ path true).map Prod.fst

variable {S : Server ι} {d : Directory (Option ι)} {trace trace' : List (ι × Happening)} {i j : ι}
variable {path : Bytes}

theorem Trace.of_front (h : S.Trace trace) (hfront : trace' <+: trace) : S.Trace trace' := by
  refine ⟨fun i => ?_, ?_⟩
  · obtain ⟨n, hn⟩ := h.interleaves i
    exact ⟨n, (own_front i hfront).trans hn⟩
  · obtain ⟨rest, rfl⟩ := hfront
    rintro pre i x post rfl
    exact h.named pre i x (post ++ rest) (by simp)

theorem Trace.admitted (h : S.Trace trace) (i : ι) : Admitted (own i trace) := by
  obtain ⟨n, hn⟩ := h.interleaves i
  exact (trailed_always (S.env i) (S.removed i) (S.mem i) (S.chunks i) n).admitted.of_front hn

theorem Trace.admits (h : S.Trace trace) {pre post : List (ι × Happening)} {x : Happening}
    (heq : trace = pre ++ (i, x) :: post) : (trail (own i pre)).Admits x := by
  refine h.admitted i (own i pre) x (own i post) ?_
  rw [heq, own_append, own_cons_self]

/-- In all sessions of all processes, a path is created once. -/
theorem Trace.unique (h : S.Trace trace) {pre post pre' post' : List (ι × Happening)}
    {x x' : Happening} (heq : trace = pre ++ (i, x) :: post)
    (heq' : trace = pre' ++ (j, x') :: post') (hx : x.event = .open_ path true)
    (hx' : x'.event = .open_ path true) : pre = pre' := by
  have hpath {i : ι} {pre post : List (ι × Happening)} {x : Happening}
      (heq : trace = pre ++ (i, x) :: post) (hx : x.event = .open_ path true) :
      path = spoolPath x.answer := by
    have hadmits := h.admits heq
    rw [Trail.Admits, hx] at hadmits
    exact hadmits
  obtain ⟨-, time, rand, hname⟩ := h.named pre i x post heq ⟨path, true, hx⟩
  obtain ⟨-, time', rand', hname'⟩ := h.named pre' j x' post' heq' ⟨path, true, hx'⟩
  obtain ⟨hpid, hcounter⟩ :=
    spoolPath_named hname hname' ((hpath heq hx).symm.trans (hpath heq' hx'))
  rw [← hpid] at hcounter
  -- The counter has moved on between the two.
  have hmoves {i : ι} {pre mid : List (ι × Happening)} {x : Happening}
      (hx : x.event = .open_ path true) :
      S.counter (S.process i) pre < S.counter (S.process i) (pre ++ (i, x) :: mid) := by
    have hone : 0 < S.counter (S.process i) ((i, x) :: mid) := by
      rw [counter, List.countP_pos_iff]
      exact ⟨(i, x), List.mem_cons_self, by simp [Names, hx]⟩
    rw [counter, counter, List.countP_append]
    exact Nat.lt_add_of_pos_right hone
  rcases List.append_eq_append_iff.mp (heq.symm.trans heq') with ⟨mid, hpre, hmid⟩ | ⟨mid, hpre, hmid⟩
  · cases mid with
    | nil => rw [hpre, List.append_nil]
    | cons y mid =>
        obtain ⟨rfl, -⟩ := List.cons.inj hmid
        rw [hpre] at hcounter
        exact absurd hcounter (Nat.ne_of_lt (hmoves hx))
  · cases mid with
    | nil => rw [hpre, List.append_nil]
    | cons y mid =>
        obtain ⟨rfl, -⟩ := List.cons.inj hmid
        rw [hpre, hpid] at hcounter
        exact absurd hcounter.symm (Nat.ne_of_lt (hmoves hx'))

theorem Trace.owner_eq (h : S.Trace trace) {x : Happening} (hmem : (i, x) ∈ trace)
    (hx : x.event = .open_ path true) : owner trace path = some i := by
  obtain ⟨pre, post, heq⟩ := List.append_of_mem hmem
  obtain ⟨y, hy⟩ : ∃ y, trace.find? (fun x => decide (x.2.event = .open_ path true)) = some y := by
    rw [← Option.isSome_iff_exists, List.find?_isSome]
    exact ⟨(i, x), hmem, by simp [hx]⟩
  obtain ⟨pre', post', heq'⟩ := List.append_of_mem (List.mem_of_find?_eq_some hy)
  have hopens : y.2.event = .open_ path true := by simpa using List.find?_some hy
  have hsame := h.unique heq heq' hx hopens
  rw [owner, hy, Option.map_some]
  rw [heq, hsame, List.append_cancel_left_eq] at heq'
  rw [← (List.cons.inj heq').1]

theorem Trace.owner_creations (h : S.Trace trace) (hmem : path ∈ creations (own i trace)) :
    owner trace path = some i := by
  obtain ⟨x, hx, hopens⟩ := mem_creations.mp hmem
  exact h.owner_eq (mem_own.mp hx) hopens

/-- What the sessions do to the directory. -/
def ops (trace : List (ι × Happening)) : List (Option ι × Disk.Op Bytes Bytes Nat) :=
  trace.map fun x => (some x.1, x.2.op)

theorem own_ops (i : ι) (trace : List (ι × Happening)) :
    own (some i) (ops trace) = (own i trace).map Happening.op :=
  own_map (Option.some_injective ι) Happening.op i trace

/-- No session opens or removes a file of another. -/
theorem Trace.owns (h : S.Trace trace) : ∀ a ∈ ops trace, Disk.Owns (owner trace) a := by
  intro a ha
  obtain ⟨⟨i, x⟩, hmem, rfl⟩ := List.mem_map.mp ha
  obtain ⟨pre, post, heq⟩ := List.append_of_mem hmem
  have hadmits := h.admits heq
  obtain ⟨e, answer, removed⟩ := x
  cases e with
  | open_ path ok =>
      cases ok with
      | true => exact h.owner_eq hmem rfl
      | false => exact True.intro
  | unlink path =>
      cases removed with
      | true =>
          have hcreated := file_creations hadmits
          refine h.owner_creations (creations_mono ?_ hcreated)
          rw [heq]
          exact own_front i (List.prefix_append _ _)
      | false => exact True.intro
  | _ => exact True.intro

theorem Trace.nodup (h : S.Trace trace) (i : ι) : (creations (own i trace)).Nodup := by
  induction trace using List.reverseRecOn with
  | nil => exact List.nodup_nil
  | append_singleton trace x ih =>
      obtain ⟨j, x⟩ := x
      have hbefore := h.of_front (List.prefix_append trace [(j, x)])
      rw [own_append]
      by_cases hj : j = i
      · subst hj
        rw [own_cons_self, own_nil, creations_append, List.nodup_append]
        refine ⟨ih hbefore, creations_singleton_nodup x, ?_⟩
        rintro path hpath _ hnew rfl
        obtain ⟨y, hy, hopens⟩ := mem_creations.mp hpath
        obtain ⟨z, hz, hopens'⟩ := mem_creations.mp hnew
        rw [List.mem_singleton.mp hz] at hopens'
        obtain ⟨pre, post, heq⟩ := List.append_of_mem (mem_own.mp hy)
        have hearlier : trace ++ [(j, x)] = pre ++ (j, y) :: (post ++ [(j, x)]) := by
          rw [heq, List.append_assoc, List.cons_append]
        have hsame := h.unique hearlier (rfl : _ = trace ++ (j, x) :: []) hopens hopens'
        rw [hsame] at heq
        exact absurd (congrArg List.length heq) (by simp)
      · rw [own_cons_other hj, own_nil, List.append_nil]
        exact ih hbefore

/-- A directory in which a trace can take place: nobody has a file of it open, and it has none of
the files that are creations. -/
structure Ready (d : Directory (Option ι)) (trace : List (ι × Happening)) : Prop where
  resting : d.Resting
  new : ∀ x ∈ trace, ∀ path, x.2.event = .open_ path true → d.lookup path = none

theorem Ready.creations (h : Ready d trace) (hmem : path ∈ creations (own i trace)) :
    d.lookup path = none := by
  obtain ⟨x, hx, hopens⟩ := mem_creations.mp hmem
  exact h.new (i, x) (mem_own.mp hx) path hopens

/-- Every session finds in the directory what it would find there alone. -/
theorem Trace.alone (h : S.Trace trace) (ready : Ready d trace) (i : Option ι) :
    Disk.Same (owner trace) i (spool d trace) (d.run i (own i (ops trace))) :=
  Disk.alone (ready.resting.separate _) h.owns i

omit [DecidableEq ι] in
theorem Ready.start (h : Ready d trace) (owner : Bytes → Option ι) (i : Option ι) :
    Matches owner d d i [] {} where
  separate := h.resting.separate owner
  opened := by rw [Disk.opened, h.resting.handles]; rfl
  linked := fun hlinked => Bool.noConfusion hlinked
  only := fun path ⟨n, b, _, hi⟩ => by rw [h.resting.handles] at hi; cases hi
  named := fun path hpath => by cases hpath
  kept := fun x hx => by rcases hx with hx | hx <;> cases hx
  untouched := fun _ _ => rfl

theorem Trace.matches (h : S.Trace trace) (ready : Ready d trace) (i : ι) :
    Matches (owner trace) d (d.run (some i) ((own i trace).map Happening.op)) (some i)
      (creations (own i trace)) (trail (own i trace)) :=
  (ready.start _ _).run (h.admitted i) (h.nodup i) fun _ hpath =>
    ⟨ready.creations hpath, h.owner_creations hpath⟩

/-- What has been answered with 250 is in the directory. -/
theorem Trace.delivered (h : S.Trace trace) (ready : Ready d trace) {x : Bytes × Bytes}
    (hx : x ∈ (trail (own i trace)).delivered) : (spool d trace).lookup x.1 = some x.2 := by
  obtain ⟨hcreated, hlookup, -⟩ := (h.matches ready i).kept x (Or.inr hx)
  have hsame := (h.alone ready (some i)).lookup x.1 (h.owner_creations hcreated)
  rwa [own_ops, hlookup] at hsame

/-- The reply to the data that step `n` of a session has received has been sent. -/
def Sent (S : Server ι) (trace : List (ι × Happening)) (i : ι) (n : Nat) : Prop :=
  Session.Acknowledges (S.env i) (S.reached i n) ∧ S.happened i (n + 1) <+: own i trace

omit [DecidableEq ι] in
theorem reached_succ (S : Server ι) (i : ι) (n : Nat) :
    S.reached i (n + 1) = advance (S.env i) (S.reached i n) :=
  Function.iterate_succ_apply' _ _ _

omit [DecidableEq ι] in
theorem happened_prefix (S : Server ι) (i : ι) {n m : Nat} (h : n ≤ m) :
    S.happened i n <+: S.happened i m := by
  have hlog : (S.reached i n).1.log <+: (S.reached i m).1.log := by
    have hfront := iterate_log (S.env i) (m - n) (S.reached i n)
    rwa [reached, ← Function.iterate_add_apply, Nat.sub_add_cancel h] at hfront
  obtain ⟨rest, hrest⟩ := hlog
  rw [happened, happened, ← hrest, happenings_append]
  exact List.prefix_append _ _

theorem Sent.delivered {n : Nat} (h : S.Sent trace i n) {contents : Bytes}
    (hclose : Event.close contents ∈ events (S.env i) (S.reached i n)) :
    ((S.reached i n).1.dataPath, contents) ∈ (trail (S.happened i (n + 1))).delivered := by
  have htrailed := trailed_always (S.env i) (S.removed i) (S.mem i) (S.chunks i) n
  have hdelivered := delivered_acknowledged htrailed h.1 hclose
  rw [happened, reached_succ]
  exact hdelivered ▸ List.mem_append_right _ (List.mem_singleton_self _)

/-- The file of a message that has been answered is closed with some contents. -/
theorem Sent.closed {n : Nat} (h : S.Sent trace i n) :
    ∃ contents, Event.close contents ∈ events (S.env i) (S.reached i n) := by
  obtain ⟨c₁, done, heq⟩ := acknowledges_completed h.1
  obtain ⟨es, -, -, hevents⟩ := events_completed done heq
  exact ⟨(c₁.dataFile.map DataFile.contents).getD [], by rw [hevents]; simp⟩

theorem Sent.closed_unique {n : Nat} (h : S.Sent trace i n) {contents contents' : Bytes}
    (hclose : Event.close contents ∈ events (S.env i) (S.reached i n))
    (hclose' : Event.close contents' ∈ events (S.env i) (S.reached i n)) : contents = contents' := by
  have htrailed := trailed_always (S.env i) (S.removed i) (S.mem i) (S.chunks i) n
  have hdelivered := (delivered_acknowledged htrailed h.1 hclose).symm.trans
    (delivered_acknowledged htrailed h.1 hclose')
  have hlast := (List.cons.inj (List.append_cancel_left hdelivered)).1
  exact congrArg Prod.snd hlast

theorem Sent.mem_creations {n : Nat} (h : S.Sent trace i n) :
    (S.reached i n).1.dataPath ∈ creations (own i trace) := by
  have hspooling := (trailed_always (S.env i) (S.removed i) (S.mem i) (S.chunks i) n).inside h.1.1
  refine creations_mono ?_ (file_creations hspooling.1)
  exact (S.happened_prefix i (Nat.le_succ n)).trans h.2

theorem Trace.matches_front (h : S.Trace trace) (ready : Ready d trace) {hs : List Happening}
    (hfront : hs <+: own i trace) :
    Matches (owner trace) d (d.run (some i) (hs.map Happening.op)) (some i) (creations hs)
      (trail hs) := by
  have hcreations (path : Bytes) (hmem : path ∈ creations hs) := creations_mono hfront hmem
  refine (ready.start _ _).run ((h.admitted i).of_front hfront) ?_ fun path hpath =>
    ⟨ready.creations (hcreations path hpath), h.owner_creations (hcreations path hpath)⟩
  obtain ⟨rest, heq⟩ := hfront
  have hnodup := h.nodup i
  rw [← heq, creations_append] at hnodup
  exact (List.nodup_append.mp hnodup).1

/-- A session does not use a path twice. -/
theorem Sent.ne_of_lt (h : S.Trace trace) (ready : Ready d trace) {n m : Nat}
    (sent : S.Sent trace i n) (sent' : S.Sent trace i m) (hlt : m < n) :
    (S.reached i m).1.dataPath ≠ (S.reached i n).1.dataPath := by
  obtain ⟨contents, hclose⟩ := sent'.closed
  have hspooling := (trailed_always (S.env i) (S.removed i) (S.mem i) (S.chunks i) n).inside
    sent.1.1
  have hkept := (h.matches_front ready ((S.happened_prefix i (Nat.le_succ n)).trans sent.2)).kept
    ((S.reached i m).1.dataPath, contents)
    (Or.inr ((delivered_grows (S.happened_prefix i hlt)).mem (sent'.delivered hclose)))
  intro heq
  exact hkept.2.2 (heq ▸ hspooling.1)

/-- In every interleaving of any number of sessions in any number of processes, the file of a
message that has been answered with 250 is in the directory from then on, with what it contained
when it was closed, and it is the file of no other message. -/
theorem acknowledged_stays (S : Server ι) (d : Directory (Option ι))
    (trace : List (ι × Happening)) (h : S.Trace trace) (ready : Ready d trace) (i : ι) (n : Nat)
    (sent : S.Sent trace i n) (contents : Bytes)
    (close : Event.close contents ∈ events (S.env i) (S.reached i n)) :
    (spool d trace).lookup (S.reached i n).1.dataPath = some contents ∧
      ∀ j m, S.Sent trace j m → (S.reached j m).1.dataPath = (S.reached i n).1.dataPath →
        j = i ∧ m = n := by
  refine ⟨h.delivered ready ((delivered_grows sent.2).mem (sent.delivered close)),
    fun j m sent' heq => ?_⟩
  have howner := h.owner_creations sent.mem_creations
  rw [← heq, h.owner_creations sent'.mem_creations, Option.some.injEq] at howner
  subst howner
  refine ⟨rfl, ?_⟩
  rcases Nat.lt_trichotomy m n with hlt | hsame | hlt
  · exact absurd heq (Sent.ne_of_lt h ready sent sent' hlt)
  · exact hsame
  · exact absurd heq.symm (Sent.ne_of_lt h ready sent' sent hlt)

/-- A session that sends a message, and one in another process that has only been greeted. -/
def pair : Server Bool where
  process b := if b then 2 else 1
  env b _ := { Answer.ideal with filename := getUniqueFilename (text "msg") (if b then 2 else 1) 2 0 3 }
  removed _ _ := true
  mem _ := .zeroed
  chunks b := if b then [] else (transmitted [text "x"]).2

/-- The greeting comes while the message is received. -/
def pairTrace : List (Bool × Happening) :=
  ((pair.happened false 9).take 9).map (Prod.mk false) ++ (pair.happened true 0).map (Prod.mk true) ++
    ((pair.happened false 9).drop 9).map (Prod.mk false)

/-- A directory without files. -/
def emptySpool : Directory (Option Bool) := ⟨fun _ => [], 0, fun _ => none, fun _ => none⟩

theorem own_pairTrace (b : Bool) : own b pairTrace = pair.happened b (if b then 0 else 9) := by
  have hself (b : Bool) (hs : List Happening) : own b (hs.map (Prod.mk b)) = hs := by
    induction hs with
    | nil => rfl
    | cons h hs ih => rw [List.map_cons, own_cons_self, ih]
  have hother (b b' : Bool) (hs : List Happening) (hne : b' ≠ b) :
      own b (hs.map (Prod.mk b')) = [] :=
    own_eq_nil fun a ha => by
      obtain ⟨h, -, rfl⟩ := List.mem_map.mp ha
      exact hne
  cases b with
  | false =>
      rw [pairTrace, own_append, own_append, hself, hself, hother false true _ (by decide),
        List.append_nil, List.take_append_drop]
      rfl
  | true =>
      rw [pairTrace, own_append, own_append, hother true false _ (by decide), hself,
        hother true false _ (by decide), List.append_nil, List.nil_append]
      rfl

/-- Nothing happens after the last chunk. -/
theorem own_pairTrace_ended : own false pairTrace = pair.happened false 10 := by
  have hlog : (pair.reached false 9).1.log = (pair.reached false 10).1.log := by decide +kernel
  rw [show own false pairTrace = pair.happened false 9 from own_pairTrace false]
  unfold happened
  rw [hlog]

theorem trace_pair : pair.Trace pairTrace := by
  refine ⟨fun b => ⟨if b then 0 else 9, by rw [own_pairTrace]⟩, ?_⟩
  -- Only one file is created.
  have hcount : pairTrace.countP (fun x => decide (Names x.2)) = 1 := by decide +kernel
  rintro pre b h post heq hnames
  have hnone : pair.counter (pair.process b) pre = 0 := by
    rw [heq, List.countP_append, List.countP_cons_of_pos (by simpa using hnames)] at hcount
    have hle : pair.counter (pair.process b) pre ≤ pre.countP (fun x => decide (Names x.2)) :=
      List.countP_mono_left fun x _ hx => by simp at hx ⊢; exact hx.2
    omega
  refine ⟨by rw [hnone]; decide, 2, 3, ?_⟩
  have hmem : h ∈ pair.happened b (if b then 0 else 9) := by
    rw [← own_pairTrace, mem_own, heq]
    simp
  obtain ⟨x, -, rfl⟩ := List.mem_map.mp hmem
  rw [hnone]
  rfl

theorem ready_pair : Ready emptySpool pairTrace :=
  ⟨⟨fun _ => rfl, fun _ _ h => (by cases h), fun _ _ _ h => (by cases h)⟩, fun _ _ _ _ => rfl⟩

theorem sent_pair : pair.Sent pairTrace false 8 := by
  refine ⟨by decide +kernel, ?_⟩
  rw [own_pairTrace]
  exact List.prefix_rfl

theorem acknowledged_stays_pair :
    ∃ contents, (spool emptySpool pairTrace).lookup (pair.reached false 8).1.dataPath = some contents := by
  obtain ⟨contents, hclose⟩ := sent_pair.closed
  exact ⟨contents, (acknowledged_stays pair emptySpool pairTrace trace_pair ready_pair false 8
    sent_pair contents hclose).1⟩

theorem creations_of_owner (howner : owner trace path = some i) :
    path ∈ creations (own i trace) := by
  obtain ⟨⟨j, x⟩, hfirst, hj⟩ := Option.map_eq_some_iff.mp howner
  obtain rfl : j = i := hj
  have hopens : x.event = .open_ path true := by simpa using List.find?_some hfirst
  exact mem_creations.mpr ⟨x, mem_own.mpr (List.mem_of_find?_eq_some hfirst), hopens⟩

/-- A file that a session has not delivered is gone when the session rests, if it cleans up. -/
theorem Trace.cleaned (h : S.Trace trace) (ready : Ready d trace) {n : Nat}
    (cleans : Run.Always (advance (S.env i)) (Cleans (S.env i) (S.removed i)) (S.reached i 0))
    (rests : own i trace = S.happened i n) (hstate : (S.reached i n).1.state ≠ .data)
    (hpath : path ∈ creations (own i trace))
    (other : path ∉ (trail (own i trace)).delivered.map Prod.fst) :
    (spool d trace).lookup path = none := by
  have hbalanced := balanced_always (S.env i) (S.removed i) (S.mem i) (S.chunks i) cleans n
  have hremoved : path ∈ removals (own i trace) := by
    have hfiles := hbalanced.files path (by rw [rests] at hpath; exact hpath)
    rw [hbalanced.outside hstate] at hfiles
    rcases hfiles with hmem | hmem | hmem
    · rw [rests]
      exact hmem
    · rw [rests] at other
      exact absurd hmem other
    · cases hmem
  have hsame := (h.alone ready (some i)).lookup path (h.owner_creations hpath)
  have hexists := (exists_run d (some i) (h.admitted i) (h.nodup i) hpath).not.mpr (not_not.mpr hremoved)
  rw [hsame, own_ops]
  simpa using hexists

/-- A delivered file is that of a message answered with 250. -/
theorem exists_sent {n : Nat} (rests : own i trace = S.happened i n)
    (hpath : path ∈ (trail (own i trace)).delivered.map Prod.fst) :
    ∃ m, S.Sent trace i m ∧ path = (S.reached i m).1.dataPath := by
  rw [rests] at hpath
  obtain ⟨y, hy, rfl⟩ := List.mem_map.mp hpath
  obtain ⟨m, hm, hack, heq, -⟩ := delivered_acknowledges (S.env i) (S.removed i) (S.mem i)
    (S.chunks i) n hy
  exact ⟨m, ⟨hack, by rw [rests]; exact S.happened_prefix i hm⟩, heq⟩

/-- When no session is in the data phase, and no file has been given up or could not be removed,
the directory is what it was before, with the files of the messages answered with 250 added to it
and nothing else. -/
theorem nothing_else (S : Server ι) (d : Directory (Option ι)) (trace : List (ι × Happening))
    (h : S.Trace trace) (ready : Ready d trace)
    (cleans : ∀ i, Run.Always (advance (S.env i)) (Cleans (S.env i) (S.removed i)) (S.reached i 0))
    (rests : ∀ i, ∃ n, own i trace = S.happened i n ∧ (S.reached i n).1.state ≠ .data)
    (path : Bytes) (other : ∀ i n, S.Sent trace i n → path ≠ (S.reached i n).1.dataPath) :
    (spool d trace).lookup path = d.lookup path := by
  by_cases hcreated : ∃ i, path ∈ creations (own i trace)
  · obtain ⟨i, hpath⟩ := hcreated
    obtain ⟨n, hn, hstate⟩ := rests i
    rw [ready.creations hpath, h.cleaned ready (cleans i) hn hstate hpath fun hdelivered => ?_]
    obtain ⟨m, sent, heq⟩ := exists_sent hn hdelivered
    exact other i m sent heq
  · have howner : owner trace path = none := by
      rw [owner, Option.map_eq_none_iff, List.find?_eq_none]
      intro x hx hopens
      exact hcreated ⟨x.1, mem_creations.mpr ⟨x.2, mem_own.mpr hx, by simpa using hopens⟩⟩
    have hnobody : own none (ops trace) = [] := own_eq_nil fun a ha => by
      obtain ⟨x, -, rfl⟩ := List.mem_map.mp ha
      simp
    have hsame := (h.alone ready none).lookup path howner
    rwa [hnobody] at hsame

theorem nothing_else_pair : (spool emptySpool pairTrace).lookup (text "./ingoing/a.tar") = none :=
  nothing_else pair emptySpool pairTrace trace_pair ready_pair
    (fun _ _ => ⟨fun _ _ _ _ => rfl, fun _ _ _ => rfl⟩)
    (fun b => ⟨_, own_pairTrace b, by cases b <;> decide +kernel⟩) _ fun b n sent heq => by
      have hmem := sent.mem_creations
      rw [own_pairTrace, ← heq] at hmem
      revert hmem
      cases b <;> decide +kernel

end Server

end Ervan.Smtp
