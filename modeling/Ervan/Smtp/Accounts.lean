import Ervan.Smtp.Directory

/-!
# Where the created files go

A turn creates a file, gives the open file up, or answers with 250 and delivers it. As long as no
file is given up while it is created, and every removal succeeds, a file that has been created has
been removed or delivered, or is the one that is still open.
-/

namespace Ervan.Smtp

/-- Neither creates, closes nor unlinks a file. -/
def Happening.Calm (h : Happening) : Prop :=
  (∀ path, h.event ≠ .open_ path true) ∧ (∀ path, h.event ≠ .unlink path) ∧
    ∀ contents, h.event ≠ .close contents

section Calm

variable {hs : List Happening} {t : Trail}

theorem creations_calm (calm : ∀ h ∈ hs, h.Calm) : creations hs = [] := by
  refine List.eq_nil_iff_forall_not_mem.mpr fun path hmem => ?_
  obtain ⟨h, hh, heq⟩ := mem_creations.mp hmem
  exact (calm h hh).1 path heq

theorem removals_calm (calm : ∀ h ∈ hs, h.Calm) : removals hs = [] := by
  refine List.filterMap_eq_nil_iff.mpr fun h hh => ?_
  have hother := (calm h hh).2.1
  obtain ⟨e, a, removed⟩ := h
  cases e with
  | unlink path => exact absurd rfl (hother path)
  | _ => rfl

theorem foldl_calm (calm : ∀ h ∈ hs, h.Calm) (hclosed : t.closed = none) :
    (hs.foldl Trail.follow t).file.map Prod.fst = t.file.map Prod.fst ∧
      (hs.foldl Trail.follow t).closed = none ∧
      (hs.foldl Trail.follow t).delivered = t.delivered := by
  induction hs generalizing t with
  | nil => exact ⟨rfl, hclosed, rfl⟩
  | cons h hs ih =>
      have hfirst : (t.follow h).file.map Prod.fst = t.file.map Prod.fst ∧
          (t.follow h).closed = none ∧ (t.follow h).delivered = t.delivered := by
        obtain ⟨hopens, hunlinks, hcloses⟩ := calm h List.mem_cons_self
        obtain ⟨e, a, removed⟩ := h
        cases e with
        | open_ path ok =>
            cases ok with
            | true => exact absurd rfl (hopens path)
            | false =>
                rw [follow_refused]
                exact ⟨rfl, hclosed, rfl⟩
        | unlink path => exact absurd rfl (hunlinks path)
        | close contents => exact absurd rfl (hcloses contents)
        | reply r => simp [Trail.follow, hclosed]
        | _ => exact ⟨Option.map_map _ _ _, hclosed, rfl⟩
      obtain ⟨hfile, hclosed', hdelivered⟩ :=
        ih (fun h' hh' => calm h' (List.mem_cons_of_mem h hh')) hfirst.2.1
      exact ⟨hfile.trans hfirst.1, hclosed', hdelivered.trans hfirst.2.2⟩

end Calm

namespace Core

def happened (env : Env) (removed : Nat → Bool) (c : Core) : List Happening :=
  happenings env removed 0 c.log

/-- No file that has been closed is waiting for its reply. -/
def Answered (env : Env) (removed : Nat → Bool) (c : Core) : Prop :=
  (c.trail env removed).closed = none

/-- What a turn does to the files of a session. -/
structure Booked (env : Env) (removed : Nat → Bool) (c c' : Core) (new lost : List Bytes)
    (sent : List (Bytes × Bytes)) (file : Option Bytes) : Prop where
  creations : creations (c'.happened env removed) = creations (c.happened env removed) ++ new
  removals : removals (c'.happened env removed) = removals (c.happened env removed) ++ lost
  delivered : (c'.trail env removed).delivered = (c.trail env removed).delivered ++ sent
  file : (c'.trail env removed).file.map Prod.fst = file
  answered : c'.Answered env removed

variable {env : Env} {removed : Nat → Bool} {exact : Prop} {line : Bytes} {c c' c₁ : Core}

theorem happened_of_log (env : Env) (removed : Nat → Bool) {es : List Event}
    (hlog : c'.log = c.log ++ es) :
    c'.happened env removed =
      c.happened env removed ++ happenings env removed c.log.length es := by
  rw [happened, hlog, happenings_append, Nat.zero_add]
  rfl

theorem calm_happenings (env : Env) (removed : Nat → Bool) (n : Nat) {es : List Event}
    (calm : ∀ e ∈ es, e.isFile = true ∨ (∃ line, e = .line line) ∨ (∃ r, e = .reply r) ∨
      ∃ path, e = .open_ path false) : ∀ h ∈ happenings env removed n es, h.Calm := by
  intro h hmem
  have hevent : h.event ∈ es := by
    rw [← map_event_happenings env removed n es]
    exact List.mem_map_of_mem hmem
  refine ⟨fun path heq => ?_, fun path heq => ?_, fun contents heq => ?_⟩
  all_goals
    rw [heq] at hevent
    rcases calm _ hevent with hfile | ⟨_, h⟩ | ⟨_, h⟩ | ⟨_, h⟩
    · cases hfile
    all_goals cases h

/-- A turn that creates, closes and unlinks nothing. -/
theorem Booked.calm (h : c.Answered env removed) (es : List Event) (hlog : c'.log = c.log ++ es)
    (calm : ∀ e ∈ es, e.isFile = true ∨ (∃ line, e = .line line) ∨ (∃ r, e = .reply r) ∨
      ∃ path, e = .open_ path false) :
    Booked env removed c c' [] [] [] ((c.trail env removed).file.map Prod.fst) := by
  have hcalm := calm_happenings env removed c.log.length calm
  obtain ⟨hfile, hclosed, hdelivered⟩ := foldl_calm hcalm h
  have htrail := trail_of_log env removed hlog
  refine ⟨?_, ?_, ?_, ?_, ?_⟩
  · rw [happened_of_log env removed hlog, creations_append, creations_calm hcalm]
  · rw [happened_of_log env removed hlog, removals_append, removals_calm hcalm]
  · rw [htrail, hdelivered, List.append_nil]
  · rw [htrail, hfile]
  · rw [Answered, htrail, hclosed]

theorem Booked.trans {new new' lost lost' : List Bytes} {sent sent' : List (Bytes × Bytes)}
    {file file' : Option Bytes} (h : Booked env removed c c₁ new lost sent file)
    (h' : Booked env removed c₁ c' new' lost' sent' file') :
    Booked env removed c c' (new ++ new') (lost ++ lost') (sent ++ sent') file' where
  creations := by rw [h'.creations, h.creations, List.append_assoc]
  removals := by rw [h'.removals, h.removals, List.append_assoc]
  delivered := by rw [h'.delivered, h.delivered, List.append_assoc]
  file := h'.file
  answered := h'.answered

theorem Booked.create (env : Env) (removed : Nat → Bool) (c : Core) (path : Bytes) :
    Booked env removed c (c.emit (.open_ path true)) [path] [] [] (some path) := by
  have hlog := emit_log c (.open_ path true)
  have htrail := trail_emit env removed c (.open_ path true)
  refine ⟨?_, ?_, ?_, ?_, ?_⟩
  · rw [happened_of_log env removed hlog, creations_append]
    rfl
  · rw [happened_of_log env removed hlog, removals_append]
    rfl
  · rw [htrail]
    exact (List.append_nil _).symm
  · rw [htrail]
    rfl
  · rw [Answered, htrail]
    rfl

/-- A file is created, and the operations that follow leave it open. -/
theorem Booked.opened {path : Bytes} (before es : List Event) (h : c.Answered env removed)
    (hlog : c'.log = c.log ++ (before ++ .open_ path true :: es))
    (calm : ∀ e ∈ before ++ es, e.isFile = true ∨ (∃ line, e = .line line) ∨ (∃ r, e = .reply r) ∨
      ∃ path, e = .open_ path false) :
    Booked env removed c c' [path] [] [] (some path) := by
  have hbefore : Booked env removed c { c with log := c.log ++ before } [] [] [] _ :=
    .calm h before rfl fun e he => calm e (List.mem_append_left es he)
  have hcreate := Booked.create env removed { c with log := c.log ++ before } path
  have hafter : Booked env removed _ c' [] [] [] _ :=
    .calm hcreate.answered es (by rw [hlog]; simp [emit])
      fun e he => calm e (List.mem_append_right before he)
  have hbooked := hbefore.trans (hcreate.trans hafter)
  rwa [hcreate.file] at hbooked

theorem Booked.steps (h : c.Answered env removed) (hsteps : Steps env c c₁) :
    Booked env removed c c₁ [] [] [] ((c.trail env removed).file.map Prod.fst) := by
  obtain ⟨es, hlog, hfile, -⟩ := hsteps.log
  exact .calm h es hlog fun e he => Or.inl (hfile e he)

/-- The open file of an aborted transaction is removed, if it can be. -/
theorem Booked.aborted (hspooling : c.Spooling env removed)
    (hadmitted : Admitted (c.happened env removed)) :
    Booked env removed c (c.abortData env) []
      (if removed c.log.length then [c.dataPath] else []) [] none := by
  have hlog := abortData_log env c
  have htrail := trail_of_log env removed hlog
  have hhappened := happened_of_log env removed hlog
  obtain ⟨hmirrored, hdelivered⟩ := abortData_mirrored hadmitted hspooling
  have hclosed : (c.abortData env).dataFile = none := by rw [abortData_eq]
  refine ⟨?_, ?_, ?_, ?_, ?_⟩
  · rw [hhappened, creations_append]
    cases c.abortReply <;> rfl
  · rw [hhappened, removals_append]
    cases hr : removed c.log.length <;> cases c.abortReply <;> simp [happenings, Smtp.removals, hr]
  · rw [hdelivered, List.append_nil]
  · have hfile := hmirrored.file
    rw [hclosed, Option.map_eq_none_iff] at hfile
    rw [hfile, Option.map_none]
  · rw [Answered, htrail]
    cases c.abortReply <;> rfl

/-- The open file of a transaction that is answered with 250 is delivered. -/
theorem Booked.finished (hspooling : c.Spooling env removed) (hmirrored : c.Mirrored env removed) :
    Booked env removed c ((c.syncFile env).1.finishReply env) [] []
      [(c.dataPath, (c.dataFile.map DataFile.contents).getD [])] none := by
  have hlog : ((c.syncFile env).1.finishReply env).log = c.log ++ [.fsync (c.answer env).fsync,
      .close ((c.dataFile.map DataFile.contents).getD []), .reply .ok] := by
    rw [finishReply_eq]
  have htrail := trail_of_log env removed hlog
  have hhappened := happened_of_log env removed hlog
  refine ⟨?_, ?_, (finishReply_mirrored hmirrored hspooling).2, ?_, ?_⟩
  · rw [hhappened, creations_append]
    rfl
  · rw [hhappened, removals_append]
    rfl
  · rw [htrail]
    rfl
  · rw [Answered, htrail]
    rfl

/-- What a turn can do to the files of a session. -/
inductive Accounted (env : Env) (removed : Nat → Bool) (c c' : Core) : Prop
  | calm (state : c'.state = .data ↔ c.state = .data)
      (h : Booked env removed c c' [] [] [] ((c.trail env removed).file.map Prod.fst))
  | created (path : Bytes) (before : c.state ≠ .data)
      (h : Booked env removed c c' [path] [] [] (some path))
  | aborted (before : c.state = .data) (after : c'.state ≠ .data) (n : Nat)
      (unlink : c'.log[n]? = some (.unlink c.dataPath))
      (h : Booked env removed c c' [] (if removed n then [c.dataPath] else []) [] none)
  | delivered (before : c.state = .data) (after : c'.state ≠ .data) (c₁ : Core)
      (done : Completed env c c₁) (eq : c' = (c₁.syncFile env).1.finishReply env)
      (h : Booked env removed c c' [] [] [(c.dataPath, (c₁.dataFile.map DataFile.contents).getD [])]
        none)

theorem accounted_commanded (h : c.Answered env removed) (hstate : c.state = .cmd)
    (step : Commanded env exact line (c.emit (.line line)) c') : Accounted env removed c c' := by
  have hcmd : c.state ≠ .data := fun hdata => absurd (hstate.symm.trans hdata) (by decide)
  have hreplied (r : Reply) (hlog : c'.log = c.log ++ [.line line] ++ [.reply r])
      (hafter : c'.state ≠ .data) : Accounted env removed c c' := by
    refine .calm (iff_of_false hafter hcmd) (.calm h [.line line, .reply r] ?_ ?_)
    · rw [hlog, List.append_assoc]
      rfl
    · simp
  obtain ⟨-, es, hlog, hfile⟩ := openFiles_path env (c.emit (.line line))
  have hopened : ((c.emit (.line line)).openFiles env).1.state = c.state :=
    (openFiles_opened env (c.emit (.line line))).same Core.state fun _ _ _ _ => rfl
  have hevents (r : Reply) : ∀ e ∈ [Event.line line] ++ (es ++ [.reply r]), e.isFile = true ∨
      (∃ line, e = .line line) ∨ (∃ r, e = .reply r) ∨ ∃ path, e = .open_ path false := by
    intro e he
    simp only [List.mem_append, List.mem_singleton] at he
    rcases he with rfl | he | rfl
    · exact Or.inr (Or.inl ⟨_, rfl⟩)
    · exact Or.inl (hfile e he)
    · exact Or.inr (Or.inr (Or.inl ⟨_, rfl⟩))
  cases step with
  | refused r code => exact hreplied r rfl hcmd
  | noop verb => exact hreplied .ok rfl hcmd
  | greeted d r code verb named => exact hreplied r rfl (by decide : State.cmd ≠ .data)
  | sender p verb begun unset named => exact hreplied .ok rfl hcmd
  | recipient p verb begun room named => exact hreplied .ok rfl hcmd
  | notOpened verb failed =>
      have hafter : ((c.emit (.line line)).openFiles env).1.state ≠ .data := hopened ▸ hcmd
      cases hok : ((c.emit (.line line)).answer env).opened with
      | true =>
          refine .created (spoolPath ((c.emit (.line line)).answer env)) hcmd (.opened [.line line] (es ++ [.reply .localError]) h ?_
            (hevents .localError))
          rw [reply_log, hlog, hok]
          simp
      | false =>
          refine .calm (iff_of_false hafter hcmd) (.calm h (.line line ::
            .open_ (spoolPath ((c.emit (.line line)).answer env)) false ::
              (es ++ [.reply .localError])) ?_ fun e he => ?_)
          · rw [reply_log, hlog, hok]
            simp
          · simp only [List.mem_cons] at he
            rcases he with rfl | rfl | he
            · exact Or.inr (Or.inl ⟨_, rfl⟩)
            · exact Or.inr (Or.inr (Or.inr ⟨_, rfl⟩))
            · exact hevents .localError e (List.mem_append_right _ he)
  | entered verb set recipients opened =>
      refine .created (spoolPath ((c.emit (.line line)).answer env)) hcmd (.opened [.line line] (es ++ [.reply .startData]) h ?_
        (hevents .startData))
      rw [reply_log, dataEntered, hlog, openFiles_answer opened]
      simp
  | reset verb => exact hreplied .ok rfl (by decide : State.cmd ≠ .data)
  | closed verb r code => exact hreplied r rfl (by decide : State.closed ≠ .data)

theorem accounted_ended (h : c.Answered env removed) (ht : c.Trailed env removed)
    (hstate : c.state = .data) (step : Ended env c c') : Accounted env removed c c' := by
  have hspooling := ht.inside hstate
  have hafter : c'.state ≠ .data := fun hdata => absurd (step.eq.1.symm.trans hdata) (by decide)
  have haborted (c₁ : Core) (hsteps : Steps env c c₁) (heq : c' = c₁.abortData env) :
      Accounted env removed c c' := by
    have hbooked := Booked.steps h hsteps
    have hgone := hbooked.trans (.aborted (hsteps.spooling hspooling)
      (hsteps.admitted ht.admitted))
    rw [hsteps.same Core.dataPath fun _ _ _ _ => rfl, ← heq] at hgone
    refine .aborted hstate hafter c₁.log.length ?_ hgone
    rw [heq, abortData_log, List.getElem?_append_right (Nat.le_refl _), Nat.sub_self,
      hsteps.same Core.dataPath fun _ _ _ _ => rfl]
    rfl
  cases step with
  | tooLong h => exact haborted c (Steps.refl env c) rfl
  | finished short small _ step =>
      cases step with
      | unknown h => exact haborted _ (tellg_steps env c) rfl
      | failed known c₁ h error => exact haborted c₁ h rfl
      | done known c₁ hsteps clear eq accepted =>
          have hmirrored : c₁.Mirrored env removed := by
            rw [eq]
            exact (ht.tellg.finishMessage _).finishMetadata
          have hsent := (Booked.steps h hsteps).trans
            (.finished (hsteps.spooling hspooling) hmirrored)
          rw [hsteps.same Core.dataPath fun _ _ _ _ => rfl] at hsent
          exact .delivered hstate hafter c₁ ⟨short, small, known, hsteps, clear, eq, accepted⟩ rfl
            hsent

theorem accounted_turned (h : c.Answered env removed) (ht : c.Trailed env removed)
    (step : Turned env exact c c') : Accounted env removed c c' := by
  cases step with
  | idle => exact .calm Iff.rfl (.steps h (Steps.refl env c))
  | longCommand state =>
      exact .calm Iff.rfl (.calm h [.reply .exceededLine] rfl (by simp))
  | command state line _ step => exact accounted_commanded h state step
  | longData state => exact .calm Iff.rfl (.calm h [] (List.append_nil _).symm (by simp))
  | stored state line =>
      obtain ⟨es, hlog, hfile, -⟩ := (store_steps env line c).log
      rw [measureLine_eq] at hlog
      exact .calm (by rw [store_state]) (.calm h es hlog fun e he => Or.inl (hfile e he))
  | ended state => exact accounted_ended h ht state (endData_ended env c)

theorem Turned.answered (h : c.Answered env removed) (ht : c.Trailed env removed)
    (step : Turned env exact c c') : c'.Answered env removed := by
  cases accounted_turned h ht step with
  | calm state h => exact h.answered
  | created path before h => exact h.answered
  | aborted before after n unlink h => exact h.answered
  | delivered before after c₁ done eq h => exact h.answered

/-- A turn that is not the end of a data phase delivers nothing. -/
theorem Turned.delivered (h : c.Answered env removed) (ht : c.Trailed env removed)
    (step : Turned env exact c c') (going : c.state ≠ .data ∨ c'.state = .data) :
    (c'.trail env removed).delivered = (c.trail env removed).delivered := by
  cases accounted_turned h ht step with
  | calm state h => rw [h.delivered, List.append_nil]
  | created path before h => rw [h.delivered, List.append_nil]
  | aborted before after n unlink h => exact absurd before (going.resolve_right after)
  | delivered before after c₁ done eq h => exact absurd before (going.resolve_right after)

/-- An in-sequence DATA whose file can be written, if it can be created, leads to the data phase. -/
theorem data_enters (written : c.reverseSet = true → c.metadata.forwardPaths ≠ [] →
    (c.answer env).opened = true → ∀ i ≤ (traceInfo (env (c.log.length + 2))).length,
      (env (c.log.length + 1 + i)).written = true) :
    (c.data env).state = .data ∨
      ∃ es, (c.data env).log = c.log ++ es ∧ ∀ path, Event.open_ path true ∉ es := by
  unfold Core.data
  split
  · exact Or.inr ⟨[.reply .badSequence], rfl, by simp⟩
  · rename_i hseq
    simp only [Bool.or_eq_true, Bool.not_eq_true', not_or, Bool.not_eq_false, beq_iff_eq,
      List.length_eq_zero_iff] at hseq
    cases hok : (c.answer env).opened with
    | true =>
        have hopened := openFiles_succeeds hok (written hseq.1 hseq.2 hok)
        left
        simp only [hopened, Bool.not_true, Bool.false_eq_true, if_false]
        rfl
    | false =>
        obtain ⟨-, es, hlog, hfile⟩ := openFiles_path env c
        rw [hok] at hlog
        have hfailed : (c.openFiles env).2 = false := by
          by_contra hopened
          rw [openFiles_answer (Bool.not_eq_false _ ▸ hopened)] at hok
          cases hok
        right
        simp only [hfailed, Bool.not_false, if_true]
        refine ⟨.open_ (spoolPath (c.answer env)) false :: (es ++ [.reply .localError]), ?_,
          fun path hmem => ?_⟩
        · rw [reply_log, hlog]
          simp
        · simp only [List.mem_cons, List.mem_append, List.not_mem_nil, or_false] at hmem
          rcases hmem with heq | hmem | heq
          · cases heq
          · exact absurd (hfile _ hmem) (by simp [Event.isFile])
          · cases heq

theorem Commanded.replied (h : Commanded env exact line c c') (other : verbOf line ≠ some .data) :
    ∃ r, c'.log = c.log ++ [.reply r] := by
  cases h with
  | refused r code => exact ⟨r, rfl⟩
  | noop verb => exact ⟨.ok, rfl⟩
  | greeted d r code verb named => exact ⟨r, rfl⟩
  | sender p verb begun unset named => exact ⟨.ok, rfl⟩
  | recipient p verb begun room named => exact ⟨.ok, rfl⟩
  | notOpened verb failed => exact absurd verb other
  | entered verb set recipients opened => exact absurd verb other
  | reset verb => exact ⟨.ok, rfl⟩
  | closed verb r code => exact ⟨r, rfl⟩

end Core

namespace Session

variable {env : Env} {removed : Nat → Bool} {s : Session} {sp : Bytes} {x : Progress}

theorem feedCmd_enters
    (written : (∃ line ∈ s.delivered sp, verbOf line = some .data) → s.reverseSet = true →
      s.metadata.forwardPaths ≠ [] → (env (s.log.length + 1)).opened = true →
        ∀ i ≤ (Core.traceInfo (env (s.log.length + 3))).length,
          (env (s.log.length + 2 + i)).written = true) :
    (s.feedCmd env sp).1.state = .data ∨
      ∃ es, (s.feedCmd env sp).1.log = s.log ++ es ∧ ∀ path, Event.open_ path true ∉ es := by
  have joined := join_joined (by decide) s.cmdBuffer sp s.cmdOffset cmdTerminator
  unfold feedCmd
  unfold delivered at written
  generalize join s.cmdBuffer sp s.cmdOffset cmdTerminator = r at joined written ⊢
  cases joined with
  | quiet b offset quiet window => exact Or.inr ⟨[], (List.append_nil _).symm, by simp⟩
  | gaveUp b offset hlong => exact Or.inr ⟨[], (List.append_nil _).symm, by simp⟩
  | tooLong b pre rest c eq quiet complete window =>
      exact Or.inr ⟨[.reply .exceededLine], rfl, by simp⟩
  | line b pre rest c eq quiet complete line delivers =>
      simp only [handleLine, delivers.read, Bool.false_eq_true, if_false]
      have hlength : (s.emit (.line line)).log.length = s.log.length + 1 := by simp
      by_cases hdata : verbOf line = some .data
      · have hlen : 4 ≤ line.length := by
          by_contra hshort
          rw [verbOf, if_pos (Nat.lt_of_not_le hshort)] at hdata
          cases hdata
        have heffect := Core.callCommand_dispatch env (s.emit (.line line)) delivers hlen
        have hwritten := written ⟨line, congrArg some delivers.read, hdata⟩
        have henters := Core.data_enters (c := s.emit (.line line))
          fun set recipients opened i hi => by
            rw [Core.answer, hlength] at opened
            rw [hlength] at hi ⊢
            exact hwritten set recipients opened i hi
        rw [hdata] at heffect
        rw [heffect]
        rcases henters with hentered | ⟨es, hlog, hopens⟩
        · exact Or.inl hentered
        · refine Or.inr ⟨.line line :: es, ?_, ?_⟩
          · exact hlog.trans (by simp)
          · simpa using hopens
      · obtain ⟨r, hlog⟩ := (Core.callCommand_commanded env False
          (c := s.emit (.line line)) delivers False.elim).replied hdata
        refine Or.inr ⟨[.line line, .reply r], ?_, by simp⟩
        exact hlog.trans (by simp)

/-- A file that a clean step creates is the one of a data phase. -/
theorem Cleans.entered (cleans : Cleans env removed x) {path : Bytes} {lost : List Bytes}
    {sent : List (Bytes × Bytes)} {file : Option Bytes} (before : x.1.state ≠ .data)
    (h : Core.Booked env removed x.1.toCore (advance env x).1.toCore [path] lost sent file) :
    (advance env x).1.state = .data := by
  have hnothing (es : List Event) (hlog : (advance env x).1.log = x.1.log ++ es)
      (hopens : ∀ path, Event.open_ path true ∉ es) : False := by
    have hcreations := h.creations
    rw [Core.happened_of_log env removed hlog, creations_append, List.append_cancel_left_eq] at hcreations
    have hmem : path ∈ creations (happenings env removed x.1.log.length es) := by
      rw [hcreations]
      exact List.mem_singleton_self path
    obtain ⟨e, he, heq⟩ := mem_creations.mp hmem
    refine hopens path (heq ▸ ?_)
    rw [← map_event_happenings env removed x.1.log.length es]
    exact List.mem_map_of_mem he
  obtain ⟨s, _ | ⟨_ | ⟨c, sp⟩, chunks⟩⟩ := x
  · exact (hnothing [] (List.append_nil _).symm (by simp)).elim
  · exact (hnothing [] (List.append_nil _).symm (by simp)).elim
  · cases hstate : s.state with
    | data => exact absurd hstate before
    | closed =>
        have hrest : (advance env (s, (c :: sp) :: chunks)).1 = s := by
          rw [advance, turn, hstate]
        exact (hnothing [] (by rw [hrest, List.append_nil]) (by simp)).elim
    | cmd =>
        have hturn : (advance env (s, (c :: sp) :: chunks)).1 = (s.feedCmd env (c :: sp)).1 := by
          rw [advance, turn_cmd env (c :: sp) hstate]
        rw [hturn] at hnothing ⊢
        refine (feedCmd_enters fun hdata set recipients =>
          cleans.written ⟨hstate, set, recipients, c :: sp, rfl, hdata⟩).resolve_right ?_
        rintro ⟨es, hlog, hopens⟩
        exact hnothing _ hlog hopens

/-- The trail knows the open file, and nothing waits for its reply. -/
theorem answered_always (env : Env) (removed : Nat → Bool) (mem : Memory) (chunks : List Bytes) :
    Run.Always (advance env) (fun x => x.1.Trailed env removed ∧ x.1.Answered env removed)
      (start env mem, chunks) := by
  have htrailed := trailed_always env removed mem chunks
  have hanswered := htrailed.invariant (I := fun x => x.1.Answered env removed) rfl
    fun x h hanswered => Core.Turned.answered hanswered h (advance_turned env x)
  exact fun n => ⟨htrailed n, hanswered n⟩

theorem accounted_always (env : Env) (removed : Nat → Bool) (mem : Memory) (chunks : List Bytes) :
    Run.Always (advance env)
      (fun x => Core.Accounted env removed x.1.toCore (advance env x).1.toCore)
      (start env mem, chunks) :=
  (answered_always env removed mem chunks).mono fun x h =>
    Core.accounted_turned h.2 h.1 (advance_turned env x)

/-- A file is delivered by a step that answers the data with 250. -/
theorem delivered_acknowledges (env : Env) (removed : Nat → Bool) (mem : Memory)
    (chunks : List Bytes) (n : Nat) {y : Bytes × Bytes}
    (hy : y ∈ (((advance env)^[n] (start env mem, chunks)).1.trail env removed).delivered) :
    ∃ m < n, Acknowledges env ((advance env)^[m] (start env mem, chunks)) ∧
      y.1 = ((advance env)^[m] (start env mem, chunks)).1.dataPath ∧
      Event.close y.2 ∈ events env ((advance env)^[m] (start env mem, chunks)) := by
  induction n with
  | zero => cases hy
  | succ n ih =>
      have hstep := accounted_always env removed mem chunks n
      have hnext := Function.iterate_succ_apply' (advance env) n (start env mem, chunks)
      rw [hnext] at hy
      generalize hx : (advance env)^[n] (start env mem, chunks) = x at hstep hy ih
      have hlift (h : ∃ m < n, Acknowledges env ((advance env)^[m] (start env mem, chunks)) ∧
          y.1 = ((advance env)^[m] (start env mem, chunks)).1.dataPath ∧
          Event.close y.2 ∈ events env ((advance env)^[m] (start env mem, chunks))) :
          ∃ m < n + 1, Acknowledges env ((advance env)^[m] (start env mem, chunks)) ∧
          y.1 = ((advance env)^[m] (start env mem, chunks)).1.dataPath ∧
          Event.close y.2 ∈ events env ((advance env)^[m] (start env mem, chunks)) := by
        obtain ⟨m, hm, hrest⟩ := h
        exact ⟨m, Nat.lt_succ_of_lt hm, hrest⟩
      cases hstep with
      | calm state h =>
          rw [h.delivered, List.append_nil] at hy
          exact hlift (ih hy)
      | created path before h =>
          rw [h.delivered, List.append_nil] at hy
          exact hlift (ih hy)
      | aborted before after k unlink h =>
          rw [h.delivered, List.append_nil] at hy
          exact hlift (ih hy)
      | delivered before after c₁ done eq h =>
          rw [h.delivered, List.mem_append, List.mem_singleton] at hy
          rcases hy with hy | rfl
          · exact hlift (ih hy)
          · obtain ⟨es, -, -, hevents⟩ := events_completed done eq
            refine ⟨n, Nat.lt_succ_self n, ?_⟩
            rw [hx]
            exact ⟨⟨before, by rw [hevents]; simp⟩, rfl, by rw [hevents]; simp⟩

/-- A file that has been created has been removed or delivered, or is the open one, which there
is in the data phase only. -/
structure Balanced (env : Env) (removed : Nat → Bool) (c : Core) : Prop where
  files : ∀ path ∈ creations (c.happened env removed), path ∈ removals (c.happened env removed) ∨
    path ∈ (c.trail env removed).delivered.map Prod.fst ∨
    (c.trail env removed).file.map Prod.fst = some path
  outside : c.state ≠ .data → (c.trail env removed).file.map Prod.fst = none

theorem balanced_advance (h : Balanced env removed x.1.toCore) (ht : x.1.Trailed env removed)
    (hstep : Core.Accounted env removed x.1.toCore (advance env x).1.toCore)
    (cleans : Cleans env removed x) : Balanced env removed (advance env x).1.toCore := by
  cases hstep with
  | calm state hbooked =>
      refine ⟨fun path hmem => ?_, fun hafter => ?_⟩
      · rw [hbooked.creations, List.append_nil] at hmem
        rw [hbooked.removals, hbooked.delivered, hbooked.file, List.append_nil, List.append_nil]
        exact h.files path hmem
      · rw [hbooked.file]
        exact h.outside (mt state.mpr hafter)
  | created path before hbooked =>
      refine ⟨fun path' hmem => ?_, fun hafter => absurd (cleans.entered before hbooked) hafter⟩
      rw [hbooked.creations, List.mem_append, List.mem_singleton] at hmem
      rw [hbooked.removals, hbooked.delivered, hbooked.file, List.append_nil, List.append_nil]
      rcases hmem with hmem | rfl
      · have hearlier := h.files path' hmem
        rw [h.outside before] at hearlier
        exact hearlier.imp_right fun hrest => Or.inl (hrest.resolve_right (by simp))
      · exact Or.inr (Or.inr rfl)
  | aborted before after n unlink hbooked =>
      refine ⟨fun path hmem => ?_, fun _ => hbooked.file⟩
      rw [hbooked.creations, List.append_nil] at hmem
      rw [hbooked.removals, hbooked.delivered, hbooked.file, cleans.removes n _ unlink,
        List.append_nil, List.mem_append]
      rcases h.files path hmem with hpath | hpath | hpath
      · exact Or.inl (Or.inl hpath)
      · exact Or.inr (Or.inl hpath)
      · rw [(ht.inside before).1, Option.some.injEq] at hpath
        exact Or.inl (Or.inr (by simp [hpath]))
  | delivered before after c₁ done eq hbooked =>
      refine ⟨fun path hmem => ?_, fun _ => hbooked.file⟩
      rw [hbooked.creations, List.append_nil] at hmem
      rw [hbooked.removals, hbooked.delivered, List.append_nil, List.map_append, List.mem_append]
      rcases h.files path hmem with hpath | hpath | hpath
      · exact Or.inl hpath
      · exact Or.inr (Or.inl (Or.inl hpath))
      · rw [(ht.inside before).1, Option.some.injEq] at hpath
        exact Or.inr (Or.inl (Or.inr (by simp [hpath])))

theorem balanced_always (env : Env) (removed : Nat → Bool) (mem : Memory) (chunks : List Bytes)
    (cleans : Run.Always (advance env) (Cleans env removed) (start env mem, chunks)) :
    Run.Always (advance env) (fun x => Balanced env removed x.1.toCore) (start env mem, chunks) := by
  have htrailed := trailed_always env removed mem chunks
  have haccounted := accounted_always env removed mem chunks
  refine Run.Always.invariant (P := fun x => Cleans env removed x ∧ x.1.Trailed env removed ∧
    Core.Accounted env removed x.1.toCore (advance env x).1.toCore)
    (fun n => ⟨cleans n, htrailed n, haccounted n⟩) ?_ fun x h hbalanced =>
      balanced_advance hbalanced h.2.1 h.2.2 h.1
  refine ⟨fun path hmem => ?_, fun _ => rfl⟩
  cases hmem

end Session

end Ervan.Smtp
