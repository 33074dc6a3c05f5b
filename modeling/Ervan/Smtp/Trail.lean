import Ervan.Smtp.Orphans
import Ervan.Smtp.Spool

/-!
# What a log does to the spool directory

The events of a session, with what the environment says about each of them, determine its open
file and the files that it has closed and answered with 250. A session keeps to the following: it
opens no path but the one it has been given, it removes no file but its own open one, and what it
says a closed file contains is what has been written to it.
-/

namespace Ervan.Smtp

/-- An event, the environment's answer to it and, for an `unlink`, whether it removes the file. -/
structure Happening where
  event : Event
  answer : Answer
  removed : Bool

/-- The happenings of a log that follows `n` events. -/
def happenings (env : Env) (removed : Nat → Bool) (n : Nat) (log : List Event) : List Happening :=
  (log.zipIdx n).map fun x => ⟨x.1, env x.2, removed x.2⟩

/-- What an event does to the open file. -/
def Event.edit (a : Answer) : Event → DataFile → DataFile
  | .write data ok, f => f.write (if ok then data else data.take a.torn)
  | .seek pos whence, f => f.seek pos whence
  | .truncate, f => { f with contents := [] }
  | _, f => f

structure Trail where
  /-- The open file and the path it was created at. -/
  file : Option (Bytes × DataFile) := none
  /-- The open file has not been unlinked. -/
  linked : Bool := false
  /-- A file that was closed without being unlinked, and has not been answered yet. -/
  closed : Option (Bytes × Bytes) := none
  /-- The files that have been answered with 250, and what they contain. -/
  delivered : List (Bytes × Bytes) := []

namespace Trail

def follow (t : Trail) (h : Happening) : Trail :=
  match h.event with
  | .open_ path true => { t with file := some (path, ⟨[], 0⟩), linked := true, closed := none }
  | .unlink _ => { t with linked := false }
  | .close _ =>
      { t with
        file := none
        closed := if t.linked then t.file.map fun x => (x.1, x.2.contents) else none }
  | .reply r =>
      { t with
        closed := none
        delivered := if r.code = 250 then t.delivered ++ t.closed.toList else t.delivered }
  | e => { t with file := t.file.map fun x => (x.1, e.edit h.answer x.2) }

/-- What a session does next, if its happenings have led here. -/
def Admits (t : Trail) (h : Happening) : Prop :=
  match h.event with
  | .open_ path _ => path = spoolPath h.answer
  | .unlink path => t.file.map Prod.fst = some path
  | .close contents => ∀ x, t.file = some x → contents = x.2.contents
  | _ => True

end Trail

def trail (hs : List Happening) : Trail := hs.foldl Trail.follow {}

def Admitted (hs : List Happening) : Prop :=
  ∀ pre h post, hs = pre ++ h :: post → (trail pre).Admits h

section Happenings

variable {env : Env} {removed : Nat → Bool} {hs hs' : List Happening} {h : Happening} {t : Trail}

theorem trail_append (hs hs' : List Happening) :
    trail (hs ++ hs') = hs'.foldl Trail.follow (trail hs) := List.foldl_append

theorem trail_snoc (hs : List Happening) (h : Happening) :
    trail (hs ++ [h]) = (trail hs).follow h := trail_append hs [h]

theorem happenings_append (env : Env) (removed : Nat → Bool) (n : Nat) (log es : List Event) :
    happenings env removed n (log ++ es) =
      happenings env removed n log ++ happenings env removed (n + log.length) es := by
  rw [happenings, List.zipIdx_append, List.map_append]
  rfl

theorem map_event_happenings (env : Env) (removed : Nat → Bool) (n : Nat) (log : List Event) :
    (happenings env removed n log).map Happening.event = log := by
  rw [happenings, List.map_map]
  exact List.zipIdx_map_fst n log

theorem Admitted.nil : Admitted [] := fun pre _ _ heq => by
  simp at heq

theorem Admitted.snoc (hadmitted : Admitted hs) (hadmits : (trail hs).Admits h) :
    Admitted (hs ++ [h]) := by
  intro pre h' post heq
  rcases List.eq_nil_or_concat post with rfl | ⟨post, last, rfl⟩
  · obtain ⟨rfl, hlast⟩ := List.append_inj' heq rfl
    cases hlast
    exact hadmits
  · rw [List.concat_eq_append, ← List.cons_append, ← List.append_assoc] at heq
    exact hadmitted pre h' post (List.append_inj' heq rfl).1

/-- The end of a transaction that is aborted. -/
theorem Admitted.abort {path : Bytes} (hadmitted : Admitted hs)
    (hfile : (trail hs).file.map Prod.fst = some path) (a₁ a₂ a₃ : Answer) (r₁ r₂ r₃ : Bool) :
    Admitted (hs ++ [⟨.unlink path, a₁, r₁⟩, ⟨.truncate, a₂, r₂⟩, ⟨.close [], a₃, r₃⟩]) := by
  have hremoved := hadmitted.snoc (h := ⟨.unlink path, a₁, r₁⟩) hfile
  have hemptied := hremoved.snoc (h := ⟨.truncate, a₂, r₂⟩) True.intro
  have hclosed := hemptied.snoc (h := ⟨.close [], a₃, r₃⟩) (by
    intro x hx
    rw [trail_snoc] at hx
    obtain ⟨y, -, rfl⟩ := Option.map_eq_some_iff.mp hx
    rfl)
  rwa [List.append_assoc, List.append_assoc] at hclosed

/-- The end of a transaction whose file is complete. -/
theorem Admitted.finish {x : Bytes × DataFile} (hadmitted : Admitted hs)
    (hfile : (trail hs).file = some x) (outcome : Fsync) (a₁ a₂ : Answer) (r₁ r₂ : Bool) :
    Admitted (hs ++ [⟨.fsync outcome, a₁, r₁⟩, ⟨.close x.2.contents, a₂, r₂⟩]) := by
  have hsynced := hadmitted.snoc (h := ⟨.fsync outcome, a₁, r₁⟩) True.intro
  have hclosed := hsynced.snoc (h := ⟨.close x.2.contents, a₂, r₂⟩) (by
    intro z hz
    rw [trail_snoc] at hz
    obtain ⟨y, hy, rfl⟩ := Option.map_eq_some_iff.mp hz
    rw [hfile, Option.some.injEq] at hy
    rw [← hy]
    rfl)
  rwa [List.append_assoc] at hclosed

theorem Admitted.of_front (hadmitted : Admitted hs) (hfront : hs' <+: hs) : Admitted hs' := by
  obtain ⟨rest, rfl⟩ := hfront
  rintro pre h post rfl
  exact hadmitted pre h (post ++ rest) (by simp)

/-- A file that is not opened changes nothing. -/
theorem follow_refused (t : Trail) (path : Bytes) (a : Answer) (removes : Bool) :
    t.follow ⟨.open_ path false, a, removes⟩ = t := by
  have hfile : t.file.map (fun x => (x.1, x.2)) = t.file := congrFun Option.map_id t.file
  exact congrArg (fun file => { t with file := file }) hfile

/-- Operations on the open file leave everything else alone. -/
theorem follow_isFile (t : Trail) (hfile : h.event.isFile = true) :
    t.follow h = { t with file := t.file.map fun x => (x.1, h.event.edit h.answer x.2) } := by
  obtain ⟨e, a, removed⟩ := h
  cases e <;> first | rfl | cases hfile

theorem foldl_isFile (hs : List Happening) (hfile : ∀ h ∈ hs, h.event.isFile = true) :
    (hs.foldl Trail.follow t).file.map Prod.fst = t.file.map Prod.fst ∧
      (hs.foldl Trail.follow t).linked = t.linked ∧
      (hs.foldl Trail.follow t).closed = t.closed ∧
      (hs.foldl Trail.follow t).delivered = t.delivered := by
  induction hs generalizing t with
  | nil => exact ⟨rfl, rfl, rfl, rfl⟩
  | cons h hs ih =>
      have hrest := ih (t := t.follow h) fun h' hh' => hfile h' (List.mem_cons_of_mem h hh')
      have hfirst := follow_isFile t (hfile h List.mem_cons_self)
      rw [List.foldl_cons]
      refine ⟨hrest.1.trans ?_, hrest.2.1.trans ?_, hrest.2.2.1.trans ?_, hrest.2.2.2.trans ?_⟩
      · rw [hfirst, Option.map_map]
        rfl
      all_goals rw [hfirst]

/-- What has been answered stays answered. -/
theorem delivered_grows (hfront : hs' <+: hs) :
    (trail hs').delivered <+: (trail hs).delivered := by
  obtain ⟨rest, rfl⟩ := hfront
  rw [trail_append]
  generalize trail hs' = t
  induction rest generalizing t with
  | nil => exact List.prefix_rfl
  | cons h rest ih =>
      refine List.IsPrefix.trans ?_ (ih (t.follow h))
      obtain ⟨e, a, removed⟩ := h
      cases e with
      | reply r =>
          by_cases hcode : r.code = 250
          · simp [Trail.follow, hcode]
          · simp [Trail.follow, hcode]
      | open_ path ok => cases ok <;> exact List.prefix_rfl
      | _ => exact List.prefix_rfl

end Happenings

namespace Core

/-- The trail of a session so far. -/
def trail (env : Env) (removed : Nat → Bool) (c : Core) : Trail :=
  Smtp.trail (happenings env removed 0 c.log)

/-- The session has kept to the rules, and the trail knows its open file. -/
structure Mirrored (env : Env) (removed : Nat → Bool) (c : Core) : Prop where
  admitted : Admitted (happenings env removed 0 c.log)
  file : (c.trail env removed).file.map Prod.snd = c.dataFile

variable {env : Env} {removed : Nat → Bool} {exact : Prop} {line : Bytes} {c c' c₁ : Core}

theorem trail_emit (env : Env) (removed : Nat → Bool) (c : Core) (e : Event) :
    (c.emit e).trail env removed =
      (c.trail env removed).follow ⟨e, c.answer env, removed c.log.length⟩ := by
  rw [trail, emit_log, happenings_append, Nat.zero_add]
  exact trail_snoc _ _

/-- Members that the trail does not know. -/
theorem Mirrored.congr (h : c.Mirrored env removed) (c' : Core) (hlog : c'.log = c.log)
    (hfile : c'.dataFile = c.dataFile) : c'.Mirrored env removed := by
  refine ⟨?_, ?_⟩
  · rw [hlog]
    exact h.admitted
  · rw [trail, hlog, hfile]
    exact h.file

theorem Mirrored.emit (h : c.Mirrored env removed) (e : Event) (f : Option DataFile)
    (hadmits : (c.trail env removed).Admits ⟨e, c.answer env, removed c.log.length⟩)
    (hfile : ((c.trail env removed).follow ⟨e, c.answer env, removed c.log.length⟩).file.map
      Prod.snd = f) :
    ({ c with dataFile := f }.emit e).Mirrored env removed := by
  refine ⟨?_, ?_⟩
  · rw [emit_log, happenings_append, Nat.zero_add]
    exact h.admitted.snoc hadmits
  · rw [trail_emit]
    exact hfile

/-- An operation on the open file, and what it does to it. -/
theorem Mirrored.edit (h : c.Mirrored env removed) {e : Event} (hisFile : e.isFile = true) :
    ({ c with dataFile := c.dataFile.map (e.edit (c.answer env)) }.emit e).Mirrored env removed := by
  refine h.emit e _ ?_ ?_
  · cases e <;> first | exact True.intro | cases hisFile
  · rw [follow_isFile _ hisFile, Option.map_map, ← h.file, Option.map_map]
    rfl

theorem Mirrored.reply (h : c.Mirrored env removed) (r : Reply) :
    (c.reply r).Mirrored env removed :=
  h.emit (.reply r) c.dataFile True.intro h.file

theorem Mirrored.write (h : c.Mirrored env removed) (data : Bytes) :
    (c.write env data).1.Mirrored env removed := by
  rw [Core.write]
  cases hf : c.dataFile with
  | none =>
      have hedit := h.edit (e := .write data false) rfl
      rw [hf] at hedit
      exact hedit.congr _ rfl hf
  | some f =>
      by_cases hw : (c.answer env).written = true
      · have hedit := h.edit (e := .write data true) rfl
        rw [hf] at hedit
        simp only [hw, if_true]
        exact hedit
      · have hedit := h.edit (e := .write data false) rfl
        rw [hf] at hedit
        simp only [hw, Bool.false_eq_true, if_false]
        exact hedit

theorem Mirrored.writeAll (h : c.Mirrored env removed) (datas : List Bytes) :
    (c.writeAll env datas).1.Mirrored env removed := by
  induction datas generalizing c with
  | nil => exact h
  | cons data datas ih =>
      by_cases hok : (c.write env data).2 = true
      · simp only [Core.writeAll, hok, Bool.not_true, Bool.false_eq_true, if_false]
        exact ih (h.write data)
      · simp only [Core.writeAll, hok, Bool.not_false, if_true]
        exact h.write data

theorem Mirrored.tellg (h : c.Mirrored env removed) : (c.tellg env).1.Mirrored env removed := by
  have hedit := h.edit (e := .tell (c.tellg env).2) rfl
  exact hedit.congr _ rfl (congrFun Option.map_id c.dataFile).symm

theorem Mirrored.seekg (h : c.Mirrored env removed) (pos : Int) (whence : Whence) :
    (c.seekg pos whence).Mirrored env removed :=
  h.edit (e := .seek pos whence) rfl

theorem Mirrored.check (h : c.Mirrored env removed) (op : Core → Core × Bool)
    (hop : ∀ c : Core, c.Mirrored env removed → (op c).1.Mirrored env removed) :
    (c.check op).Mirrored env removed := by
  have hafter := hop c h
  unfold Core.check
  split
  · exact h
  · generalize op c = r at hafter ⊢
    obtain ⟨c₁, ok⟩ := r
    cases ok with
    | true => exact hafter
    | false => exact hafter.congr _ rfl rfl

theorem Mirrored.check_write (h : c.Mirrored env removed) (datas : Core → Bytes) :
    (c.check fun c => c.write env (datas c)).Mirrored env removed :=
  h.check _ fun _ hc => hc.write _

theorem Mirrored.check_padData (h : c.Mirrored env removed) :
    (c.check (padData env)).Mirrored env removed :=
  h.check _ fun _ hc => hc.tellg.write _

theorem Mirrored.finishMessage (h : c.Mirrored env removed) (fileSize : Int) :
    (c.finishMessage env fileSize).Mirrored env removed := by
  have hheader := (h.seekg 0 .set).check_write fun c =>
    (Io.TarHeader.filled (text "message.mbox") (sizeT (fileSize - 512)) (c.answer env).now).bytes
  exact (hheader.seekg 0 .end).check_padData

theorem Mirrored.finishMetadata (h : c.Mirrored env removed) :
    (c.finishMetadata env).Mirrored env removed := by
  have hspace := h.tellg.check_write fun _ => List.replicate 512 nul
  have hrecord := hspace.tellg.check (writeMetadata env) fun _ hc => hc.writeAll _
  have hseek := hrecord.tellg.seekg (c.tellg env).2 .set
  exact ((hseek.check (writeMetadataTarHeader env _) fun _ hc => hc.write _).seekg 0 .end).check_padData

theorem Mirrored.store (h : c.Mirrored env removed) (line : Bytes) :
    (c.store env line).Mirrored env removed := by
  have hmeasured : (c.measureLine (unstuff line).length).Mirrored env removed := by
    rw [measureLine_eq]
    exact h.congr _ rfl rfl
  by_cases hlimits : (c.measureLine (unstuff line).length).lineTooLong = false ∧
      (c.measureLine (unstuff line).length).dataTooLong = false
  · rw [store_check hlimits.1 hlimits.2]
    exact hmeasured.check_write _
  · unfold Core.store
    rw [if_pos]
    · exact hmeasured
    · by_contra hnone
      simp only [Bool.or_eq_true, not_or, Bool.not_eq_true] at hnone
      exact hlimits hnone.1

theorem Mirrored.created (h : c.Mirrored env removed) :
    (c.created (spoolPath (c.answer env))).Mirrored env removed := by
  have hopened := h.emit (.open_ (spoolPath (c.answer env)) true) (some ⟨[], 0⟩) rfl rfl
  exact hopened.congr _ rfl rfl

theorem Mirrored.openFiles (h : c.Mirrored env removed) :
    (c.openFiles env).1.Mirrored env removed := by
  by_cases hopened : (c.answer env).opened = true
  · have heq : c.openFiles env =
        if !((c.created (spoolPath (c.answer env))).writeHeaderSpace env).2 then
          (((c.created (spoolPath (c.answer env))).writeHeaderSpace env).1, false)
        else ((c.created (spoolPath (c.answer env))).writeHeaderSpace env).1.writeTraceInfo env := by
      simp only [Core.openFiles, hopened, Bool.not_true, Bool.false_eq_true, if_false]
      rfl
    have hspace := h.created.write (List.replicate 512 nul)
    rw [heq]
    split
    · exact hspace
    · exact Mirrored.writeAll hspace _
  · simp only [Core.openFiles, hopened, Bool.not_false, if_true]
    refine (h.emit (.open_ (spoolPath (c.answer env)) false) c.dataFile rfl ?_).congr _ rfl rfl
    rw [follow_refused]
    exact h.file

theorem trail_of_log (env : Env) (removed : Nat → Bool) {es : List Event}
    (hlog : c'.log = c.log ++ es) :
    c'.trail env removed =
      (happenings env removed c.log.length es).foldl Trail.follow (c.trail env removed) := by
  rw [trail, hlog, happenings_append, Nat.zero_add, trail_append]
  rfl

theorem Steps.trail (h : Steps env c c₁) (removed : Nat → Bool) :
    (c₁.trail env removed).file.map Prod.fst = (c.trail env removed).file.map Prod.fst ∧
      (c₁.trail env removed).linked = (c.trail env removed).linked ∧
      (c₁.trail env removed).closed = (c.trail env removed).closed ∧
      (c₁.trail env removed).delivered = (c.trail env removed).delivered := by
  obtain ⟨es, hlog, hfile, -⟩ := h.log
  rw [trail_of_log env removed hlog]
  refine foldl_isFile _ fun happening hmem => hfile _ ?_
  rw [← map_event_happenings env removed c.log.length es]
  exact List.mem_map_of_mem hmem

theorem Steps.admitted (h : Steps env c c₁)
    (hadmitted : Admitted (happenings env removed 0 c.log)) :
    Admitted (happenings env removed 0 c₁.log) := by
  obtain ⟨es, hlog, hfile, -⟩ := h.log
  rw [hlog]
  clear hlog
  induction es using List.reverseRecOn with
  | nil => rwa [List.append_nil]
  | append_singleton es e ih =>
      have hlast := hfile e (by simp)
      rw [← List.append_assoc, happenings_append]
      refine (ih fun e he => hfile e (List.mem_append_left _ he)).snoc ?_
      cases e <;> first | exact True.intro | cases hlast

/-- The path of the open file, which is still there. -/
def Spooling (env : Env) (removed : Nat → Bool) (c : Core) : Prop :=
  (c.trail env removed).file.map Prod.fst = some c.dataPath ∧ (c.trail env removed).linked = true

theorem Steps.spooling (h : Steps env c c₁) (hspooling : c.Spooling env removed) :
    c₁.Spooling env removed := by
  obtain ⟨hpath, hlinked, -, -⟩ := h.trail removed
  refine ⟨?_, hlinked.trans hspooling.2⟩
  rw [hpath, hspooling.1, h.same Core.dataPath fun _ _ _ _ => rfl]

/-- An aborted transaction leaves no open file, and delivers nothing. -/
theorem abortData_mirrored (hadmitted : Admitted (happenings env removed 0 c.log))
    (hspooling : c.Spooling env removed) :
    (c.abortData env).Mirrored env removed ∧
      ((c.abortData env).trail env removed).delivered = (c.trail env removed).delivered := by
  have hlog := abortData_log env c
  have hfile : (c.abortData env).dataFile = none := by rw [abortData_eq]
  have htrail := trail_of_log env removed hlog
  have hremove := hadmitted.abort hspooling.1 (env c.log.length) (env (c.log.length + 1))
    (env (c.log.length + 2)) (removed c.log.length) (removed (c.log.length + 1))
    (removed (c.log.length + 2))
  refine ⟨⟨?_, ?_⟩, ?_⟩
  · rw [hlog, happenings_append, Nat.zero_add]
    cases c.abortReply with
    | none => exact hremove
    | some r =>
        have hreply := hremove.snoc (h := ⟨.reply r, env (c.log.length + 3),
          removed (c.log.length + 3)⟩) True.intro
        rwa [List.append_assoc] at hreply
  · rw [htrail, hfile]
    cases c.abortReply <;> rfl
  · rw [htrail]
    cases hr : c.abortReply with
    | none => rfl
    | some r => simp [happenings, Trail.follow, abortReply_code hr, Event.edit]

/-- A transaction that is answered with 250 delivers its file. -/
theorem finishReply_mirrored (h : c.Mirrored env removed) (hspooling : c.Spooling env removed) :
    ((c.syncFile env).1.finishReply env).Mirrored env removed ∧
      (((c.syncFile env).1.finishReply env).trail env removed).delivered =
        (c.trail env removed).delivered ++
          [(c.dataPath, (c.dataFile.map DataFile.contents).getD [])] := by
  obtain ⟨x, hx, hpath⟩ := Option.map_eq_some_iff.mp hspooling.1
  have hfile : c.dataFile = some x.2 := by rw [← h.file, hx, Option.map_some]
  have hlog : ((c.syncFile env).1.finishReply env).log = c.log ++ [.fsync (c.answer env).fsync,
      .close x.2.contents, .reply .ok] := by
    rw [finishReply_eq, hfile]
    rfl
  have htrail := trail_of_log env removed hlog
  refine ⟨⟨?_, ?_⟩, ?_⟩
  · have hclosed := h.admitted.finish hx (c.answer env).fsync (c.answer env)
      (env (c.log.length + 1)) (removed c.log.length) (removed (c.log.length + 1))
    have hreply := hclosed.snoc (h := ⟨.reply .ok, env (c.log.length + 2),
      removed (c.log.length + 2)⟩) True.intro
    rw [hlog, happenings_append, Nat.zero_add]
    rwa [List.append_assoc] at hreply
  · rw [htrail, finishReply_eq]
    rfl
  · rw [htrail]
    simp [happenings, Trail.follow, hx, hpath, hspooling.2, hfile, Reply.ok, smtpReply, Event.edit]

theorem openFiles_answer (hopened : (c.openFiles env).2 = true) : (c.answer env).opened = true := by
  obtain ⟨-, es, hlog, -⟩ := openFiles_path env c
  obtain ⟨path, ok, es', hlog', -, hok⟩ := (openFiles_opened env c).log
  rw [hlog, List.append_cancel_left_eq, List.cons.injEq, Event.open_.injEq] at hlog'
  exact hlog'.1.2.trans (hok hopened).1

theorem openFiles_spooling (removed : Nat → Bool) (hopened : (c.openFiles env).2 = true) :
    (c.openFiles env).1.Spooling env removed := by
  obtain ⟨hpath, es, hlog, hfile⟩ := openFiles_path env c
  rw [openFiles_answer hopened] at hlog
  obtain ⟨hfst, hlinked, -, -⟩ := foldl_isFile
    (happenings env removed (c.log.length + 1) es)
    (t := (c.trail env removed).follow ⟨.open_ (spoolPath (c.answer env)) true, c.answer env,
      removed c.log.length⟩) fun h hmem => hfile _ (by
        rw [← map_event_happenings env removed (c.log.length + 1) es]
        exact List.mem_map_of_mem hmem)
  rw [Spooling, trail_of_log env removed hlog, hpath]
  exact ⟨hfst, hlinked⟩

/-- In the data phase the session has the file open that DATA has created. -/
structure Trailed (env : Env) (removed : Nat → Bool) (c : Core) : Prop
    extends c.Mirrored env removed where
  inside : c.state = .data → c.Spooling env removed

theorem Trailed.outside (h : c.Mirrored env removed) (hstate : c.state ≠ .data) :
    c.Trailed env removed :=
  ⟨h, fun hdata => absurd hdata hstate⟩

theorem Trailed.commanded (h : c.Trailed env removed) (hstate : c.state = .cmd)
    (step : Commanded env exact line c c') : c'.Trailed env removed := by
  refine ⟨?_, fun hdata => ?_⟩
  · have hmirrored := h.toMirrored
    cases step with
    | refused r h => exact hmirrored.reply r
    | noop verb => exact hmirrored.reply .ok
    | greeted d r code verb named => exact (hmirrored.congr (c.greeted env d) rfl rfl).reply r
    | sender p verb begun unset named =>
        exact (hmirrored.congr (c.senderSet p) rfl rfl).reply .ok
    | recipient p verb begun room named =>
        exact (hmirrored.congr (c.recipientAdded p) rfl rfl).reply .ok
    | notOpened verb failed => exact hmirrored.openFiles.reply .localError
    | entered verb set recipients opened =>
        exact (hmirrored.openFiles.congr (c.openFiles env).1.dataEntered rfl rfl).reply
          .startData
    | reset verb => exact (hmirrored.congr (c.reset env) rfl rfl).reply .ok
    | closed verb r h => exact (hmirrored.reply r).congr _ rfl rfl
  · obtain ⟨-, -, -, hopened, rfl⟩ := step.entered_of_data hstate hdata
    have hspooling := openFiles_spooling removed hopened
    exact ⟨by rw [reply, trail_emit]; exact hspooling.1, by rw [reply, trail_emit]; exact hspooling.2⟩

theorem Trailed.ended (h : c.Trailed env removed) (hstate : c.state = .data)
    (step : Ended env c c') : c'.Trailed env removed := by
  have hspooling := h.inside hstate
  have haborted (c₁ : Core) (hsteps : Steps env c c₁) : (c₁.abortData env).Trailed env removed := by
    refine .outside (abortData_mirrored (hsteps.admitted h.admitted) (hsteps.spooling hspooling)).1 ?_
    rw [abortData_eq]
    simp
  cases step with
  | tooLong h => exact haborted c (Steps.refl env c)
  | finished short small _ step =>
      cases step with
      | unknown h => exact haborted _ (tellg_steps env c)
      | failed known c₁ h error => exact haborted c₁ h
      | done known c₁ hsteps clear eq accepted =>
          have hmirrored : c₁.Mirrored env removed := by
            rw [eq]
            exact (h.tellg.finishMessage _).finishMetadata
          refine .outside (finishReply_mirrored hmirrored (hsteps.spooling hspooling)).1 ?_
          rw [finishReply_eq]
          simp

theorem Trailed.turned (h : c.Trailed env removed) (step : Turned env exact c c') :
    c'.Trailed env removed := by
  cases step with
  | idle => exact h
  | longCommand state =>
      exact .outside (h.reply .exceededLine) fun hdata => absurd (state.symm.trans hdata) (by decide)
  | command state line _ step =>
      have hline : (c.emit (.line line)).Mirrored env removed :=
        h.emit (.line line) c.dataFile True.intro ((Option.map_map _ _ _).trans h.file)
      exact Trailed.commanded (.outside hline fun hdata => absurd (state.symm.trans hdata) (by decide))
        state step
  | longData state => exact ⟨h.congr _ rfl rfl, fun _ => h.inside state⟩
  | stored state line =>
      refine ⟨h.store line, fun _ => ?_⟩
      have hspooling : (c.measureLine (unstuff line).length).Spooling env removed := by
        rw [measureLine_eq]
        exact h.inside state
      exact (store_steps env line c).spooling hspooling
  | ended state => exact h.ended state (endData_ended env c)

end Core

namespace Session

variable {env : Env} {removed : Nat → Bool} {x : Progress}

/-- Every session keeps to the rules. -/
theorem trailed_always (env : Env) (removed : Nat → Bool) (mem : Memory) (chunks : List Bytes) :
    Run.Always (advance env) (fun x => x.1.Trailed env removed) (start env mem, chunks) := by
  refine Run.always_of_step (advance env) ?_ fun x h => h.turned (advance_turned env x)
  refine .outside ⟨Admitted.nil.snoc True.intro, rfl⟩ ?_
  intro hdata
  cases hdata

/-- The step that answers the data with 250 delivers the file of the transaction, with what it
contains when it is closed. -/
theorem delivered_acknowledged (h : x.1.Trailed env removed) (hack : Acknowledges env x)
    {contents : Bytes} (hclose : Event.close contents ∈ events env x) :
    ((advance env x).1.trail env removed).delivered =
      (x.1.trail env removed).delivered ++ [(x.1.dataPath, contents)] := by
  obtain ⟨c₁, done, heq⟩ := acknowledges_completed hack
  obtain ⟨es, -, hfile, hevents⟩ := events_completed done heq
  have hcontents : contents = (c₁.dataFile.map DataFile.contents).getD [] := by
    rw [hevents] at hclose
    rcases List.mem_append.mp hclose with hmem | hmem
    · exact Bool.noConfusion (hfile _ hmem)
    · simpa using hmem
  have hmirrored : c₁.Mirrored env removed := by
    rw [done.eq]
    exact (h.tellg.finishMessage _).finishMetadata
  have hdelivered :=
    (Core.finishReply_mirrored hmirrored (done.steps.spooling (h.inside hack.1))).2
  rw [heq, hdelivered, (done.steps.trail removed).2.2.2, hcontents,
    done.steps.same Core.dataPath fun _ _ _ _ => rfl]

end Session

end Ervan.Smtp
