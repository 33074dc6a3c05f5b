import Ervan.Smtp.Transmission

/-!
# Recovery

Whether earlier transactions have an influence on a later one. What decides about the
reply to a message is in its lines, the limits, the outcomes of its own file operations,
and in the error flag, which is never cleared.
-/

namespace Ervan.Smtp

/-- The file operations have the same outcomes. -/
def Answer.SameOutcomes (a a' : Answer) : Prop :=
  a.written = a'.written ∧ a.told = a'.told ∧ a.fsync = a'.fsync

theorem length_writes (md : Metadata) : md.writes.length = 2 * md.forwardPaths.length + 5 := by
  have hpaths : (md.forwardPaths.flatMap fun path => [path, crlf]).length =
      2 * md.forwardPaths.length := by
    induction md.forwardPaths with
    | nil => rfl
    | cons path paths ih =>
        rw [List.flatMap_cons, List.length_append, ih, List.length_cons]
        simp only [List.length_cons, List.length_nil]
        omega
  simp only [Metadata.writes, List.length_cons, hpaths]

namespace Core

/-- Two sessions at the same point of a transaction. Up to the logs `before` and `before'`
they may have done anything, and from there on they have sent the same replies. -/
structure Alike (before before' : List Event) (c c' : Core) : Prop where
  size : c.dataSize = c'.dataSize
  max : c.maxDataSize = c'.maxDataSize
  small : c.dataTooLong = c'.dataTooLong
  short : c.lineTooLong = c'.lineTooLong
  error : c.dataError = c'.dataError
  file : c.dataFile.isSome = c'.dataFile.isSome
  recipients : c.metadata.forwardPaths.length = c'.metadata.forwardPaths.length
  log : ∃ es es', c.log = before ++ es ∧ c'.log = before' ++ es' ∧ es.length = es'.length ∧
    replies es = replies es'

/-- The same replies have been sent since the two logs. -/
def SameReplies (before before' : List Event) (c c' : Core) : Prop :=
  ∃ es es', c.log = before ++ es ∧ c'.log = before' ++ es' ∧ replies es = replies es'

namespace Alike

variable {before before' : List Event} {env env' : Env} {c c' : Core}

/-- One interaction of both, which is a reply in neither or the same one in both. -/
theorem emit (h : Alike before before' c c') {f f' : Option DataFile} {e e' : Event}
    (hfile : f.isSome = f'.isSome) (he : replies [e] = replies [e']) :
    Alike before before' ({ c with dataFile := f }.emit e) ({ c' with dataFile := f' }.emit e') := by
  obtain ⟨es, es', hlog, hlog', hlength, hreplies⟩ := h.log
  refine ⟨h.size, h.max, h.small, h.short, h.error, hfile, h.recipients, es ++ [e], es' ++ [e'],
    ?_, ?_, ?_, ?_⟩
  · rw [emit_log, hlog, List.append_assoc]
  · rw [emit_log, hlog', List.append_assoc]
  · simp [hlength]
  · rw [replies_append, replies_append, hreplies, he]

/-- A failure of both. -/
theorem failed (h : Alike before before' c c') :
    Alike before before' { c with dataError := true } { c' with dataError := true } :=
  ⟨h.size, h.max, h.small, h.short, rfl, h.file, h.recipients, h.log⟩

theorem seekg (h : Alike before before' c c') (pos pos' : Int) (whence : Whence) :
    Alike before before' (c.seekg pos whence) (c'.seekg pos' whence) :=
  h.emit (by simpa only [Option.isSome_map] using h.file) rfl

/-- An operation that is skipped, succeeds or fails in both. -/
theorem check (h : Alike before before' c c') {op op' : Core → Core × Bool}
    (hop : Alike before before' (op c).1 (op' c').1 ∧ (op c).2 = (op' c').2) :
    Alike before before' (c.check op) (c'.check op') := by
  have herror := h.error
  obtain ⟨halike, hok⟩ := hop
  simp only [Core.check, ← herror, ← hok]
  split
  · exact h
  · split
    · exact halike.failed
    · exact halike

theorem measureLine (h : Alike before before' c c') (n : Nat) :
    Alike before before' (c.measureLine n) (c'.measureLine n) := by
  rw [measureLine_eq, measureLine_eq]
  exact ⟨by rw [h.size], h.max, by rw [h.small, h.size, h.max], by rw [h.short], h.error, h.file,
    h.recipients, h.log⟩

theorem abortData (h : Alike before before' c c') :
    SameReplies before before' (c.abortData env) (c'.abortData env') := by
  obtain ⟨es, es', hlog, hlog', -, hreplies⟩ := h.log
  have hreply : c.abortReply = c'.abortReply := by
    simp only [abortReply, h.small, h.short, h.error]
  refine ⟨_, _, by rw [abortData_log, hlog, List.append_assoc],
    by rw [abortData_log, hlog', List.append_assoc], ?_⟩
  rw [replies_append, replies_append, replies_append, replies_append, hreplies, hreply]
  rfl

theorem finishReply (h : Alike before before' c c') :
    SameReplies before before' (c.finishReply env) (c'.finishReply env') := by
  obtain ⟨es, es', hlog, hlog', -, hreplies⟩ := h.log
  refine ⟨es ++ [.close ((c.dataFile.map DataFile.contents).getD []), .reply .ok],
    es' ++ [.close ((c'.dataFile.map DataFile.contents).getD []), .reply .ok], ?_, ?_, ?_⟩
  · simp [Core.finishReply, close, hlog]
  · simp [Core.finishReply, close, hlog']
  · rw [replies_append, replies_append, hreplies]
    rfl

section Outcomes

variable (same : ∀ n, (env (before.length + n)).SameOutcomes (env' (before'.length + n)))
include same

theorem answer (h : Alike before before' c c') : (c.answer env).SameOutcomes (c'.answer env') := by
  obtain ⟨es, es', hlog, hlog', hlength, -⟩ := h.log
  rw [Core.answer, Core.answer, hlog, hlog', List.length_append, List.length_append, hlength]
  exact same es'.length

theorem write (h : Alike before before' c c') (data data' : Bytes) :
    Alike before before' (c.write env data).1 (c'.write env' data').1 ∧
      (c.write env data).2 = (c'.write env' data').2 := by
  have hwritten := (h.answer same).1
  have hfile := h.file
  unfold Core.write
  cases hf : c.dataFile with
  | none =>
      cases hf' : c'.dataFile with
      | none => exact ⟨h.emit hfile rfl, rfl⟩
      | some f' => simp [hf, hf'] at hfile
  | some f =>
      cases hf' : c'.dataFile with
      | none => simp [hf, hf'] at hfile
      | some f' =>
          simp only [← hwritten]
          split
          · exact ⟨h.emit rfl rfl, rfl⟩
          · exact ⟨h.emit rfl rfl, rfl⟩

theorem writeAll (h : Alike before before' c c') {datas datas' : List Bytes}
    (hlength : datas.length = datas'.length) :
    Alike before before' (c.writeAll env datas).1 (c'.writeAll env' datas').1 ∧
      (c.writeAll env datas).2 = (c'.writeAll env' datas').2 := by
  induction datas generalizing c c' datas' with
  | nil =>
      cases datas' with
      | nil => exact ⟨h, rfl⟩
      | cons data' datas' => cases hlength
  | cons data datas ih =>
      cases datas' with
      | nil => cases hlength
      | cons data' datas' =>
          obtain ⟨hwrite, hok⟩ := h.write same data data'
          simp only [Core.writeAll, ← hok]
          split
          · exact ⟨hwrite, rfl⟩
          · exact ih hwrite (Nat.succ.inj hlength)

theorem tellg (h : Alike before before' c c') :
    Alike before before' (c.tellg env).1 (c'.tellg env').1 ∧
      ((c.tellg env).2 < 0 ↔ (c'.tellg env').2 < 0) := by
  refine ⟨h.emit h.file rfl, ?_⟩
  have htold := (h.answer same).2.1
  have hfile := h.file
  simp only [Core.tellg]
  cases hf : c.dataFile with
  | none =>
      cases hf' : c'.dataFile with
      | none => rfl
      | some f' => simp [hf, hf'] at hfile
  | some f =>
      cases hf' : c'.dataFile with
      | none => simp [hf, hf'] at hfile
      | some f' =>
          simp only [← htold]
          split
          · omega
          · rfl

theorem headerSpace (h : Alike before before' c c') :
    Alike before before' (c.check (writeHeaderSpace env)) (c'.check (writeHeaderSpace env')) :=
  h.check (h.write same _ _)

theorem dataHeader (h : Alike before before' c c') (length length' : Nat) :
    Alike before before' (c.check (writeDataTarHeader env length))
      (c'.check (writeDataTarHeader env' length')) :=
  h.check (h.write same _ _)

theorem metadataHeader (h : Alike before before' c c') (length length' : Nat) :
    Alike before before' (c.check (writeMetadataTarHeader env length))
      (c'.check (writeMetadataTarHeader env' length')) :=
  h.check (h.write same _ _)

/-- The envelope record takes as many writes for as many recipients. -/
theorem envelope (h : Alike before before' c c') :
    Alike before before' (c.check (writeMetadata env)) (c'.check (writeMetadata env')) :=
  h.check (h.writeAll same (by rw [length_writes, length_writes, h.recipients]))

theorem padding (h : Alike before before' c c') :
    Alike before before' (c.check (padData env)) (c'.check (padData env')) :=
  h.check ((h.tellg same).1.write same _ _)

theorem finishMessage (h : Alike before before' c c') (fileSize fileSize' : Int) :
    Alike before before' (c.finishMessage env fileSize) (c'.finishMessage env' fileSize') :=
  (((h.seekg 0 0 .set).dataHeader same _ _).seekg 0 0 .end).padding same

theorem finishMetadata (h : Alike before before' c c') :
    Alike before before' (c.finishMetadata env) (c'.finishMetadata env') := by
  have hspace := ((h.tellg same).1.headerSpace same).tellg same
  have hrecord := (hspace.1.envelope same).tellg same
  exact (((hrecord.1.seekg _ _ .set).metadataHeader same _ _).seekg 0 0 .end).padding same

theorem syncFile (h : Alike before before' c c') :
    Alike before before' (c.syncFile env).1 (c'.syncFile env').1 ∧
      (c.syncFile env).2 = (c'.syncFile env').2 := by
  have hfsync := (h.answer same).2.2
  refine ⟨h.emit h.file rfl, ?_⟩
  simp only [Core.syncFile, hfsync]

theorem finishData (h : Alike before before' c c') :
    SameReplies before before' (c.finishData env) (c'.finishData env') := by
  obtain ⟨htell, hknown⟩ := h.tellg same
  have hmessage := htell.finishMessage same (c.tellg env).2 (c'.tellg env').2
  have hmetadata := hmessage.finishMetadata same
  obtain ⟨hsync, hresult⟩ := hmetadata.syncFile same
  unfold Core.finishData
  simp only [← hknown, ← hmessage.error, ← hmetadata.error, ← hresult]
  split
  · exact htell.abortData
  · split
    · exact hmessage.abortData
    · split
      · exact hmetadata.abortData
      · split
        · exact hsync.failed.abortData
        · exact hsync.finishReply

theorem endData (h : Alike before before' c c') :
    SameReplies before before' (c.endData env) (c'.endData env') := by
  unfold Core.endData
  simp only [← h.short, ← h.small]
  split
  · exact h.finishData same
  · exact h.abortData

theorem received (h : Alike before before' c c') (line : Bytes) :
    Alike before before' (c.received env (stuff line)) (c'.received env' (stuff line)) := by
  rw [received_stuff, received_stuff]
  split
  · have hmeasured := h.measureLine (unstuff (stuff line)).length
    obtain ⟨hwrite, hok⟩ := hmeasured.write same (unstuff (stuff line) ++ crlf)
      (unstuff (stuff line) ++ crlf)
    unfold store
    simp only [← hmeasured.short, ← hmeasured.small, ← hmeasured.error, ← hok]
    split
    · exact hmeasured
    · split
      · exact hwrite.failed
      · exact hwrite
  · exact ⟨h.size, h.max, h.small, rfl, h.error, h.file, h.recipients, h.log⟩

theorem receivedAll (h : Alike before before' c c') (lines : List Bytes) :
    Alike before before' (c.receivedAll env lines) (c'.receivedAll env' lines) := by
  induction lines generalizing c c' with
  | nil => exact h
  | cons line lines ih =>
      rw [receivedAll_cons, receivedAll_cons]
      exact ih (h.received same line)

end Outcomes

end Alike

section Errors

variable {env : Env} {exact : Prop} {line : Bytes} {c c' : Core}

theorem Commanded.error (h : Commanded env exact line c c') : c'.dataError = c.dataError := by
  have hopened : (c.openFiles env).1.dataError = c.dataError :=
    (openFiles_opened env c).same Core.dataError fun _ _ _ _ => rfl
  cases h with
  | refused r h => rfl
  | noop verb => rfl
  | greeted d r code verb named => rfl
  | sender p verb begun unset named => rfl
  | recipient p verb begun room named => rfl
  | notOpened verb failed => exact hopened
  | entered verb set recipients opened => exact hopened
  | reset verb => rfl
  | closed verb r h => rfl

theorem store_error (env : Env) (line : Bytes) (herror : c.dataError = true) :
    (c.store env line).dataError = true :=
  (store_steps env line c).error (by rw [measureLine_eq]; exact herror)

/-- An aborted transaction is answered with 451 only because of an error, which stays. -/
theorem abortData_error {c₁ : Core} (h : Steps env c c₁) :
    (c.dataError = true → (c₁.abortData env).dataError = true) ∧
    ∃ es, (c₁.abortData env).log = c.log ++ es ∧
      (Event.reply .localError ∈ es → (c₁.abortData env).dataError = true) := by
  obtain ⟨es, hlog, hfile, -⟩ := h.log
  have hkept : (c₁.abortData env).dataError = c₁.dataError := by rw [abortData_eq]
  refine ⟨fun herror => hkept.trans (h.error herror), es ++ ([.unlink c₁.dataPath, .truncate,
    .close []] ++ c₁.abortReply.toList.map .reply), ?_, fun hmem => ?_⟩
  · rw [abortData_log, hlog, List.append_assoc]
  · have habort : c₁.abortReply = some .localError := by
      rcases List.mem_append.mp hmem with hmem | hmem
      · exact Bool.noConfusion (hfile _ hmem)
      · simpa using hmem
    rw [hkept]
    unfold abortReply at habort
    split at habort
    · cases habort
    · split at habort
      · cases habort
      · split at habort
        · assumption
        · cases habort

/-- An error stays, and an answer with 451 has one. -/
theorem Ended.error (h : Ended env c c') :
    (c.dataError = true → c'.dataError = true) ∧
    ∃ es, c'.log = c.log ++ es ∧ (Event.reply .localError ∈ es → c'.dataError = true) := by
  cases h with
  | tooLong h => exact abortData_error (Steps.refl env c)
  | finished short small _ h =>
      cases h with
      | unknown h => exact abortData_error (tellg_steps env c)
      | failed known c₁ h error => exact abortData_error h
      | done known c₁ h clear eq accepted =>
          obtain ⟨es, hlog, hfile, hclear⟩ := h.log
          rw [finishReply_eq]
          refine ⟨fun herror => h.error herror, es ++ _, by rw [hlog, List.append_assoc],
            fun hmem => ?_⟩
          rcases List.mem_append.mp hmem with hmem | hmem
          · exact Bool.noConfusion (hfile _ hmem)
          · have hcode : Reply.localError ≠ Reply.ok := by decide
            simp [hcode] at hmem

/-- The error flag is never cleared. -/
theorem Turned.error (h : Turned env exact c c') (herror : c.dataError = true) :
    c'.dataError = true := by
  cases h with
  | idle => exact herror
  | longCommand state => exact herror
  | command state line _ h => exact h.error.trans herror
  | longData state => exact herror
  | stored state line => exact store_error env line herror
  | ended state => exact (endData_ended env c).error.1 herror

/-- After a data phase that is answered with 451 the error flag is set. -/
theorem Turned.localError (h : Turned env exact c c') (hstate : c.state = .data) {es : List Event}
    (hlog : c'.log = c.log ++ es) (hmem : Event.reply .localError ∈ es) : c'.dataError = true := by
  have hsilent (es' : List Event) (hlog' : c'.log = c.log ++ es')
      (hfile : ∀ e ∈ es', e.isFile = true) : c'.dataError = true := by
    rw [List.append_cancel_left (hlog.symm.trans hlog')] at hmem
    exact Bool.noConfusion (hfile _ hmem)
  cases h with
  | idle => exact hsilent [] (List.append_nil _).symm fun e he => nomatch he
  | longCommand state => exact absurd (hstate.symm.trans state) (by decide)
  | command state line _ h => exact absurd (hstate.symm.trans state) (by decide)
  | longData state => exact hsilent [] (List.append_nil _).symm fun e he => nomatch he
  | stored state line =>
      obtain ⟨es', hlog', hfile, -⟩ := (store_steps env line c).log
      exact hsilent es' (by rw [hlog', measureLine_eq]) hfile
  | ended state =>
      obtain ⟨es', hlog', herror⟩ := (endData_ended env c).error.2
      rw [List.append_cancel_left (hlog.symm.trans hlog')] at hmem
      exact herror hmem

theorem receivedAll_error (env : Env) (lines : List Bytes) (herror : c.dataError = true) :
    (c.receivedAll env lines).dataError = true := by
  obtain ⟨⟨es, -, -, hclear⟩, -⟩ := receivedAll_log env lines c
  by_contra hnone
  rw [(hclear.mp (Bool.eq_false_iff.mpr hnone)).1] at herror
  cases herror

/-- A message is answered with 250 only without an error. -/
theorem endData_ok {es : List Event} (hlog : (c.endData env).log = c.log ++ es)
    (hmem : Event.reply .ok ∈ es) : c.dataError = false := by
  obtain ⟨es', hlog', -, hreply, -⟩ := (endData_ended env c).log
  rw [List.append_cancel_left (hlog.symm.trans hlog')] at hmem
  obtain ⟨c₁, done, -⟩ := hreply hmem
  obtain ⟨_, -, -, hcleared⟩ := done.steps.log
  exact (hcleared.mp done.clear).1

end Errors

end Core

namespace Session

variable {env env' : Env} {s s' : Session} {x : Progress} {n m : Nat} {lines : List Bytes}

theorem advance_error (env : Env) (x : Progress) (h : x.1.dataError = true) :
    (advance env x).1.dataError = true :=
  (advance_turned env x).error h

/-- A data phase that is answered with 451 sets the error flag for the rest of the run. -/
theorem error_kept (hstate : ((advance env)^[n] x).1.state = .data)
    (hreply : Event.reply .localError ∈ events env ((advance env)^[n] x)) (hle : n < m) :
    ((advance env)^[m] x).1.dataError = true := by
  have hset : ((advance env)^[n + 1] x).1.dataError = true := by
    rw [Function.iterate_succ_apply']
    exact (advance_turned env _).localError hstate (advance_log_events env _) hreply
  have halways : Run.Always (advance env) (fun y => y.1.dataError = true)
      ((advance env)^[n + 1] x) :=
    Run.always_of_step (advance env) hset (advance_error env)
  obtain ⟨k, rfl⟩ := Nat.exists_eq_add_of_le hle
  rw [Nat.add_comm, Function.iterate_add_apply]
  exact halways k

/-- Commands are read while no CR is the last byte that the data side has received. -/
def WindowDone (s : Session) : Prop := s.state = .cmd → s.lineBuffer.tCheck.getLast? ≠ some cr

/-- A data phase ends with a LF. -/
theorem windowDone_dataTurn (env : Env) (s : Session) (sp : Bytes) (hstate : s.state = .data) :
    (s.dataTurn env sp).1.WindowDone := by
  have fed := dataTurn_fed env s sp
  unfold WindowDone
  generalize s.dataTurn env sp = r at fed ⊢
  cases fed with
  | quiet b offset quiet window => exact fun hcmd => absurd (hstate.symm.trans hcmd) (by decide)
  | gaveUp b offset h => exact fun hcmd => absurd (hstate.symm.trans hcmd) (by decide)
  | tooLong b pre rest c eq quiet complete window =>
      exact fun hcmd => absurd (hstate.symm.trans hcmd) (by decide)
  | ended b pre rest c eq quiet complete line delivers ends =>
      intro _
      rw [delivers.window]
      split <;> decide
  | stored b b' pre rest c eq quiet complete line delivers ends window =>
      intro hcmd
      have hdata := (Core.store_state env line s.toCore).trans hstate
      exact absurd (hdata.symm.trans hcmd) (by decide)

theorem windowDone_advance (env : Env) (x : Progress) (h : x.1.WindowDone) :
    (advance env x).1.WindowDone := by
  obtain ⟨s, _ | ⟨_ | ⟨c, sp⟩, rest⟩⟩ := x
  · exact h
  · exact h
  · cases hstate : s.state with
    | closed => exact fun hcmd => absurd hcmd (by simp [advance, turn, hstate])
    | cmd =>
        simp only [advance, turn_cmd env (c :: sp) hstate]
        intro _
        rw [(s.feedCmd_lineBuffer env (c :: sp)).1]
        exact h hstate
    | data =>
        simp only [advance, turn_data env (c :: sp) hstate]
        exact windowDone_dataTurn env s (c :: sp) hstate

/-- In a run, a data phase ends with the step `n`, and DATA is accepted again with a later
step, the step `m`. -/
structure Later (env : Env) (x : Progress) (n m : Nat) : Prop where
  order : n < m
  phase : ((advance env)^[n] x).1.state = .data
  ended : ((advance env)^[n + 1] x).1.state = .cmd
  before : ((advance env)^[m] x).1.state = .cmd
  accepted : ((advance env)^[m + 1] x).1.state = .data

/-- The session as a later DATA leaves it. -/
def later (env : Env) (x : Progress) (m : Nat) : Session := ((advance env)^[m + 1] x).1

/-- The command side takes a turn when DATA is accepted. -/
theorem entered_advance (before : x.1.state = .cmd) (after : (advance env x).1.state = .data) :
    ∃ sp, (x.1.feedCmd env sp).1 = (advance env x).1 := by
  obtain ⟨s, _ | ⟨_ | ⟨c, sp⟩, rest⟩⟩ := x
  · exact absurd (before.symm.trans after) (by decide)
  · exact absurd (before.symm.trans after) (by decide)
  · exact ⟨c :: sp, by simp only [advance, turn_cmd env (c :: sp) before]⟩

/-- A later transaction can start whatever happened in the earlier ones. -/
theorem Later.ready {mem : Memory} {chunks : List Bytes}
    (h : Later env (start env mem, chunks) n m) :
    Ready env (later env (start env mem, chunks) m) := by
  have hsettled := settled_run env mem chunks m
  have hwindow : ((advance env)^[m] (start env mem, chunks)).1.WindowDone := by
    obtain ⟨k, hk⟩ := Nat.exists_eq_add_of_le h.order
    rw [hk, Nat.add_comm, Function.iterate_add_apply]
    refine Run.always_of_step (advance env) (I := fun y => y.1.WindowDone) ?_
      (windowDone_advance env) k
    rw [Function.iterate_succ_apply']
    have hphase := h.phase
    have hended := h.ended
    rw [Function.iterate_succ_apply'] at hended
    generalize (advance env)^[n] (start env mem, chunks) = y at hphase hended ⊢
    obtain ⟨s, _ | ⟨_ | ⟨c, sp⟩, rest⟩⟩ := y
    · exact absurd (hphase.symm.trans hended) (by decide)
    · exact absurd (hphase.symm.trans hended) (by decide)
    · simp only [advance, turn_data env (c :: sp) hphase]
      exact windowDone_dataTurn env s (c :: sp) hphase
  have hbefore := h.before
  have haccepted := h.accepted
  unfold later
  rw [Function.iterate_succ_apply'] at haccepted ⊢
  obtain ⟨sp, hsp⟩ := entered_advance hbefore haccepted
  rw [← hsp] at haccepted ⊢
  obtain ⟨hbuffer, hoffset⟩ := feedCmd_lineBuffer env _ sp
  exact ⟨⟨⟨_, sp, hbefore, rfl⟩, haccepted⟩, hoffset.trans (hsettled.line hbefore),
    by rw [hbuffer]; exact hwindow hbefore⟩

theorem Later.error (h : Later env x n m)
    (hreply : Event.reply .localError ∈ events env ((advance env)^[n] x)) :
    (later env x m).dataError = true :=
  error_kept h.phase hreply (Nat.lt_succ_of_lt h.order)

/-- A message is answered with 250 only if there is no error when DATA is accepted. -/
theorem Ready.error_clear (h : Ready env s) (separable : Separable lines) {chunks : List Bytes}
    (hchunks : chunks.flatten = wire lines) {es : List Event}
    (hlog : (s.feedAll env chunks).log = s.log ++ es) (hreply : Event.reply .ok ∈ es) :
    s.dataError = false := by
  by_contra herror
  rw [Bool.not_eq_false] at herror
  obtain ⟨⟨es₁, hlog₁, hfile, -⟩, -⟩ := Core.receivedAll_log env lines s.toCore
  obtain ⟨es₂, hlog₂, -⟩ := (Core.endData_ended env (s.receivedAll env lines)).log
  rw [h.feedAll_wire separable hchunks, hlog₂, hlog₁, List.append_assoc] at hlog
  rw [← List.append_cancel_left hlog] at hreply
  rcases List.mem_append.mp hreply with hmem | hmem
  · exact Bool.noConfusion (hfile _ hmem)
  · exact absurd (Core.endData_ok hlog₂ hmem)
      (by rw [Core.receivedAll_error env lines herror]; decide)

/-- With the same limits, and with the same outcomes of its own file operations, every message
is answered in the same way by both sessions. -/
def SameAnswers (env env' : Env) (s s' : Session) : Prop :=
  s.maxDataSize = s'.maxDataSize →
    s.metadata.forwardPaths.length = s'.metadata.forwardPaths.length →
    (∀ k, (env (s.log.length + k)).SameOutcomes (env' (s'.log.length + k))) →
    ∀ lines : List Bytes, Separable lines → ∀ chunks chunks' : List Bytes,
    chunks.flatten = wire lines → chunks'.flatten = wire lines →
    Core.SameReplies s.log s'.log (s.feedAll env chunks).toCore (s'.feedAll env' chunks').toCore

/-- A message within the limits whose own file operations all succeed is accepted if and only
if there is no error when DATA is accepted. -/
def Decided (env : Env) (s : Session) : Prop :=
  ∀ lines : List Bytes, Separable lines → messageSize lines < 2 ^ 64 →
    WithinLimits s.maxDataSize lines → ∀ chunks : List Bytes, chunks.flatten = wire lines →
    FaultFree s (s.feedAll env chunks) →
    (Accepted s (s.feedAll env chunks) lines ↔ s.dataError = false)

theorem Ready.decided (h : Ready env s) : Decided env s := by
  intro lines separable hrange hlimits chunks hchunks hgood
  refine ⟨fun ⟨closing, hlog, hreplies⟩ => ?_, fun herror =>
    h.accepted herror separable hlimits hrange hchunks hgood⟩
  rw [List.append_assoc] at hlog
  exact h.error_clear separable hchunks hlog (by simp [← mem_replies, hreplies])

/-- Two transactions that start with the same error flag are answered in the same way. -/
theorem Ready.sameAnswers (h : Ready env s) (h' : Ready env' s')
    (herror : s.dataError = s'.dataError) : SameAnswers env env' s s' := by
  intro hmax hrecipients same lines separable chunks chunks' hchunks hchunks'
  obtain ⟨hsize, hline, hdata, -, f, hfile, -⟩ := h.entered.fresh
  obtain ⟨hsize', hline', hdata', -, f', hfile', -⟩ := h'.entered.fresh
  have halike : Core.Alike s.log s'.log s.toCore s'.toCore :=
    ⟨hsize.trans hsize'.symm, hmax, hdata.trans hdata'.symm, hline.trans hline'.symm, herror,
      by rw [hfile, hfile']; rfl, hrecipients, [], [], (List.append_nil _).symm,
      (List.append_nil _).symm, rfl, rfl⟩
  rw [h.feedAll_wire separable hchunks, h'.feedAll_wire separable hchunks']
  exact (halike.receivedAll same lines).endData same

/-- What a later transaction owes to the earlier ones is the error flag and nothing else: a
data phase that is answered with 451 leaves it set for good, no message is accepted while it is
set, and every one that can be is accepted while it is clear. -/
theorem recovers (env env' : Env) (mem mem' : Memory) (chunks chunks' : List Bytes)
    (n m n' m' : Nat) (h : Later env (start env mem, chunks) n m)
    (h' : Later env' (start env' mem', chunks') n' m') :
    (Event.reply .localError ∈ events env ((advance env)^[n] (start env mem, chunks)) →
      (later env (start env mem, chunks) m).dataError = true) ∧
    Decided env (later env (start env mem, chunks) m) ∧
    ((later env (start env mem, chunks) m).dataError =
        (later env' (start env' mem', chunks') m').dataError →
      SameAnswers env env' (later env (start env mem, chunks) m)
        (later env' (start env' mem', chunks') m')) :=
  ⟨h.error, h.ready.decided, fun herror => h.ready.sameAnswers h'.ready herror⟩

/-- The interaction `k` is a write that fails, if it is a write. -/
def failingWrite (k : Nat) : Env := fun n => { Answer.ideal with written := n ≠ k }

/-- The commands of a transaction on a session that has begun. -/
def mailCommands : Bytes := text "MAIL FROM:<>\r\nRCPT TO:<b@c>\r\nDATA\r\n"

/-- A message and the commands before the next one. -/
def twoTransactions : Bytes :=
  text "EHLO a\r\n" ++ mailCommands ++ text "x\r\n.\r\n" ++ mailCommands

/-- The line of the first message is not written, so it is answered with 451. -/
theorem later_failingWrite :
    Later (failingWrite 31) (start (failingWrite 31) .zeroed, [twoTransactions]) 5 8 ∧
      Event.reply .localError ∈ events (failingWrite 31)
        ((advance (failingWrite 31))^[5] (start (failingWrite 31) .zeroed, [twoTransactions])) :=
  ⟨⟨by decide, by decide +kernel, by decide +kernel, by decide +kernel, by decide +kernel⟩,
    by decide +kernel⟩

theorem recovers_failingWrite :
    (later (failingWrite 31) (start (failingWrite 31) .zeroed, [twoTransactions]) 8).dataError =
      true ∧
    Decided (failingWrite 31)
      (later (failingWrite 31) (start (failingWrite 31) .zeroed, [twoTransactions]) 8) := by
  obtain ⟨hkept, hdecided, -⟩ := recovers (failingWrite 31) (failingWrite 31) .zeroed .zeroed
    [twoTransactions] [twoTransactions] 5 8 5 8 later_failingWrite.1 later_failingWrite.1
  exact ⟨hkept later_failingWrite.2, hdecided⟩

/-- After a data phase that is answered with 451 a message need not be accepted, although all
of its own file operations succeed. -/
theorem not_recovers_failingWrite :
    ¬ ∀ (env : Env) (mem : Memory) (chunks : List Bytes) (n m : Nat),
      Later env (start env mem, chunks) n m →
      Event.reply .localError ∈ events env ((advance env)^[n] (start env mem, chunks)) →
      ∀ lines : List Bytes, Separable lines → messageSize lines < 2 ^ 64 →
      WithinLimits (later env (start env mem, chunks) m).maxDataSize lines →
      ∀ chunks' : List Bytes, chunks'.flatten = wire lines →
      FaultFree (later env (start env mem, chunks) m)
        ((later env (start env mem, chunks) m).feedAll env chunks') →
      Accepted (later env (start env mem, chunks) m)
        ((later env (start env mem, chunks) m).feedAll env chunks') lines := by
  intro h
  obtain ⟨hlater, hreply⟩ := later_failingWrite
  have hlimits : WithinLimits (later (failingWrite 31)
      (start (failingWrite 31) .zeroed, [twoTransactions]) 8).maxDataSize [text "y"] := by
    decide +kernel
  have hgood : FaultFree (later (failingWrite 31)
      (start (failingWrite 31) .zeroed, [twoTransactions]) 8)
      ((later (failingWrite 31) (start (failingWrite 31) .zeroed, [twoTransactions]) 8).feedAll
        (failingWrite 31) [wire [text "y"]]) := by
    unfold FaultFree
    decide +kernel
  have haccepted := h _ _ _ 5 8 hlater hreply [text "y"] (by decide) (by decide) hlimits _
    (by simp) hgood
  have hclear := (hlater.ready.decided [text "y"] (by decide) (by decide) hlimits _
    (by simp) hgood).mp haccepted
  exact absurd (hclear.symm.trans (hlater.error hreply)) (by decide)

end Session

end Ervan.Smtp
