import Ervan.Smtp.File

/-!
# What the file operations do

The operations on the spool file change the file, the error flag and the log, and
nothing else. An operation that reports success has logged nothing but successes, and
the flag collects the failures: when it is clear at the end, every operation since it
was first clear has succeeded.
-/

namespace Ervan.Smtp

namespace Event

/-- An operation on the open spool file, other than an accepted synchronisation. -/
def isFile : Event → Bool
  | .line _ => false
  | .reply _ => false
  | .open_ _ _ => false
  | .fsync outcome => outcome = .refused
  | .unlink _ => false
  | .close _ => false
  | _ => true

/-- Not a file operation that failed. -/
def succeeded : Event → Bool
  | .open_ _ ok => ok
  | .write _ ok => ok
  | .fsync outcome => outcome = .done
  | _ => true

end Event

namespace DataFile

/-- The next write goes to the end of the file. -/
def AtEnd (f : DataFile) : Prop := f.pos = f.contents.length

theorem AtEnd.write {f : DataFile} (h : f.AtEnd) (data : Bytes) :
    (f.write data).AtEnd ∧ (f.write data).contents = f.contents ++ data := by
  have hpos : f.pos = f.contents.length := h
  have hcontents : (f.write data).contents = f.contents ++ data := by
    simp [DataFile.write, hpos]
  exact ⟨by simp only [AtEnd, hcontents, List.length_append]; exact congrArg (· + _) hpos,
    hcontents⟩

theorem AtEnd.writes {f : DataFile} (h : f.AtEnd) (datas : List Bytes) :
    (datas.foldl DataFile.write f).AtEnd ∧
      (datas.foldl DataFile.write f).contents = f.contents ++ datas.flatten := by
  induction datas generalizing f with
  | nil => exact ⟨h, by simp⟩
  | cons data datas ih =>
      obtain ⟨hend, hcontents⟩ := h.write data
      obtain ⟨hend', hcontents'⟩ := ih hend
      exact ⟨hend', by rw [List.foldl_cons, hcontents', hcontents]; simp⟩

end DataFile

namespace Core

@[simp] theorem emit_log (c : Core) (e : Event) : (c.emit e).log = c.log ++ [e] := rfl

@[simp] theorem reply_log (c : Core) (r : Reply) : (c.reply r).log = c.log ++ [.reply r] := rfl

@[simp] theorem reset_log (env : Env) (c : Core) : (c.reset env).log = c.log := rfl

/-- File operations that return whether they have succeeded. -/
structure Writes (env : Env) (c : Core) (r : Core × Bool) : Prop where
  frame : { r.1 with dataFile := c.dataFile, log := c.log } = c
  file : r.1.dataFile.isSome = c.dataFile.isSome
  log : ∃ es, r.1.log = c.log ++ es ∧ (∀ e ∈ es, e.isFile) ∧
    (r.2 = true ↔ ∀ e ∈ es, e.succeeded)

/-- File operations that collect their failures in the error flag. -/
structure Steps (env : Env) (c c' : Core) : Prop where
  frame : { c' with dataFile := c.dataFile, dataError := c.dataError, log := c.log } = c
  file : c'.dataFile.isSome = c.dataFile.isSome
  log : ∃ es, c'.log = c.log ++ es ∧ (∀ e ∈ es, e.isFile) ∧
    (c'.dataError = false ↔ c.dataError = false ∧ ∀ e ∈ es, e.succeeded)

variable {env : Env} {c c' c'' : Core}

/-- The members that file operations leave alone. -/
theorem Writes.same {r : Core × Bool} (h : Writes env c r) {α : Type} (member : Core → α)
    (hmember : ∀ c f l, member { c with dataFile := f, log := l } = member c) :
    member r.1 = member c :=
  (hmember r.1 c.dataFile c.log).symm.trans (congrArg member h.frame)

theorem Steps.same (h : Steps env c c') {α : Type} (member : Core → α)
    (hmember : ∀ c f e l, member { c with dataFile := f, dataError := e, log := l } = member c) :
    member c' = member c :=
  (hmember c' c.dataFile c.dataError c.log).symm.trans (congrArg member h.frame)

theorem Steps.refl (env : Env) (c : Core) : Steps env c c :=
  ⟨rfl, rfl, [], by simp, by simp, by simp⟩

theorem Steps.trans (h : Steps env c c') (h' : Steps env c' c'') : Steps env c c'' := by
  obtain ⟨es, hlog, hfile, hok⟩ := h.log
  obtain ⟨es', hlog', hfile', hok'⟩ := h'.log
  refine ⟨?_, h'.file.trans h.file, es ++ es', ?_, ?_, ?_⟩
  · have hframe := congrArg
      (fun x : Core => { x with dataFile := c.dataFile, dataError := c.dataError, log := c.log })
      h'.frame
    exact hframe.trans h.frame
  · rw [hlog', hlog, List.append_assoc]
  · intro e he
    rcases List.mem_append.mp he with he | he
    · exact hfile e he
    · exact hfile' e he
  · rw [hok', hok, List.forall_mem_append, and_assoc]

theorem Steps.clear (h : Steps env c c') (hclear : c'.dataError = false) :
    c.dataError = false := by
  obtain ⟨es, -, -, hok⟩ := h.log
  exact (hok.mp hclear).1

/-- An error stays an error. -/
theorem Steps.error (h : Steps env c c') (herror : c.dataError = true) : c'.dataError = true := by
  by_contra hclear
  rw [h.clear (Bool.eq_false_iff.mpr hclear)] at herror
  cases herror

/-- One interaction that cannot fail, or whose failure shows in its result only. -/
theorem Steps.emit {e : Event} {f : Option DataFile} (hfile : e.isFile) (hok : e.succeeded)
    (hsome : f.isSome = c.dataFile.isSome) : Steps env c ({ c with dataFile := f }.emit e) :=
  ⟨rfl, hsome, [e], rfl, by simpa using hfile, by simp [Core.emit, hok]⟩

theorem tellg_steps (env : Env) (c : Core) : Steps env c (c.tellg env).1 :=
  Steps.emit (f := c.dataFile) rfl rfl rfl

theorem seekg_steps (env : Env) (pos : Int) (whence : Whence) (c : Core) :
    Steps env c (c.seekg pos whence) :=
  Steps.emit rfl rfl (by simp)

theorem write_writes (env : Env) (data : Bytes) (c : Core) : Writes env c (c.write env data) := by
  unfold write
  cases hf : c.dataFile with
  | none =>
      exact ⟨rfl, by simp [emit, hf], [.write data false], rfl, by simp [Event.isFile],
        by simp [Event.succeeded]⟩
  | some f =>
      by_cases hw : (c.answer env).written = true
      · simp only [hw, if_true]
        exact ⟨rfl, by simp [emit, hf], [.write data true], rfl, by simp [Event.isFile],
          by simp [Event.succeeded]⟩
      · simp only [hw, Bool.false_eq_true, if_false]
        exact ⟨rfl, by simp [emit, hf], [.write data false], rfl, by simp [Event.isFile],
          by simp [Event.succeeded]⟩

/-- A successful write, as it shows in the file and in the log. -/
theorem write_ok {data : Bytes} {f : DataFile} (hf : c.dataFile = some f)
    (h : (c.write env data).2 = true) :
    (c.write env data).1 =
      { c with dataFile := some (f.write data), log := c.log ++ [.write data true] } := by
  simp only [write, hf] at h ⊢
  by_cases hw : (c.answer env).written = true
  · simp only [hw, if_true]
    rfl
  · simp [hw] at h

theorem write_log {data : Bytes} (hok : (c.write env data).2 = true) :
    (c.write env data).1.log = c.log ++ [.write data true] := by
  cases hf : c.dataFile with
  | none => simp [write, hf] at hok
  | some f => rw [write_ok hf hok]

theorem writeAll_ok {datas : List Bytes} {f : DataFile} (hf : c.dataFile = some f)
    (h : (c.writeAll env datas).2 = true) :
    (c.writeAll env datas).1 =
      { c with
        dataFile := some (datas.foldl DataFile.write f)
        log := c.log ++ datas.map fun data => Event.write data true } := by
  induction datas generalizing c f with
  | nil =>
      simp only [writeAll, List.foldl_nil, List.map_nil, List.append_nil, ← hf]
  | cons data datas ih =>
      by_cases hw : (c.write env data).2 = true
      · simp only [writeAll, hw, Bool.not_true, Bool.false_eq_true, if_false] at h ⊢
        rw [write_ok hf hw] at h ⊢
        rw [ih rfl h]
        simp
      · simp [writeAll, hw] at h

/-- Operations one after another, the second only if the first has succeeded. -/
theorem Writes.and_then {r : Core × Bool} (h : Writes env c r) (op : Core → Core × Bool)
    (hop : ∀ c, Writes env c (op c)) :
    Writes env c (if !r.2 then (r.1, false) else op r.1) := by
  obtain ⟨c₁, ok⟩ := r
  obtain ⟨es, hlog, hfile, hok⟩ := h.log
  cases ok with
  | false => exact ⟨h.frame, h.file, es, hlog, hfile, hok⟩
  | true =>
      obtain ⟨es', hlog', hfile', hok'⟩ := (hop c₁).log
      refine ⟨?_, (hop c₁).file.trans h.file, es ++ es', ?_, ?_, ?_⟩
      · have hframe := congrArg (fun x : Core => { x with dataFile := c.dataFile, log := c.log })
          (hop c₁).frame
        exact hframe.trans h.frame
      · simp only [Bool.not_true, Bool.false_eq_true, if_false]
        rw [hlog', hlog, List.append_assoc]
      · exact fun e he => (List.mem_append.mp he).elim (hfile e) (hfile' e)
      · simp only [Bool.not_true, Bool.false_eq_true, if_false]
        rw [hok', List.forall_mem_append, ← hok]
        simp

theorem writeAll_writes (env : Env) (datas : List Bytes) (c : Core) :
    Writes env c (c.writeAll env datas) := by
  induction datas generalizing c with
  | nil => exact ⟨rfl, rfl, [], by simp [writeAll], by simp, by simp [writeAll]⟩
  | cons data datas ih => exact (write_writes env data c).and_then (writeAll env datas) ih

/-- A position is asked for before something is written. -/
theorem Writes.after_tell {r : Core × Bool} (h : Writes env (c.tellg env).1 r) :
    Writes env c r := by
  obtain ⟨es, hlog, hfile, hok⟩ := h.log
  refine ⟨?_, h.file, .tell (c.tellg env).2 :: es, ?_, ?_, ?_⟩
  · exact congrArg (fun x : Core => { x with dataFile := c.dataFile, log := c.log }) h.frame
  · rw [hlog]
    simp [tellg]
  · simpa [Event.isFile] using hfile
  · simpa [Event.succeeded] using hok

theorem padData_writes (env : Env) (c : Core) : Writes env c (c.padData env) :=
  Writes.after_tell (write_writes env _ _)

/-- The lambda `check` turns a reported failure into an error. -/
theorem check_steps (op : Core → Core × Bool) (hop : ∀ c, Writes env c (op c)) (c : Core) :
    Steps env c (c.check op) := by
  have h := hop c
  unfold check
  generalize op c = r at h
  obtain ⟨c₁, ok⟩ := r
  cases herror : c.dataError with
  | true => exact Steps.refl env c
  | false =>
      obtain ⟨es, hlog, hfile, hok⟩ := h.log
      have hclear : c₁.dataError = c.dataError := h.same Core.dataError fun _ _ _ => rfl
      cases ok with
      | true =>
          exact ⟨congrArg (fun x : Core => { x with dataError := c.dataError }) h.frame, h.file,
            es, hlog, hfile, by simp [hclear, herror, ← hok]⟩
      | false =>
          exact ⟨congrArg (fun x : Core => { x with dataError := c.dataError }) h.frame, h.file,
            es, hlog, hfile, by simp [← hok]⟩

theorem finishMessage_steps (env : Env) (fileSize : Int) (c : Core) :
    Steps env c (c.finishMessage env fileSize) := by
  unfold finishMessage
  refine (seekg_steps env 0 .set c).trans ?_
  refine (check_steps (writeDataTarHeader env (sizeT (fileSize - 512)))
    (fun c => write_writes env _ c) _).trans ?_
  refine (seekg_steps env 0 .end _).trans ?_
  exact check_steps (padData env) (padData_writes env) _

/-- The envelope record is written between other operations. -/
theorem finishMetadata_split (env : Env) (c : Core) :
    ∃ c₂, Steps env c c₂ ∧ Steps env (c₂.check (writeMetadata env)) (c.finishMetadata env) := by
  unfold finishMetadata
  have h₁ := tellg_steps env c
  generalize c.tellg env = r₁ at h₁
  obtain ⟨c₁, dataSize⟩ := r₁
  have h₂ := (check_steps (writeHeaderSpace env) (fun c => write_writes env _ c) c₁).trans
    (tellg_steps env _)
  simp only
  generalize (c₁.check (writeHeaderSpace env)).tellg env = r₂ at h₂
  obtain ⟨c₂, preMetadataSize⟩ := r₂
  refine ⟨c₂, h₁.trans h₂, ?_⟩
  have h₃ := tellg_steps env (c₂.check (writeMetadata env))
  simp only
  generalize (c₂.check (writeMetadata env)).tellg env = r₃ at h₃
  obtain ⟨c₃, totalSize⟩ := r₃
  refine h₃.trans ?_
  refine (seekg_steps env dataSize .set c₃).trans ?_
  refine (check_steps
    (writeMetadataTarHeader env (sizeT (totalSize - preMetadataSize)))
    (fun c => write_writes env _ c) _).trans ?_
  refine (seekg_steps env 0 .end _).trans ?_
  exact check_steps (padData env) (padData_writes env) _

theorem finishMetadata_steps (env : Env) (c : Core) : Steps env c (c.finishMetadata env) := by
  obtain ⟨c₂, hbefore, hafter⟩ := finishMetadata_split env c
  have hmetadata := check_steps (writeMetadata env) (fun c => writeAll_writes env _ c) c₂
  exact hbefore.trans (hmetadata.trans hafter)

/-- Writes that succeed show in the log, one after another. -/
theorem writeAll_log {datas : List Bytes} (h : (c.writeAll env datas).2 = true) :
    (c.writeAll env datas).1.log = c.log ++ datas.map fun data => Event.write data true := by
  induction datas generalizing c with
  | nil => simp [writeAll]
  | cons data datas ih =>
      by_cases hw : (c.write env data).2 = true
      · simp only [writeAll, hw, Bool.not_true, Bool.false_eq_true, if_false] at h ⊢
        rw [ih h, write_log hw, List.append_assoc]
        rfl
      · simp [writeAll, hw] at h

/-- Without an error the operation has been done, and has succeeded. -/
theorem check_ok (op : Core → Core × Bool) (hop : ∀ c, Writes env c (op c))
    (h : (c.check op).dataError = false) :
    c.dataError = false ∧ c.check op = (op c).1 ∧ (op c).2 = true := by
  obtain ⟨es, -, -, hclear⟩ := (check_steps op hop c).log
  have hbefore := (hclear.mp h).1
  refine ⟨hbefore, ?_⟩
  simp only [check, hbefore, Bool.false_eq_true, if_false] at h ⊢
  generalize op c = r at h ⊢
  obtain ⟨c₁, ok⟩ := r
  cases ok with
  | true => exact ⟨rfl, rfl⟩
  | false => cases h

/-- Without an error the whole envelope record has been written. -/
theorem finishMetadata_log (h : (c.finishMetadata env).dataError = false) :
    ∃ pre post, (c.finishMetadata env).log =
      c.log ++ (pre ++ c.metadata.writes.map (Event.write · true) ++ post) := by
  obtain ⟨c₂, hbefore, hafter⟩ := finishMetadata_split env c
  obtain ⟨pre, hpre, -⟩ := hbefore.log
  obtain ⟨post, hpost, -, hclear⟩ := hafter.log
  obtain ⟨-, hcheck, hok⟩ :=
    check_ok (writeMetadata env) (fun c => writeAll_writes env _ c) (hclear.mp h).1
  have hmetadata : c₂.metadata = c.metadata := hbefore.same Core.metadata fun _ _ _ _ => rfl
  refine ⟨pre, post, ?_⟩
  rw [hpost, hcheck]
  rw [writeMetadata] at hok ⊢
  rw [writeAll_log hok, hpre, hmetadata]
  simp only [List.append_assoc]

/-- A synchronisation that is refused is one more failed operation. -/
theorem syncFile_refused (env : Env) (c : Core) (h : (c.answer env).fsync = .refused) :
    Steps env c { (c.syncFile env).1 with dataError := true } :=
  ⟨rfl, rfl, [.fsync (c.answer env).fsync], rfl, by simp [Event.isFile, h],
    by simp [Event.succeeded, h]⟩

/-- What `open_files` does. The header space and the trace information are all that a
file contains that it has opened with success. -/
structure Opened (env : Env) (c : Core) (r : Core × Bool) : Prop where
  frame : { r.1 with dataPath := c.dataPath, dataFile := c.dataFile, log := c.log } = c
  log : ∃ path ok es, r.1.log = c.log ++ Event.open_ path ok :: es ∧ (∀ e ∈ es, e.isFile) ∧
    (r.2 = true → ok = true ∧ ∀ e ∈ es, e.succeeded)
  file : r.2 = true → ∃ f path, r.1.dataFile = some f ∧ f.AtEnd ∧
    f.contents = List.replicate 512 nul ++ (traceInfo (env (c.log.length + 2))).flatten ∧
    r.1.log = c.log ++ Event.open_ path true ::
      (List.replicate 512 nul :: traceInfo (env (c.log.length + 2))).map (Event.write · true)

theorem Opened.same {r : Core × Bool} (h : Opened env c r) {α : Type} (member : Core → α)
    (hmember : ∀ c p f l, member { c with dataPath := p, dataFile := f, log := l } = member c) :
    member r.1 = member c :=
  (hmember r.1 c.dataPath c.dataFile c.log).symm.trans (congrArg member h.frame)

/-- The writes of `open_files` to a file that has just been created. -/
theorem writeStart_writes (env : Env) (c : Core) :
    Writes env c (if !(c.writeHeaderSpace env).2 then ((c.writeHeaderSpace env).1, false)
      else (c.writeHeaderSpace env).1.writeTraceInfo env) :=
  (write_writes env (List.replicate 512 nul) c).and_then (writeTraceInfo env)
    fun c => writeAll_writes env _ c

theorem writeTraceInfo_ok {f : DataFile} (hf : c.dataFile = some f)
    (h : (c.writeTraceInfo env).2 = true) :
    (c.writeTraceInfo env).1 =
      { c with
        dataFile := some ((traceInfo (c.answer env)).foldl DataFile.write f)
        log := c.log ++ (traceInfo (c.answer env)).map (Event.write · true) } :=
  writeAll_ok hf h

theorem writeStart_ok (hsome : c.dataFile = some ⟨[], 0⟩)
    (hspace : (c.writeHeaderSpace env).2 = true)
    (htrace : ((c.writeHeaderSpace env).1.writeTraceInfo env).2 = true) :
    ∃ f, ((c.writeHeaderSpace env).1.writeTraceInfo env).1.dataFile = some f ∧ f.AtEnd ∧
      f.contents = List.replicate 512 nul ++ (traceInfo (env (c.log.length + 1))).flatten ∧
      ((c.writeHeaderSpace env).1.writeTraceInfo env).1.log = c.log ++
        (List.replicate 512 nul :: traceInfo (env (c.log.length + 1))).map
          (Event.write · true) := by
  have hempty : DataFile.AtEnd ⟨[], 0⟩ := rfl
  have hfirst := write_ok hsome hspace
  have hfile : (c.writeHeaderSpace env).1.dataFile =
      some (DataFile.write ⟨[], 0⟩ (List.replicate 512 nul)) := congrArg Core.dataFile hfirst
  have hlog : (c.writeHeaderSpace env).1.log = _ := congrArg Core.log hfirst
  have hanswer : (c.writeHeaderSpace env).1.answer env = env (c.log.length + 1) := by
    rw [answer, hlog, List.length_append, List.length_singleton]
  have hrest := writeTraceInfo_ok hfile htrace
  rw [hanswer] at hrest
  obtain ⟨hend, hcontents⟩ := hempty.writes
    (List.replicate 512 nul :: traceInfo (env (c.log.length + 1)))
  rw [List.foldl_cons] at hend hcontents
  rw [List.nil_append, List.flatten_cons] at hcontents
  rw [hrest]
  refine ⟨_, rfl, hend, hcontents, ?_⟩
  rw [hlog, List.append_assoc]
  rfl

/-- The members once `open` has created the file. -/
def created (path : Bytes) (c : Core) : Core :=
  { { c with dataPath := path }.emit (.open_ path true) with dataFile := some ⟨[], 0⟩ }

theorem openFiles_eq (env : Env) (c : Core) (h : (c.answer env).opened = true) :
    ∃ path, c.openFiles env =
      if !((c.created path).writeHeaderSpace env).2 then
        (((c.created path).writeHeaderSpace env).1, false)
      else ((c.created path).writeHeaderSpace env).1.writeTraceInfo env := by
  refine ⟨cString (text "./ingoing/" ++ (c.answer env).filename ++ text ".tar"), ?_⟩
  simp only [openFiles, h, Bool.not_true, Bool.false_eq_true, if_false]
  rfl

theorem openFiles_opened (env : Env) (c : Core) : Opened env c (c.openFiles env) := by
  by_cases hopened : (c.answer env).opened = true
  · obtain ⟨path, heq⟩ := openFiles_eq env c hopened
    have h := writeStart_writes env (c.created path)
    rw [← heq] at h
    refine ⟨?_, ?_, fun hr => ?_⟩
    · exact congrArg
        (fun x : Core => { x with dataPath := c.dataPath, dataFile := c.dataFile, log := c.log })
        h.frame
    · obtain ⟨es, hlog, hfile, hok⟩ := h.log
      refine ⟨path, true, es, hlog.trans ?_, hfile, fun hr => ⟨rfl, hok.mp hr⟩⟩
      simp [created]
    · rw [heq] at hr ⊢
      by_cases hspace : ((c.created path).writeHeaderSpace env).2 = true
      · simp only [hspace, Bool.not_true, Bool.false_eq_true, if_false] at hr ⊢
        obtain ⟨f, hfile, hend, hcontents, hlog⟩ := writeStart_ok rfl hspace hr
        have hlength : (c.created path).log.length + 1 = c.log.length + 2 := by
          simp [created]
        rw [hlength] at hcontents hlog
        exact ⟨f, path, hfile, hend, hcontents, hlog.trans (List.append_assoc _ _ _)⟩
      · simp [hspace] at hr
  · simp only [openFiles, hopened, Bool.not_false, if_true]
    exact ⟨rfl, ⟨_, _, [], rfl, by simp, by simp⟩, fun h => Bool.noConfusion h⟩

/-- The reply of `abort_data`, which depends on the flags alone. -/
def abortReply (c : Core) : Option Reply :=
  if c.dataTooLong then some .exceededStorage
  else if c.lineTooLong then some .exceededLine
  else if c.dataError then some .localError
  else none

theorem abortReply_isSome (c : Core) :
    c.abortReply.isSome = (c.dataTooLong || c.lineTooLong || c.dataError) := by
  unfold abortReply
  cases c.dataTooLong <;> cases c.lineTooLong <;> cases c.dataError <;> rfl

/-- What `abort_data` leaves behind. -/
theorem abortData_eq (env : Env) (c : Core) :
    c.abortData env =
      { c with
        state := .cmd
        maxDataSize := (env (c.log.length + 3)).cfg.maxmessagesize
        maxForwardPaths := (env (c.log.length + 3)).cfg.maxrcpt
        metadata := {}
        reverseSet := false
        dataFile := none
        dataPath := []
        log := c.log ++ [.unlink c.dataPath, .truncate, .close []] ++
          c.abortReply.toList.map .reply } := by
  have hcontents : (c.dataFile.map
      (DataFile.contents ∘ fun f : DataFile => { f with contents := [] })).getD [] = [] := by
    cases c.dataFile <;> rfl
  unfold abortData abortReply
  cases hdata : c.dataTooLong <;> cases hline : c.lineTooLong <;> cases herror : c.dataError <;>
    simp [unlink, truncate, close, reset, emit, answer, reply, hcontents, hdata, hline, herror]

theorem abortData_log (env : Env) (c : Core) :
    (c.abortData env).log =
      c.log ++ ([.unlink c.dataPath, .truncate, .close []] ++ c.abortReply.toList.map .reply) := by
  rw [abortData_eq, List.append_assoc]

theorem abortReply_code {r : Reply} (h : c.abortReply = some r) : r.code ≠ 250 := by
  unfold abortReply at h
  split at h
  · cases h
    decide
  · split at h
    · cases h
      decide
    · split at h
      · cases h
        decide
      · cases h

/-- What `finish_data` leaves behind when it gets to its end. -/
theorem finishReply_eq (env : Env) (c : Core) :
    (c.syncFile env).1.finishReply env =
      { c with
        state := .cmd
        maxDataSize := (env (c.log.length + 2)).cfg.maxmessagesize
        maxForwardPaths := (env (c.log.length + 2)).cfg.maxrcpt
        metadata := {}
        reverseSet := false
        dataFile := none
        dataPath := []
        log := c.log ++ [.fsync (c.answer env).fsync,
          .close ((c.dataFile.map DataFile.contents).getD []), .reply .ok] } := by
  simp [syncFile, finishReply, close, reset, emit, answer, reply]

/-- The outcomes of `finish_data`. -/
inductive Finished (env : Env) (c : Core) : Core → Prop
  /-- The size of the file is not known. -/
  | unknown (h : (c.tellg env).2 < 0) : Finished env c ((c.tellg env).1.abortData env)
  /-- An operation has failed, or had failed before. -/
  | failed (known : ¬ (c.tellg env).2 < 0) (c₁ : Core) (h : Steps env c c₁)
      (error : c₁.dataError = true) : Finished env c (c₁.abortData env)
  /-- The file is complete and its synchronisation has been accepted. -/
  | done (known : ¬ (c.tellg env).2 < 0) (c₁ : Core) (h : Steps env c c₁)
      (clear : c₁.dataError = false)
      (eq : c₁ = ((c.tellg env).1.finishMessage env (c.tellg env).2).finishMetadata env)
      (accepted : (c₁.answer env).fsync ≠ .refused) :
      Finished env c ((c₁.syncFile env).1.finishReply env)

theorem finishData_cases (env : Env) (c : Core) : Finished env c (c.finishData env) := by
  have htell := tellg_steps env c
  unfold finishData
  by_cases hneg : (c.tellg env).2 < 0
  · simp only [if_pos hneg]
    exact .unknown hneg
  · have hmessage := htell.trans (finishMessage_steps env (c.tellg env).2 (c.tellg env).1)
    simp only [if_neg hneg]
    by_cases herror : ((c.tellg env).1.finishMessage env (c.tellg env).2).dataError = true
    · simp only [if_pos herror]
      exact .failed hneg _ hmessage herror
    · simp only [if_neg herror]
      have hmetadata := hmessage.trans (finishMetadata_steps env _)
      by_cases herror' :
          (((c.tellg env).1.finishMessage env (c.tellg env).2).finishMetadata env).dataError = true
      · simp only [if_pos herror']
        exact .failed hneg _ hmetadata herror'
      · simp only [if_neg herror']
        by_cases hrefused : ((((c.tellg env).1.finishMessage env (c.tellg env).2).finishMetadata
            env).answer env).fsync = .refused
        · simp only [syncFile, if_pos hrefused, ne_eq, reduceCtorEq, not_false_eq_true, if_true]
          exact .failed hneg _ (hmetadata.trans (syncFile_refused env _ hrefused)) rfl
        · simp only [syncFile, if_neg hrefused, ne_eq, not_true_eq_false, if_false]
          exact .done hneg _ hmetadata (by simpa using herror') rfl hrefused

end Core

end Ervan.Smtp
