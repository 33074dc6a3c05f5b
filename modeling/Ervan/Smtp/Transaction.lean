import Ervan.Smtp.Invariant
import Ervan.Smtp.Trail

/-!
# What a transaction has written

The message of an acknowledged transaction is the trace information and the lines that were
received since DATA, in their order and without the dots that the client put before them. All of
its writes are in the log, and have succeeded. The file that they make up is safe on the disk unless
its synchronisation fails after all, and is an archive unless the message ends at the end of a block.
-/

namespace Ervan.Smtp

open Io Session

namespace Core

variable {env : Env} {c : Core} {line : Bytes} {lines : List Bytes}

/-- How many events there were before the file of the transaction was opened. -/
def opening (c : Core) : Nat := c.log.length - (transaction c.log).length

/-- The trace information of the transaction: its file has been opened and the space for the header
has been written before it. -/
def traced (env : Env) (c : Core) : List Bytes := traceInfo (env (c.opening + 2))

theorem opening_append {c' : Core} {es : List Event} (hlog : c'.log = c.log ++ es)
    (h : ∀ e ∈ es, ∀ path ok, e ≠ Event.open_ path ok) : c'.opening = c.opening := by
  rw [opening, hlog, transaction_append c.log h, List.length_append, List.length_append,
    Nat.add_sub_add_right, opening]

theorem opening_opened {c' : Core} {path : Bytes} {ok : Bool} {es : List Event}
    (hlog : c'.log = c.log ++ .open_ path ok :: es)
    (h : ∀ e ∈ es, ∀ path ok, e ≠ Event.open_ path ok) : c'.opening = c.log.length := by
  rw [opening, hlog, transaction_opened _ path ok h, List.length_append, Nat.add_sub_cancel]

/-- In the data state a file without an error has in it the lines received since DATA. -/
def Carries (env : Env) (c : Core) (lines : List Bytes) : Prop :=
  c.state = .data → c.dataError = false → c.lineTooLong = false → c.dataTooLong = false →
    writes (transaction c.log) = List.replicate 512 nul ::
      (c.traced env ++ lines.map fun line => unstuff line ++ crlf)

theorem Carries.stored (h : c.Carries env lines) (hstate : c.state = .data) (line : Bytes) :
    (c.store env line).Carries env (lines ++ [line]) := by
  intro _ hclear hshort hsmall
  have hsteps := store_steps env line c
  have hlong := hsteps.same Core.lineTooLong fun _ _ _ _ => rfl
  have hbig := hsteps.same Core.dataTooLong fun _ _ _ _ => rfl
  rw [hlong] at hshort
  rw [hbig] at hsmall
  have hcheck : c.store env line = _ := store_check hshort hsmall
  rw [measureLine_eq] at hshort hsmall
  simp only [Bool.or_eq_false_iff] at hshort hsmall
  have hbefore : c.dataError = false := by
    have hmeasured := hsteps.clear hclear
    rwa [measureLine_eq] at hmeasured
  have hwrites := h hstate hbefore hshort.1 hsmall.1
  rw [hcheck] at hclear ⊢
  obtain ⟨-, hwrite, hok⟩ := check_ok _ (fun c => write_writes env _ c) hclear
  have hlog : ((c.measureLine (unstuff line).length).write env (unstuff line ++ crlf)).1.log =
      c.log ++ [.write (unstuff line ++ crlf) true] := by
    rw [write_log hok, measureLine_eq]
  rw [hwrite, traced, opening_append hlog (by simp), ← traced, hlog,
    transaction_append c.log (by simp), writes_append, hwrites, List.map_append, List.cons_append,
    List.append_assoc]
  rfl

theorem Carries.dataTurn {s : Session} {sp : Bytes} (h : s.Carries env lines)
    (hstate : s.state = .data) :
    (s.dataTurn env sp).1.Carries env (lines ++ (s.dataReceived sp).toList) := by
  have hreceived := dataTurn_received env s sp
  cases hline : s.dataReceived sp with
  | none =>
      rw [hline] at hreceived
      rw [Option.toList_none, List.append_nil]
      rcases hreceived with hsame | hlong
      · rw [hsame]
        exact h
      · rw [hlong]
        intro _ _ hshort
        cases hshort
  | some line =>
      rw [hline] at hreceived
      rw [Option.toList_some]
      simp only [hreceived, Core.dataLine]
      by_cases hends : EndsData line
      · rw [if_pos hends]
        intro hdata
        rw [(endData_ended env s.toCore).eq.1] at hdata
        cases hdata
      · rw [if_neg hends]
        exact h.stored hstate line

/-- DATA is accepted with nothing in the file but the header space and the trace information. -/
theorem Turned.carries {exact : Prop} {c' : Core} (step : Turned env exact c c')
    (before : c.state ≠ .data) : c'.Carries env [] := by
  intro hdata
  cases step with
  | idle => exact absurd hdata before
  | longCommand state => exact absurd hdata before
  | command state line _ step =>
      intro _ _ _
      obtain ⟨-, -, -, hopened, rfl⟩ := step.entered_of_data state hdata
      obtain ⟨path, es, hlog, hlater, hwrites, -⟩ := openFiles_written hopened
      rw [traced, opening_opened hlog hlater, hlog, transaction_opened _ path true hlater,
        List.map_nil, List.append_nil]
      exact hwrites
  | longData state => exact absurd state before
  | stored state line => exact absurd state before
  | ended state => exact absurd state before

/-- The message in the file is made of the lines received since DATA. -/
theorem Carries.body_eq (h : c.Carries env lines) (hstate : c.state = .data)
    (clear : c.dataError = false) (short : c.lineTooLong = false) (small : c.dataTooLong = false) :
    c.body = (c.traced env).flatten ++ terminated (lines.map unstuff) := by
  have hwrites := h hstate clear short small
  rw [body, hwrites, List.tail_cons, List.flatten_append, terminated, List.flatMap_map,
    List.flatMap_def]

section Finishing

/-- A write that leaves no error. -/
theorem check_write_log (datas : Core → Bytes)
    (hclear : (c.check fun c => c.write env (datas c)).dataError = false) :
    writes (c.check fun c => c.write env (datas c)).log = writes c.log ++ [datas c] := by
  obtain ⟨-, hcheck, hok⟩ := check_ok _ (fun c => write_writes env (datas c) c) hclear
  rw [hcheck, write_log hok, writes_append]
  rfl

theorem check_writeMetadata_log (hclear : (c.check (writeMetadata env)).dataError = false) :
    writes (c.check (writeMetadata env)).log = writes c.log ++ c.metadata.writes := by
  obtain ⟨-, hcheck, hok⟩ :=
    check_ok (writeMetadata env) (fun c => writeAll_writes env _ c) hclear
  unfold writeMetadata at hok hcheck ⊢
  rw [hcheck, writeAll_log hok, writes_append, writes_map]

theorem writes_seekg (pos : Int) (whence : Whence) (c : Core) :
    writes (c.seekg pos whence).log = writes c.log :=
  (writes_append c.log [.seek pos whence]).trans (List.append_nil _)

theorem writes_tellg (env : Env) (c : Core) : writes (c.tellg env).1.log = writes c.log :=
  (writes_append c.log [.tell (c.tellg env).2]).trans (List.append_nil _)

theorem check_padData_log (hclear : (c.check (padData env)).dataError = false) :
    ∃ n, writes (c.check (padData env)).log = writes c.log ++ [List.replicate n nul] := by
  obtain ⟨-, hcheck, hok⟩ := check_ok _ (padData_writes env) hclear
  have hpadData : c.padData env = (c.tellg env).1.write env
      (List.replicate (512 - sizeT (c.tellg env).2 % 512) nul) := rfl
  rw [hpadData] at hok
  refine ⟨512 - sizeT (c.tellg env).2 % 512, ?_⟩
  rw [hcheck, hpadData, write_log hok, writes_append, writes_tellg]
  rfl

theorem check_dataHeader_log {size : Nat}
    (hclear : (c.check (writeDataTarHeader env size)).dataError = false) :
    writes (c.check (writeDataTarHeader env size)).log = writes c.log ++
      [(TarHeader.filled (text "message.mbox") size (c.answer env).now).bytes] :=
  check_write_log (fun c => (TarHeader.filled (text "message.mbox") size (c.answer env).now).bytes)
    hclear

theorem check_metadataHeader_log {size : Nat}
    (hclear : (c.check (writeMetadataTarHeader env size)).dataError = false) :
    writes (c.check (writeMetadataTarHeader env size)).log = writes c.log ++
      [(TarHeader.filled (text "metadata.ervan") size (c.answer env).now).bytes] :=
  check_write_log
    (fun c => (TarHeader.filled (text "metadata.ervan") size (c.answer env).now).bytes) hclear

/-- The buffers that are written for the message when it is finished: its header and padding. -/
theorem finishMessage_written {fileSize : Int}
    (hclear : (c.finishMessage env fileSize).dataError = false) :
    ∃ size now n, writes (c.finishMessage env fileSize).log = writes c.log ++
      [(TarHeader.filled (text "message.mbox") size now).bytes, List.replicate n nul] := by
  unfold finishMessage at hclear ⊢
  dsimp only at hclear ⊢
  have hlog := writes_seekg 0 .set c
  generalize c.seekg 0 .set = c₁ at hclear hlog ⊢
  obtain ⟨hheader, -, -⟩ := check_ok _ (padData_writes env) hclear
  have hwritten := check_dataHeader_log hheader
  generalize c₁.check (writeDataTarHeader env (sizeT (fileSize - 512))) = c₂ at hclear hwritten ⊢
  obtain ⟨n, hpadded⟩ := check_padData_log hclear
  refine ⟨sizeT (fileSize - 512), (c₁.answer env).now, n, ?_⟩
  rw [hpadded, writes_seekg, hwritten, hlog, List.append_assoc]
  rfl

/-- The buffers that are written for the envelope record: the space for its header, the record, the
header and a padding. -/
theorem finishMetadata_written (hclear : (c.finishMetadata env).dataError = false) :
    ∃ size now n, writes (c.finishMetadata env).log = writes c.log ++
      (List.replicate 512 nul :: (c.metadata.writes ++
        [(TarHeader.filled (text "metadata.ervan") size now).bytes, List.replicate n nul])) := by
  unfold finishMetadata at hclear ⊢
  have hlog := writes_tellg env c
  have hmetadata : (c.tellg env).1.metadata = c.metadata := rfl
  generalize c.tellg env = r at hclear hlog hmetadata ⊢
  obtain ⟨c₁, dataSize⟩ := r
  dsimp only at hclear hlog hmetadata ⊢
  -- an error that is set anywhere on the way is still set at the end
  have hheader := (check_ok _ (padData_writes env) hclear).1
  have hrecord :=
    (check_ok (writeMetadataTarHeader env _) (fun c => write_writes env _ c) hheader).1
  have hspace := (check_ok (writeMetadata env) (fun c => writeAll_writes env _ c) hrecord).1
  have hspaced : (c₁.check (writeHeaderSpace env)).metadata = c₁.metadata :=
    (check_steps (writeHeaderSpace env) (fun c => write_writes env _ c) c₁).same Core.metadata
      fun _ _ _ _ => rfl
  have hspaceLog : writes (c₁.check (writeHeaderSpace env)).log =
      writes c₁.log ++ [List.replicate 512 nul] :=
    check_write_log (fun _ => List.replicate 512 nul) hspace
  generalize c₁.check (writeHeaderSpace env) = c₂ at *
  have htell := writes_tellg env c₂
  have htold : (c₂.tellg env).1.metadata = c₂.metadata := rfl
  generalize c₂.tellg env = r at *
  obtain ⟨c₃, preMetadataSize⟩ := r
  dsimp only at *
  have hrecordLog := check_writeMetadata_log hrecord
  generalize c₃.check (writeMetadata env) = c₄ at *
  have htell' := writes_tellg env c₄
  generalize c₄.tellg env = r at *
  obtain ⟨c₅, totalSize⟩ := r
  dsimp only at *
  have hseek := writes_seekg dataSize .set c₅
  generalize c₅.seekg dataSize .set = c₆ at *
  have hheaderLog := check_metadataHeader_log hheader
  obtain ⟨n, hpadded⟩ := check_padData_log hclear
  refine ⟨sizeT (totalSize - preMetadataSize), (c₆.answer env).now, n, ?_⟩
  rw [hpadded, writes_seekg, hheaderLog, hseek, htell', hrecordLog, htell, hspaceLog, hlog, htold,
    hspaced, hmetadata]
  simp only [List.append_assoc, List.cons_append, List.nil_append]

/-- The buffers that complete the file: the header and the padding of the message, and those of
the envelope record. -/
theorem Completed.written {c₁ : Core} (done : Completed env c c₁) : ∃ size now n size' now' n',
    writes c₁.log = writes c.log ++
      ((TarHeader.filled (text "message.mbox") size now).bytes :: List.replicate n nul ::
        List.replicate 512 nul :: (c.metadata.writes ++
          [(TarHeader.filled (text "metadata.ervan") size' now').bytes, List.replicate n' nul])) := by
  have hclear := done.clear
  rw [done.eq] at hclear ⊢
  have hmetadata : ((c.tellg env).1.finishMessage env (c.tellg env).2).metadata = c.metadata :=
    (finishMessage_steps env _ (c.tellg env).1).same Core.metadata fun _ _ _ _ => rfl
  obtain ⟨size, now, n, hmessage⟩ :=
    finishMessage_written ((finishMetadata_steps env _).clear hclear)
  obtain ⟨size', now', n', hrecord⟩ := finishMetadata_written hclear
  refine ⟨size, now, n, size', now', n', ?_⟩
  rw [hrecord, hmessage, writes_tellg, hmetadata]
  simp only [List.append_assoc, List.cons_append, List.nil_append]

end Finishing

end Core

namespace Session

variable {env : Env} {x : Progress} {n : Nat}

theorem carries_step (h : ((advance env)^[n] x).1.Carries env (dataLines env x n)) :
    ((advance env)^[n + 1] x).1.Carries env (dataLines env x (n + 1)) := by
  rw [Function.iterate_succ_apply', dataLines]
  generalize dataLines env x n = lines at h ⊢
  generalize (advance env)^[n] x = y at h ⊢
  obtain ⟨s, chunks⟩ := y
  by_cases hstate : s.state = .data
  · simp only [if_pos hstate]
    cases chunks with
    | nil => exact h
    | cons sp chunks =>
        cases sp with
        | nil =>
            change s.Carries env (lines ++ [])
            rw [List.append_nil]
            exact h
        | cons c sp =>
            change (s.turn env (c :: sp)).1.Carries env _
            rw [turn_data env (c :: sp) hstate]
            exact h.dataTurn hstate
  · simp only [if_neg hstate]
    exact (advance_turned env (s, chunks)).carries hstate

theorem carries_always (env : Env) (mem : Memory) (chunks : List Bytes) (n : Nat) :
    ((advance env)^[n] (start env mem, chunks)).1.Carries env
      (dataLines env (start env mem, chunks) n) := by
  induction n with
  | zero =>
      intro hdata
      cases hdata
  | succ n ih => exact carries_step ih

/-- The message of an acknowledged transaction is made of the lines received since DATA. -/
theorem body_acknowledged {mem : Memory} {chunks : List Bytes} {n : Nat}
    (hack : Acknowledges env ((advance env)^[n] (start env mem, chunks))) :
    ((advance env)^[n] (start env mem, chunks)).1.body =
      (((advance env)^[n] (start env mem, chunks)).1.traced env).flatten ++
        terminated ((dataLines env (start env mem, chunks) n).map unstuff) := by
  obtain ⟨c₁, done, -⟩ := acknowledges_completed hack
  exact (carries_always env mem chunks n).body_eq hack.1 (done.steps.clear done.clear) done.short
    done.small

/-- The writes of the transaction, all of them with success: the space for the header, the trace
information, every line, the header and the padding of the message, and the space, the entries, the
header and the padding of the envelope record. -/
def Written (env : Env) (x : Progress) (lines : List Bytes) : Prop :=
  ∃ size now n size' now' n', writes (transaction (advance env x).1.log) =
    List.replicate 512 nul :: (x.1.traced env ++ lines.map (fun line => unstuff line ++ crlf) ++
      ((TarHeader.filled (text "message.mbox") size now).bytes :: List.replicate n nul ::
        List.replicate 512 nul :: (x.1.metadata.writes ++
          [(TarHeader.filled (text "metadata.ervan") size' now').bytes, List.replicate n' nul])))

/-- The lines that an acknowledged transaction has written are those received since DATA. -/
theorem written_acknowledged {mem : Memory} {chunks : List Bytes} {n : Nat}
    (hack : Acknowledges env ((advance env)^[n] (start env mem, chunks))) :
    Written env ((advance env)^[n] (start env mem, chunks))
      (dataLines env (start env mem, chunks) n) := by
  obtain ⟨c₁, done, heq⟩ := acknowledges_completed hack
  have hcarried := carries_always env mem chunks n hack.1 (done.steps.clear done.clear) done.short
    done.small
  have hfinal := ((tracked_always env mem chunks n).completed hack.1 done).1
  obtain ⟨size, now, pad, size', now', pad', hwritten⟩ := done.written
  obtain ⟨es, hlog, hfile, -⟩ := done.steps.log
  rw [hlog, writes_append, List.append_cancel_left_eq] at hwritten
  refine ⟨size, now, pad, size', now', pad', ?_⟩
  rw [heq, hfinal, hlog, transaction_append _ fun e he => isFile_ne_open (hfile e he),
    writes_append, writes_append, hcarried, hwritten]
  exact List.append_nil _

/-- A 250 at the end of the data means that the file has been synchronised and that every operation
of the transaction has succeeded. -/
def Durable (env : Env) (x : Progress) : Prop :=
  Acknowledges env x → Event.fsync .done ∈ transaction (advance env x).1.log ∧
    ∀ e ∈ transaction (advance env x).1.log, e.succeeded = true

instance (env : Env) (x : Progress) : Decidable (Durable env x) :=
  inferInstanceAs (Decidable (_ → _))

/-- A step is durable exactly if it contains no synchronisation that fails after it has
been accepted. -/
theorem durable_iff (h : x.1.Tracked) : Durable env x ↔ Event.fsync .failed ∉ events env x := by
  constructor
  · intro hdurable hfailed
    have hack : Acknowledges env x :=
      ⟨data_of_fsync hfailed, (events_data env (data_of_fsync hfailed)).2 hfailed⟩
    obtain ⟨c₁, done, heq⟩ := acknowledges_completed hack
    obtain ⟨es, -, hfile, hevents⟩ := events_completed done heq
    have hsync : (Event.fsync (c₁.answer env).fsync).succeeded = true := by
      refine (hdurable hack).2 _ ?_
      rw [heq, (h.completed hack.1 done).1]
      simp
    rw [hevents] at hfailed
    rcases List.mem_append.mp hfailed with hmem | hmem
    · exact Bool.noConfusion (hfile _ hmem)
    · simp only [List.mem_cons, Event.fsync.injEq, reduceCtorEq, List.not_mem_nil, or_false] at hmem
      rw [← hmem] at hsync
      cases hsync
  · intro hfailed hack
    obtain ⟨c₁, done, heq⟩ := acknowledges_completed hack
    obtain ⟨es, -, -, hevents⟩ := events_completed done heq
    obtain ⟨htransaction, hsucceeded⟩ := h.completed hack.1 done
    have hdone : (c₁.answer env).fsync = .done := by
      have haccepted := done.accepted
      rw [hevents] at hfailed
      cases houtcome : (c₁.answer env).fsync with
      | refused => exact absurd houtcome haccepted
      | failed => simp [houtcome] at hfailed
      | done => rfl
    rw [heq, htransaction, hdone]
    refine ⟨by simp, fun e he => ?_⟩
    simp only [List.mem_append, List.mem_cons, List.not_mem_nil, or_false] at he
    rcases he with he | rfl | rfl | rfl
    · exact hsucceeded e he
    · rfl
    · rfl
    · rfl

/-- In every run, whatever the outcomes of the file operations, every 250 at the end of
the data is durable if and only if no accepted synchronisation completes with an error. The
writes that are behind a 250 are all that there are to make. -/
theorem durable_runs (env : Env) (mem : Memory) (chunks : List Bytes) :
    (Run.Always (advance env) (Durable env) (start env mem, chunks) ↔
      Event.fsync .failed ∉ (feedAll env (start env mem) chunks).log) ∧
    ∀ n, Acknowledges env ((advance env)^[n] (start env mem, chunks)) →
      Written env ((advance env)^[n] (start env mem, chunks))
        (dataLines env (start env mem, chunks) n) := by
  have htracked := tracked_always env mem chunks
  refine ⟨⟨fun hdurable => ?_, fun hclean n => ?_⟩, fun n => written_acknowledged⟩
  · have hclean : Run.Always (advance env) (fun x => Event.fsync .failed ∉ x.1.log)
        (start env mem, chunks) := by
      refine Run.Always.invariant (P := fun x => Durable env x ∧ x.1.Tracked)
        (fun n => ⟨hdurable n, htracked n⟩) (by simp [start, construct, Core.reply, Core.emit,
          Core.reset]) ?_
      rintro x ⟨hstep, htrack⟩ hbefore
      rw [advance_log_events, List.mem_append, not_or]
      exact ⟨hbefore, (durable_iff htrack).mp hstep⟩
    obtain ⟨n, hn⟩ := feedAll_reached env (start env mem) chunks
    have hlast := hclean n
    rwa [hn] at hlast
  · rw [durable_iff (htracked n)]
    intro hmem
    refine hclean ((log_final env (start env mem) chunks (n + 1)).mem ?_)
    rw [Function.iterate_succ_apply', advance_log_events]
    exact List.mem_append_right _ hmem

/-- A synchronisation that is accepted and fails is answered with 250 all the same. -/
theorem not_durable_failing_fsync :
    ¬ ∀ (env : Env) (mem : Memory) (chunks : List Bytes),
      Run.Always (advance env) (Durable env) (start env mem, chunks) := by
  intro h
  have hstep := h (fun _ => { Answer.ideal with fsync := .failed }) .zeroed
    [text "EHLO a\r\n", text "MAIL FROM:<>\r\n", text "RCPT TO:<b@c>\r\n", text "DATA\r\n",
      text ".\r\n"] 8
  revert hstep
  decide +kernel

section Archives

/-- What `strftime` makes of the formats of `write_time` at the start of the epoch, in the C locale
and the UTC zone. -/
def startOfEpoch (format : Bytes) : Bytes :=
  ((Rfc5322.Writer.timeFormats.zip [text "Thu,", text "01", text "Jan", text "1970",
    text "00:00:00", text "+0000"]).lookup format).getD []

/-- An environment in which every operation succeeds and the dates are those of the C locale. -/
def dated : Env := fun _ => { Answer.ideal with strftime := startOfEpoch }

/-- A transaction with these stored lines. -/
def transmitted (lines : List Bytes) : Progress :=
  (start dated .zeroed, [upToData, text "DATA\r\n", terminated lines, text ".\r\n"])

/-- In every run on a regular file, the message that is answered with 250 is the trace information
and the lines received since DATA, and its file is an archive of this message and of the envelope
record if and only if the message does not end at the end of a block and no size is too large for
its header. -/
theorem archived_runs (env : Env) (mem : Memory) (chunks : List Bytes)
    (posix : ∀ n, (env n).told = true) (n : Nat)
    (hack : Acknowledges env ((advance env)^[n] (start env mem, chunks))) :
    ((advance env)^[n] (start env mem, chunks)).1.body =
      (((advance env)^[n] (start env mem, chunks)).1.traced env).flatten ++
        terminated ((dataLines env (start env mem, chunks) n).map unstuff) ∧
    (Archived env ((advance env)^[n] (start env mem, chunks)) ↔
      Archivable ((advance env)^[n] (start env mem, chunks))) :=
  ⟨body_acknowledged hack, archived_iff posix (spooled_always env mem chunks n) hack⟩

theorem archived_runs_short :
    Archived dated ((advance dated)^[8] (transmitted [text "x"])) :=
  (archived_runs dated .zeroed _ (fun _ => rfl) 8 (by decide +kernel)).2.mpr
    (by unfold Archivable; decide +kernel)

/-- A message that ends at the end of a block hides the envelope record: the trace information
takes 58 bytes, and the line 454. -/
theorem not_archived_whole_block :
    ¬ ∀ (env : Env) (mem : Memory) (chunks : List Bytes), (∀ n, (env n).told = true) →
      Run.Always (advance env) (fun x => Acknowledges env x → Archived env x)
        (start env mem, chunks) := by
  intro h
  have hack : Acknowledges dated ((advance dated)^[8] (transmitted [List.replicate 452 120])) := by
    decide +kernel
  have hspooled := spooled_always dated .zeroed (transmitted [List.replicate 452 120]).2 8
  have hfits := (archived_iff (fun _ => rfl) hspooled hack).mp
    (h dated .zeroed _ (fun _ => rfl) 8 hack)
  revert hfits
  unfold Archivable
  decide +kernel

end Archives

end Session

end Ervan.Smtp
