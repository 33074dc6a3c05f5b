import Ervan.Smtp.DataPhase
import Ervan.Smtp.Durability

/-!
# The spool file

What is in the file of a message that has been answered with 250, and what a reader of
archives finds in it.
-/

namespace Ervan.Smtp

open Io

namespace DataFile

variable {f : DataFile} {pre mid post data : Bytes}

/-- A write in the middle of a file replaces as many bytes as it has. -/
theorem write_over (hcontents : f.contents = pre ++ (mid ++ post)) (hpos : f.pos = pre.length)
    (hlength : data.length = mid.length) : (f.write data).contents = pre ++ (data ++ post) := by
  have hgap : f.pos - f.contents.length = 0 := by
    rw [hcontents, hpos, List.length_append]
    omega
  have hdrop : f.contents.drop (f.pos + data.length) = post := by
    rw [hcontents, hpos, hlength, ← List.append_assoc]
    exact List.drop_left' List.length_append
  have htake : f.contents.take f.pos = pre := by
    rw [hcontents, hpos, List.take_left]
  simp only [DataFile.write, hgap, hdrop, htake, List.replicate_zero, List.append_nil,
    List.append_assoc]

end DataFile

namespace Core

/-- The spool file has these contents, and the next write goes to its end. -/
def Holds (c : Core) (bs : Bytes) : Prop := c.dataFile = some ⟨bs, bs.length⟩

/-- The NULs that `pad_data` writes behind `n` bytes. -/
def padding (n : Nat) : Bytes := List.replicate (512 - n % 512) nul

section Holds

variable {env : Env} {c : Core} {bs data : Bytes}

theorem holds_iff : c.Holds bs ↔ ∃ f, c.dataFile = some f ∧ f.AtEnd ∧ f.contents = bs := by
  constructor
  · exact fun h => ⟨_, h, rfl, rfl⟩
  · rintro ⟨⟨contents, pos⟩, hfile, hend, rfl⟩
    rw [Holds, hfile, show pos = contents.length from hend]

theorem Holds.writeAll (h : c.Holds bs) {datas : List Bytes}
    (hok : (c.writeAll env datas).2 = true) :
    (c.writeAll env datas).1.Holds (bs ++ datas.flatten) := by
  have hend : DataFile.AtEnd ⟨bs, bs.length⟩ := rfl
  obtain ⟨hend, hcontents⟩ := hend.writes datas
  rw [writeAll_ok h hok]
  exact holds_iff.mpr ⟨_, rfl, hend, hcontents⟩

theorem Holds.write (h : c.Holds bs) (hok : (c.write env data).2 = true) :
    (c.write env data).1.Holds (bs ++ data) := by
  have hend : DataFile.AtEnd ⟨bs, bs.length⟩ := rfl
  obtain ⟨hend, hcontents⟩ := hend.write data
  rw [write_ok h hok]
  exact holds_iff.mpr ⟨_, rfl, hend, hcontents⟩

theorem Holds.check_write (h : c.Holds bs)
    (hclear : (c.check (·.write env data)).dataError = false) :
    (c.check (·.write env data)).Holds (bs ++ data) := by
  obtain ⟨-, hcheck, hok⟩ := check_ok _ (fun c => write_writes env data c) hclear
  rw [hcheck]
  exact h.write hok

/-- The position of a file that is written at its end is its length. -/
theorem Holds.tellg (h : c.Holds bs) (posix : ∀ n, (env n).told = true) :
    (c.tellg env).1.Holds bs ∧ (c.tellg env).2 = bs.length := by
  refine ⟨h, ?_⟩
  have hfile : c.dataFile = some ⟨bs, bs.length⟩ := h
  simp only [Core.tellg, hfile, answer, posix, if_true]

theorem Holds.check_padData (h : c.Holds bs) (posix : ∀ n, (env n).told = true)
    (hclear : (c.check (padData env)).dataError = false) :
    (c.check (padData env)).Holds (bs ++ padding bs.length) := by
  obtain ⟨-, hcheck, hok⟩ := check_ok _ (padData_writes env) hclear
  obtain ⟨htell, hsize⟩ := h.tellg posix
  have hpad : 512 - sizeT bs.length % 512 = 512 - bs.length % 512 := by
    unfold sizeT
    omega
  have hpadData : c.padData env = (c.tellg env).1.write env (padding bs.length) := by
    rw [padding, ← hpad, ← hsize]
    rfl
  rw [hcheck, hpadData]
  exact htell.write (hpadData ▸ hok)

/-- A header is written to the space that has been left for it. -/
theorem Holds.patch (pre mid post : Bytes) (h : c.Holds (pre ++ (mid ++ post))) {pos : Int}
    (hpos : pos = pre.length) (hlength : data.length = mid.length)
    (hok : ((c.seekg pos .set).write env data).2 = true) :
    (((c.seekg pos .set).write env data).1.seekg 0 .end).Holds (pre ++ (data ++ post)) := by
  have hseek : (c.seekg pos .set).dataFile = some ⟨pre ++ (mid ++ post), pre.length⟩ := by
    have hfile : c.dataFile = some _ := h
    simp [seekg, emit, hfile, DataFile.seek, hpos]
  have hcontents := DataFile.write_over (f := ⟨pre ++ (mid ++ post), pre.length⟩) rfl rfl hlength
  have hend : ((pre ++ (data ++ post)).length : Int) + 0 = ((pre ++ (data ++ post)).length : Nat) :=
    Int.add_zero _
  rw [write_ok hseek hok]
  simp only [seekg, emit, Holds, Option.map_some, DataFile.seek, hcontents, hend, Int.toNat_natCast]
  rw [if_neg (by omega)]

theorem padding_add (n : Nat) : padding (512 + n) = padding n := by
  rw [padding, padding, Nat.add_mod_left]

/-- The header of the message is written to the space before it, and the message is padded. -/
theorem Holds.finishMessage {space body : Bytes} (h : c.Holds (space ++ body))
    (posix : ∀ n, (env n).told = true) (hspace : space.length = 512)
    (hclear : (c.finishMessage env (512 + body.length)).dataError = false) :
    ∃ now, (c.finishMessage env (512 + body.length)).Holds
      ((TarHeader.filled (text "message.mbox") (sizeT body.length) now).bytes ++
        (body ++ padding body.length)) := by
  have hsize : (512 + body.length : Int) - 512 = body.length := by omega
  unfold Core.finishMessage at hclear ⊢
  rw [hsize] at hclear ⊢
  obtain ⟨hpatch, -, -⟩ := check_ok _ (padData_writes env) hclear
  obtain ⟨-, hheader, hok⟩ := check_ok (writeDataTarHeader env (sizeT body.length))
    (fun c => write_writes env _ c) hpatch
  simp only [hheader] at hclear ⊢
  have hpatched := Holds.patch [] space body h rfl
    ((TarHeader.length_bytes _ _ _).trans hspace.symm) hok
  have hpadded := hpatched.check_padData posix hclear
  rw [List.nil_append, List.length_append, TarHeader.length_bytes, padding_add,
    List.append_assoc] at hpadded
  exact ⟨_, hpadded⟩

/-- The size of the envelope record is what the file has grown by. -/
theorem Holds.envelope (h : c.Holds bs) (posix : ∀ n, (env n).told = true)
    (hclear : (c.check (writeMetadata env)).dataError = false) :
    ((c.check (writeMetadata env)).tellg env).1.Holds (bs ++ c.metadata.writes.flatten) ∧
      sizeT (((c.check (writeMetadata env)).tellg env).2 - bs.length) =
        sizeT c.metadata.writes.flatten.length := by
  obtain ⟨-, hcheck, hok⟩ :=
    check_ok (writeMetadata env) (fun c => writeAll_writes env _ c) hclear
  have hwritten : (c.writeMetadata env).1.Holds (bs ++ c.metadata.writes.flatten) :=
    h.writeAll hok
  rw [hcheck]
  obtain ⟨htell, hsize⟩ := hwritten.tellg posix
  refine ⟨htell, congrArg sizeT ?_⟩
  rw [hsize, List.length_append]
  omega

/-- The envelope record is put behind the message, with its own header and padding. -/
theorem Holds.finishMetadata (h : c.Holds bs) (posix : ∀ n, (env n).told = true)
    (haligned : bs.length % 512 = 0) (hclear : (c.finishMetadata env).dataError = false) :
    ∃ now, (c.finishMetadata env).Holds (bs ++
      ((TarHeader.filled (text "metadata.ervan") (sizeT c.metadata.writes.flatten.length)
        now).bytes ++ (c.metadata.writes.flatten ++ padding c.metadata.writes.flatten.length))) := by
  obtain ⟨h₁, hdataSize⟩ := h.tellg posix
  have hmetadata₁ : (c.tellg env).1.metadata = c.metadata := rfl
  unfold Core.finishMetadata at hclear ⊢
  simp only [hdataSize] at hclear ⊢
  generalize (c.tellg env).1 = c₁ at h₁ hmetadata₁ hclear ⊢
  have hrecord := (check_ok (writeMetadataTarHeader env _) (fun c => write_writes env _ c)
    (check_ok _ (padData_writes env) hclear).1).1
  have hspace := (check_ok (writeMetadata env) (fun c => writeAll_writes env _ c) hrecord).1
  have h₂ : (c₁.check (writeHeaderSpace env)).Holds (bs ++ List.replicate 512 nul) :=
    h₁.check_write hspace
  obtain ⟨h₃, hpreSize⟩ := h₂.tellg posix
  have hmetadata₃ : ((c₁.check (writeHeaderSpace env)).tellg env).1.metadata = c.metadata :=
    ((check_steps (writeHeaderSpace env) (fun c => write_writes env _ c) c₁).same Core.metadata
      fun _ _ _ _ => rfl).trans hmetadata₁
  simp only [hpreSize] at hclear ⊢
  generalize ((c₁.check (writeHeaderSpace env)).tellg env).1 = c₃ at h₃ hmetadata₃ hrecord hclear ⊢
  obtain ⟨h₅, hsize⟩ := h₃.envelope posix hrecord
  rw [hmetadata₃, List.append_assoc] at h₅
  rw [hsize, hmetadata₃] at hclear ⊢
  obtain ⟨-, hheader, hok⟩ := check_ok (writeMetadataTarHeader env _)
    (fun c => write_writes env _ c) (check_ok _ (padData_writes env) hclear).1
  rw [hheader] at hclear ⊢
  have hpatched := Holds.patch _ _ _ h₅ rfl
    ((TarHeader.length_bytes _ _ _).trans List.length_replicate.symm) hok
  have hpadded := hpatched.check_padData posix hclear
  have hpadding (n : Nat) : padding (bs.length + (512 + n)) = padding n := by
    have hmod : (bs.length + (512 + n)) % 512 = n % 512 := by omega
    rw [padding, padding, hmod]
  rw [List.length_append, List.length_append, TarHeader.length_bytes, hpadding] at hpadded
  simp only [List.append_assoc] at hpadded
  exact ⟨_, hpadded⟩

end Holds

section Reading

open Archive

/-- The padding goes up to the next header, or is a whole block of zeros before it. -/
theorem drop_padding (contents rest : Bytes) :
    (contents ++ (padding contents.length ++ rest)).drop (padded contents.length) =
      if contents.length % 512 = 0 then padding contents.length ++ rest else rest := by
  split
  · have hwhole : contents.length + ([] : Bytes).length = padded contents.length := by
      unfold padded
      rw [List.length_nil]
      omega
    exact drop_padded hwhole (padding contents.length ++ rest)
  · refine drop_padded ?_ rest
    unfold padded padding
    rw [List.length_replicate]
    omega

theorem read_padding {n : Nat} (fuel : Nat) (hn : n % 512 = 0) (rest : Bytes) :
    read (fuel + 1) (padding n ++ rest) = some [] := by
  have hlength : (padding n).length = 512 := by
    rw [padding, hn]
    exact List.length_replicate
  exact read_zeros fuel hlength (fun _ hc => List.eq_of_mem_replicate hc) rest

theorem sizeT_mod (n : Nat) : sizeT n % 8 ^ 11 = n % 8 ^ 11 := by
  unfold sizeT
  omega

variable (name name' body record : Bytes) (now now' : Nat)

/-- The last member of the file is read back if its size fits the header. -/
theorem read_last (fuel : Nat) :
    read (fuel + 2) ((TarHeader.filled name (sizeT record.length) now).bytes ++
        (record ++ padding record.length)) =
      some [⟨(cString name).take 99, record⟩] ↔ record.length < 8 ^ 11 := by
  have hheader := TarHeader.filled_header name (sizeT record.length) now
  rw [sizeT_mod] at hheader
  rw [read_member_iff hheader (Nat.mod_le _ _)]
  constructor
  · rintro ⟨hsize, -⟩
    rw [← hsize]
    exact Nat.mod_lt _ (by decide)
  · intro hlt
    have hdrop := drop_padding record []
    rw [List.append_nil] at hdrop
    refine ⟨Nat.mod_eq_of_lt hlt, ?_⟩
    rw [Nat.mod_eq_of_lt hlt, hdrop]
    split
    · rename_i hblock
      have hread := read_padding fuel hblock []
      rwa [List.append_nil] at hread
    · exact read_nil

/-- Both members are read back if and only if the sizes fit the headers and the padding of the
first one is no whole block. -/
theorem read_iff (fuel : Nat) :
    read (fuel + 3) ((TarHeader.filled name (sizeT body.length) now).bytes ++
        (body ++ (padding body.length ++
          ((TarHeader.filled name' (sizeT record.length) now').bytes ++
            (record ++ padding record.length))))) =
      some [⟨(cString name).take 99, body⟩, ⟨(cString name').take 99, record⟩] ↔
    body.length % 512 ≠ 0 ∧ body.length < 8 ^ 11 ∧ record.length < 8 ^ 11 := by
  have hheader := TarHeader.filled_header name (sizeT body.length) now
  rw [sizeT_mod] at hheader
  rw [read_member_iff hheader (Nat.mod_le _ _)]
  have hlt (hsize : body.length % 8 ^ 11 = body.length) : body.length < 8 ^ 11 := by
    rw [← hsize]
    exact Nat.mod_lt _ (by decide)
  constructor
  · rintro ⟨hsize, hrest⟩
    rw [hsize, drop_padding] at hrest
    split at hrest
    · rename_i hblock
      rw [read_padding _ hblock] at hrest
      cases hrest
    · rename_i hblock
      exact ⟨hblock, hlt hsize, (read_last name' record now' fuel).mp hrest⟩
  · rintro ⟨hblock, hbody, hrecord⟩
    refine ⟨Nat.mod_eq_of_lt hbody, ?_⟩
    rw [Nat.mod_eq_of_lt hbody, drop_padding, if_neg hblock]
    exact (read_last name' record now' fuel).mpr hrecord

end Reading

end Core

/-- The buffers that have been written with success. -/
def writes (es : List Event) : List Bytes :=
  es.filterMap fun e => match e with
    | .write data true => some data
    | _ => none

@[simp] theorem writes_append (es es' : List Event) :
    writes (es ++ es') = writes es ++ writes es' := List.filterMap_append

@[simp] theorem writes_map (datas : List Bytes) :
    writes (datas.map (Event.write · true)) = datas := by
  induction datas with
  | nil => rfl
  | cons data datas ih => exact congrArg (data :: ·) ih

namespace Core

/-- In the data state a file without an error has in it what the transaction has written, which
starts with the space for the header. -/
def Spooled (c : Core) : Prop :=
  c.state = .data → c.dataError = false → ∃ datas,
    writes (transaction c.log) = List.replicate 512 nul :: datas ∧
      c.Holds (writes (transaction c.log)).flatten

variable {env : Env} {exact : Prop} {line : Bytes} {c c' : Core}

/-- A line is skipped or written, or there is an error. -/
theorem store_cases (hclear : (c.store env line).dataError = false) :
    c.store env line = c.measureLine (unstuff line).length ∨
      ((c.measureLine (unstuff line).length).write env (unstuff line ++ crlf)).2 = true ∧
      c.store env line =
        ((c.measureLine (unstuff line).length).write env (unstuff line ++ crlf)).1 := by
  by_cases hlimits : (c.measureLine (unstuff line).length).lineTooLong = false ∧
      (c.measureLine (unstuff line).length).dataTooLong = false
  · rw [store_check hlimits.1 hlimits.2] at hclear ⊢
    obtain ⟨-, hcheck, hok⟩ := check_ok _ (fun c => write_writes env _ c) hclear
    exact Or.inr ⟨hok, hcheck⟩
  · left
    unfold store
    rw [if_pos]
    by_contra hnone
    simp only [Bool.or_eq_true, not_or, Bool.not_eq_true] at hnone
    exact hlimits hnone.1

theorem Spooled.stored (h : c.Spooled) (state : c.state = .data) : (c.store env line).Spooled := by
  intro hdata hclear
  have hbefore : c.dataError = false := by
    have hmeasured := (store_steps env line c).clear hclear
    rwa [measureLine_eq] at hmeasured
  obtain ⟨datas, hwrites, hholds⟩ := h state hbefore
  rcases store_cases hclear with heq | ⟨hok, heq⟩
  · rw [heq, measureLine_eq]
    exact ⟨datas, hwrites, hholds⟩
  · have hmeasured : (c.measureLine (unstuff line).length).Holds
        (writes (transaction c.log)).flatten := by
      rw [measureLine_eq]
      exact hholds
    have hlog : (c.store env line).log = c.log ++ [.write (unstuff line ++ crlf) true] := by
      rw [heq, write_log hok, measureLine_eq]
    have hstored : writes (transaction (c.store env line).log) =
        writes (transaction c.log) ++ [unstuff line ++ crlf] := by
      rw [hlog, transaction_append c.log (by simp), writes_append]
      rfl
    refine ⟨datas ++ [unstuff line ++ crlf], ?_, ?_⟩
    · rw [hstored, hwrites, List.cons_append]
    · rw [hstored, List.flatten_append, List.flatten_singleton, heq]
      exact hmeasured.write hok

/-- Between the opening of the file and the reply to DATA, the space for the header and the trace
information are written. -/
theorem openFiles_written (hopened : (c.openFiles env).2 = true) : ∃ path es,
    ((c.openFiles env).1.dataEntered.reply .startData).log = c.log ++ .open_ path true :: es ∧
      (∀ e ∈ es, ∀ path ok, e ≠ Event.open_ path ok) ∧
      writes es = List.replicate 512 nul :: traceInfo (env (c.log.length + 2)) ∧
      ((c.openFiles env).1.dataEntered.reply .startData).Holds (writes es).flatten := by
  obtain ⟨f, path, hfile, hend, hcontents, hlog⟩ := (openFiles_opened env c).file hopened
  generalize traceInfo (env (c.log.length + 2)) = datas at hcontents hlog ⊢
  have hwrites : writes ((List.replicate 512 nul :: datas).map (Event.write · true) ++
      [.reply .startData]) = List.replicate 512 nul :: datas := by
    rw [writes_append, writes_map]
    exact List.append_nil _
  refine ⟨path, (List.replicate 512 nul :: datas).map (Event.write · true) ++ [.reply .startData],
    ?_, fun e he => ?_, hwrites, ?_⟩
  · rw [reply_log, dataEntered, hlog, List.append_assoc, List.cons_append]
  · rcases List.mem_append.mp he with he | he
    · obtain ⟨data, -, rfl⟩ := List.mem_map.mp he
      simp
    · rw [List.mem_singleton.mp he]
      simp
  · rw [hwrites, List.flatten_cons]
    exact holds_iff.mpr ⟨f, hfile, hend, hcontents⟩

theorem Spooled.turned (h : c.Spooled) (step : Turned env exact c c') : c'.Spooled := by
  intro hdata hclear
  cases step with
  | idle => exact h hdata hclear
  | longCommand state => exact absurd (state.symm.trans hdata) (by decide)
  | command state line _ step =>
      obtain ⟨-, -, -, hopened, rfl⟩ := step.entered_of_data state hdata
      obtain ⟨path, es, hlog, hlater, hwrites, hholds⟩ := openFiles_written hopened
      rw [hlog, transaction_opened _ path true hlater]
      exact ⟨_, hwrites, hholds⟩
  | longData state => exact h hdata hclear
  | stored state line => exact h.stored state hdata hclear
  | ended state =>
      rw [(endData_ended env c).eq.1] at hdata
      cases hdata

/-- What the transaction has written behind the space for the header. -/
def body (c : Core) : Bytes := (writes (transaction c.log)).tail.flatten

/-- The contents of the file when it is closed. -/
theorem Spooled.completed (h : c.Spooled) (state : c.state = .data)
    (posix : ∀ n, (env n).told = true) {c₁ : Core} (done : Completed env c c₁) :
    ∃ now now', c₁.Holds ((TarHeader.filled (text "message.mbox") (sizeT c.body.length) now).bytes ++
      (c.body ++ (padding c.body.length ++
        ((TarHeader.filled (text "metadata.ervan") (sizeT c.metadata.writes.flatten.length)
          now').bytes ++ (c.metadata.writes.flatten ++
            padding c.metadata.writes.flatten.length))))) := by
  obtain ⟨datas, hwrites, hholds⟩ := h state (done.steps.clear done.clear)
  have hcontents : (writes (transaction c.log)).flatten = List.replicate 512 nul ++ c.body := by
    rw [body, hwrites]
    exact List.flatten_cons
  rw [hcontents] at hholds
  obtain ⟨htell, hsize⟩ := hholds.tellg posix
  have hsize' : (c.tellg env).2 = 512 + c.body.length := by
    rw [hsize, List.length_append, List.length_replicate]
    omega
  have hclear := done.clear
  have heq := done.eq
  rw [hsize'] at heq
  rw [heq] at hclear
  obtain ⟨now, hmessage⟩ := htell.finishMessage posix List.length_replicate
    ((finishMetadata_steps env _).clear hclear)
  obtain ⟨now', hmetadata⟩ := hmessage.finishMetadata posix (by
    rw [List.length_append, List.length_append, TarHeader.length_bytes, padding,
      List.length_replicate]
    omega) hclear
  have hrecord : ((c.tellg env).1.finishMessage env (512 + c.body.length)).metadata =
      c.metadata :=
    (finishMessage_steps env _ (c.tellg env).1).same Core.metadata fun _ _ _ _ => rfl
  rw [hrecord] at hmetadata
  refine ⟨now, now', ?_⟩
  rw [heq]
  simpa only [List.append_assoc] using hmetadata

end Core

namespace Session

variable {env : Env} {x : Progress}

theorem spooled_always (env : Env) (mem : Memory) (chunks : List Bytes) :
    Run.Always (advance env) (fun x => x.1.Spooled) (start env mem, chunks) := by
  refine Run.always_of_step (advance env) ?_ fun x h => h.turned (advance_turned env x)
  intro hdata
  cases hdata

/-- The file that the step closes is an archive of the message and the envelope record. -/
def Archived (env : Env) (x : Progress) : Prop :=
  ∀ contents, Event.close contents ∈ events env x → Archive.members contents =
    some [⟨text "message.mbox", x.1.body⟩,
      ⟨text "metadata.ervan", x.1.metadata.writes.flatten⟩]

/-- The message does not end at the end of a block, and the sizes fit the headers. -/
def Archivable (x : Progress) : Prop :=
  x.1.body.length % 512 ≠ 0 ∧ x.1.body.length < 8 ^ 11 ∧
    x.1.metadata.writes.flatten.length < 8 ^ 11

/-- What a step that answers with 250 leaves behind. -/
theorem archived_iff (posix : ∀ n, (env n).told = true) (h : x.1.Spooled)
    (hack : Acknowledges env x) : Archived env x ↔ Archivable x := by
  obtain ⟨c₁, done, heq⟩ := acknowledges_completed hack
  obtain ⟨now, now', hholds⟩ := h.completed hack.1 posix done
  obtain ⟨es, -, hfile, hevents⟩ := events_completed done heq
  generalize hcontents : (TarHeader.filled (text "message.mbox") (sizeT x.1.body.length) now).bytes ++
    _ = contents at hholds
  have hclosed (contents' : Bytes) :
      Event.close contents' ∈ events env x ↔ contents' = contents := by
    have hfinal : (c₁.dataFile.map DataFile.contents).getD [] = contents := by
      rw [show c₁.dataFile = some ⟨contents, contents.length⟩ from hholds]
      rfl
    rw [hevents, hfinal, List.mem_append]
    constructor
    · rintro (hmem | hmem)
      · exact Bool.noConfusion (hfile _ hmem)
      · simpa using hmem
    · rintro rfl
      simp
  obtain ⟨k, hk⟩ : ∃ k, contents.length / 512 + 1 = k + 3 := by
    have hlength := congrArg List.length hcontents
    simp only [List.length_append, Io.TarHeader.length_bytes] at hlength
    exact ⟨contents.length / 512 - 2, by omega⟩
  have hread := Core.read_iff (text "message.mbox") (text "metadata.ervan") x.1.body
    x.1.metadata.writes.flatten now now' k
  rw [hcontents] at hread
  rw [Archivable, ← hread, Archived]
  simp only [hclosed, forall_eq, Archive.members, hk]
  rfl

end Session

end Ervan.Smtp
