import Ervan.Smtp.Orphans

/-!
# When every operation works

A session whose operations on its spool file all work never sets its error flag: the file is
created, every line is stored and the file is completed.
-/

namespace Ervan.Smtp

/-- Everything that is asked of the environment works. -/
structure Answer.Works (a : Answer) : Prop where
  opened : a.opened = true
  written : a.written = true
  told : a.told = true
  accepted : a.fsync ≠ .refused

namespace Core

/-- There is a file, and nothing has failed. -/
structure Fine (c : Core) : Prop where
  file : c.dataFile.isSome = true
  clear : c.dataError = false

variable {env : Env} {c : Core}

theorem write_works (works : ∀ n, (env n).Works) (hfile : c.dataFile.isSome = true) (data : Bytes) :
    (c.write env data).2 = true := by
  obtain ⟨f, hf⟩ := Option.isSome_iff_exists.mp hfile
  simp only [write, hf, answer, (works _).written, if_true]

theorem writeAll_works (works : ∀ n, (env n).Works) (hfile : c.dataFile.isSome = true)
    (datas : List Bytes) : (c.writeAll env datas).2 = true := by
  induction datas generalizing c with
  | nil => rfl
  | cons data datas ih =>
      have hwritten := write_works works hfile data
      have hafter : (c.write env data).1.dataFile.isSome = true :=
        (write_writes env data c).file.trans hfile
      simp only [writeAll, hwritten, Bool.not_true, Bool.false_eq_true, if_false]
      exact ih hafter

theorem syncFile_works (works : ∀ n, (env n).Works) (c : Core) : (c.syncFile env).2 = 0 :=
  if_neg (works _).accepted

namespace Fine

theorem check (h : c.Fine) (op : Core → Core × Bool) (hop : ∀ c, Writes env c (op c))
    (hok : (op c).2 = true) : (c.check op).Fine := by
  refine ⟨(check_steps op hop c).file.trans h.file, ?_⟩
  have hkept : (op c).1.dataError = c.dataError := (hop c).same Core.dataError fun _ _ _ => rfl
  simp only [Core.check, h.clear, hok, Bool.not_true, Bool.false_eq_true, if_false]
  exact hkept.trans h.clear

theorem tellg (h : c.Fine) (env : Env) : (c.tellg env).1.Fine := ⟨h.file, h.clear⟩

theorem seekg (h : c.Fine) (pos : Int) (whence : Whence) : (c.seekg pos whence).Fine :=
  ⟨Option.isSome_map.trans h.file, h.clear⟩

theorem write (h : c.Fine) (works : ∀ n, (env n).Works) (data : Bytes) :
    (c.check (·.write env data)).Fine :=
  h.check _ (fun c => write_writes env data c) (write_works works h.file data)

theorem padData (h : c.Fine) (works : ∀ n, (env n).Works) : (c.check (padData env)).Fine :=
  h.check _ (padData_writes env) (write_works works (h.tellg env).file _)

theorem finishMessage (h : c.Fine) (works : ∀ n, (env n).Works) (fileSize : Int) :
    (c.finishMessage env fileSize).Fine := by
  unfold Core.finishMessage
  have hheader := (h.seekg 0 .set).check (writeDataTarHeader env (sizeT (fileSize - 512)))
    (fun c => write_writes env _ c) (write_works works (h.seekg 0 .set).file _)
  exact (hheader.seekg 0 .end).padData works

theorem finishMetadata (h : c.Fine) (works : ∀ n, (env n).Works) : (c.finishMetadata env).Fine := by
  unfold Core.finishMetadata
  have hspace := (h.tellg env).write works (List.replicate 512 nul)
  have hrecord := (hspace.tellg env).check (writeMetadata env) (fun c => writeAll_writes env _ c)
    (writeAll_works works (hspace.tellg env).file _)
  have hback := (hrecord.tellg env).seekg (c.tellg env).2 .set
  have hheader (length : Nat) := hback.check (writeMetadataTarHeader env length)
    (fun c => write_writes env _ c) (write_works works hback.file _)
  exact ((hheader _).seekg 0 .end).padData works

end Fine

/-- The end of the data leaves no error behind. -/
theorem endData_works (h : c.Fine) (works : ∀ n, (env n).Works) :
    (c.endData env).dataError = false := by
  have haborted (c₁ : Core) (hclear : c₁.dataError = false) :
      (c₁.abortData env).dataError = false := by rwa [abortData_eq]
  unfold endData
  split
  · have hmessage := (h.tellg env).finishMessage works (c.tellg env).2
    have hmetadata := hmessage.finishMetadata works
    unfold finishData
    simp only [hmessage.clear, hmetadata.clear, Bool.false_eq_true, if_false, syncFile_works works,
      ne_eq, not_true_eq_false]
    split
    · exact haborted _ h.clear
    · exact hmetadata.clear
  · exact haborted c h.clear

theorem store_works (h : c.Fine) (works : ∀ n, (env n).Works) (line : Bytes) :
    (c.store env line).Fine := by
  have hmeasured : (c.measureLine (unstuff line).length).Fine := by
    rw [measureLine_eq]
    exact ⟨h.file, h.clear⟩
  refine ⟨(store_steps env line c).file.trans hmeasured.file, ?_⟩
  have hok := write_works works hmeasured.file (unstuff line ++ crlf)
  unfold store
  dsimp only
  split
  · exact hmeasured.clear
  · simp only [hok, Bool.not_true, Bool.false_eq_true, if_false]
    exact ((write_writes env _ _).same Core.dataError fun _ _ _ => rfl).trans hmeasured.clear

theorem openFiles_works (works : ∀ n, (env n).Works) (c : Core) : (c.openFiles env).2 = true :=
  openFiles_succeeds (works _).opened fun _ _ => (works _).written

end Core

end Ervan.Smtp
