import Ervan.Common.Base64Encode
import Ervan.Common.Framed
import Ervan.Common.Printable
import Ervan.Smtp.Invariant

/-!
# The record of an envelope

The record that `write_to` adds to a file has no escapes. What a session puts into an envelope
has passed a parser, so that no entry contains a CR, and the record can be read back line by line.
-/

namespace Ervan

open Parse

section Lines

theorem Parse.Printable.clear {bs : Bytes} (h : Printable bs) : cr ∉ bs := by
  intro hcr
  exact absurd (h cr hcr) (by decide)

end Lines

namespace Metadata

/-- What `write_to` adds to a file. -/
def record (md : Metadata) : Bytes := md.writes.flatten

/-- The envelope, in the order of the record. -/
def entries (md : Metadata) : List Bytes := md.from_ :: md.reversePath :: md.forwardPaths

/-- What a session keeps in its envelope. -/
structure Clean (md : Metadata) : Prop where
  lineA : md.lineA.length = 32
  lineB : md.lineB.length = 32
  lineC : md.lineC.length = 32
  lineD : md.lineD.length = 32
  from_ : Printable md.from_
  reverse : Printable md.reversePath ∧ md.reversePath.length ≤ mailboxMaxSize
  forward : ∀ p ∈ md.forwardPaths, Printable p ∧ p.length ≤ mailboxMaxSize

variable {md md' : Metadata}

theorem record_eq (md : Metadata) : md.record = md.head ++ md.entries.flatMap (· ++ crlf) := by
  have hpaths : (md.forwardPaths.flatMap fun path => [path, crlf]).flatten =
      md.forwardPaths.flatMap (· ++ crlf) := by
    induction md.forwardPaths with
    | nil => rfl
    | cons p paths ih =>
        rw [List.flatMap_cons, List.flatten_append, ih, List.flatMap_cons]
        simp
  simp [record, writes, entries, hpaths]

theorem Clean.empty : Clean {} :=
  ⟨rfl, rfl, rfl, rfl, .nil, ⟨.nil, Nat.zero_le _⟩, fun _ hp => absurd hp List.not_mem_nil⟩

theorem Clean.head_length (h : md.Clean) : md.head.length = 184 := by
  obtain ⟨hA, hB, hC, hD, -, -, -⟩ := h
  simp [head, length_base64Encode, hA, hB, hC, hD, crlf]

theorem Clean.clear (h : md.Clean) : ∀ l ∈ md.entries, cr ∉ l := by
  intro l hl
  rcases List.mem_cons.mp hl with rfl | hl
  · exact h.from_.clear
  · rcases List.mem_cons.mp hl with rfl | hl
    · exact h.reverse.1.clear
    · exact (h.forward l hl).1.clear

/-- Behind its 184 bytes of head the record is the list of the entries. -/
theorem Clean.split (h : md.Clean) :
    splitCrlf [] (md.record.drop 184) = (md.entries, []) := by
  rw [record_eq, ← h.head_length, List.drop_left]
  exact splitCrlf_lines h.clear

/-- Records that are equal have equal entries. -/
theorem Clean.entries_eq (h : md.Clean) (h' : md'.Clean) (heq : md.record = md'.record) :
    md.entries = md'.entries := by
  have hsplit := h.split
  rw [heq, h'.split] at hsplit
  exact (congrArg Prod.fst hsplit).symm

end Metadata

namespace Smtp

/-- The byte behind the buffer that a line was delivered in stops every parser. -/
theorem stop_of_delivers {b : CmdBuffer} {line : Bytes} (h : Delivers b cmdTerminator line) :
    printable (b.mem 510) = false := by
  rw [Buffer.mem_cap, h.window]
  split <;> rfl

namespace Core

variable {env : Env} {c c' : Core} {m : Mem} {sp : Span}

/-- A successful `write_to` adds the record to the file. -/
theorem writeMetadata_record {f : DataFile} (hf : c.dataFile = some f) (hend : f.AtEnd)
    (h : (c.writeMetadata env).2 = true) :
    ((c.writeMetadata env).1.dataFile.map DataFile.contents) =
      some (f.contents ++ c.metadata.record) := by
  unfold writeMetadata at h ⊢
  rw [writeAll_ok hf h]
  exact congrArg some (hend.writes c.metadata.writes).2

theorem ehlo_clean (env : Env) (m : Mem) (sp : Span) (h : c.metadata.Clean) :
    (c.ehlo env m sp).metadata.Clean := by
  unfold ehlo
  cases hd : domain m sp with
  | none => exact h
  | some d => exact { Metadata.Clean.empty with from_ := (domain_text hd).1 }

theorem helo_clean (env : Env) (m : Mem) (sp : Span) (h : c.metadata.Clean) :
    (c.helo env m sp).metadata.Clean := by
  unfold helo
  cases hd : domain m sp with
  | none => exact h
  | some d => exact { Metadata.Clean.empty with from_ := (domain_text hd).1 }

theorem mailPath_clean (h : c.metadata.Clean) (hstop : printable (m 510) = false)
    (hsp : sp.start < 510) : (c.mailPath m sp).metadata.Clean := by
  unfold mailPath
  cases hp : reversePath m sp with
  | none => exact h
  | some reverse =>
      dsimp only
      split
      · exact h
      · split
        · exact h
        · exact { h with
            reverse := reversePath_text hstop hsp (by decide) hp
            forward := fun _ hp => absurd hp List.not_mem_nil }

theorem rcptPath_clean (h : c.metadata.Clean) (hstop : printable (m 510) = false)
    (hsp : sp.start < 510) : (c.rcptPath m sp).metadata.Clean := by
  unfold rcptPath
  split
  · exact h
  · split
    · exact h
    · cases hp : path m sp with
      | none => exact h
      | some path =>
          refine { h with forward := fun p hmem => ?_ }
          rcases List.mem_append.mp hmem with hold | hnew
          · exact h.forward p hold
          · rw [List.mem_singleton.mp hnew]
            exact path_text hstop hsp (by decide) hp

/-- A keyword at the start of the argument is accepted into a memory that still stops. -/
theorem accept_stop {b b' : CmdBuffer} {sp' : Span} {str : Bytes}
    (hupper : str.map toupper = str) (hsp : sp.start = 5) (hroom : 5 + str.length < 510)
    (hstop : printable (b.mem 510) = false) (h : accept b sp str = (b', some sp')) :
    printable (b'.mem 510) = false ∧ sp'.start < 510 := by
  rw [accept_eq hupper (by rw [hsp]; exact Nat.le_of_lt hroom)] at h
  split at h
  · cases h
  · cases h
    rw [pokeAll_mem_outside (Or.inr (by rw [hsp]; exact Nat.le_of_lt hroom)), Span.advance_start,
      hsp]
    exact ⟨hstop, hroom⟩

theorem mail_clean {b : CmdBuffer} (h : c.metadata.Clean) (hsp : sp.start = 5)
    (hstop : printable (b.mem 510) = false) : (c.mail b sp).2.metadata.Clean := by
  unfold mail
  cases haccept : accept b sp (text "FROM:") with
  | mk b' accepted =>
      cases accepted with
      | none => exact h
      | some sp' =>
          obtain ⟨hstop', hsp'⟩ := accept_stop (by decide) hsp (by decide) hstop haccept
          exact mailPath_clean h hstop' hsp'

theorem rcpt_clean {b : CmdBuffer} (h : c.metadata.Clean) (hsp : sp.start = 5)
    (hstop : printable (b.mem 510) = false) : (c.rcpt b sp).2.metadata.Clean := by
  unfold rcpt
  cases haccept : accept b sp (text "TO:") with
  | mk b' accepted =>
      cases accepted with
      | none => exact h
      | some sp' =>
          obtain ⟨hstop', hsp'⟩ := accept_stop (by decide) hsp (by decide) hstop haccept
          exact rcptPath_clean h hstop' hsp'

theorem data_clean (h : c.metadata.Clean) : (c.data env).metadata.Clean := by
  have hsame := (openFiles_sameEnvelope env c).metadata
  unfold data
  split
  · exact h
  · dsimp only
    split
    · exact hsame ▸ h
    · exact hsame ▸ h

theorem callCommand_clean (env : Env) {b : CmdBuffer} {line : Bytes}
    (hline : Delivers b cmdTerminator line) (h : c.metadata.Clean) :
    (c.callCommand env b line.length).2.metadata.Clean := by
  have hstop : printable ((capitalised b).mem 510) = false := by
    rw [capitalised_mem (by decide)]
    exact stop_of_delivers hline
  rcases Nat.lt_or_ge line.length 4 with hshort | hlong
  · rw [callCommand_short env c hshort]
    exact h
  · rw [callCommand_dispatch env c hline hlong]
    cases verbOf line with
    | none => exact h
    | some verb =>
        cases verb with
        | ehlo => exact ehlo_clean env _ _ h
        | helo => exact helo_clean env _ _ h
        | mail => exact mail_clean h rfl hstop
        | rcpt => exact rcpt_clean h rfl hstop
        | data => exact data_clean h
        | rset => exact Metadata.Clean.empty
        | vrfy => exact h
        | noop => exact h
        | quit => exact h

end Core

namespace Session

variable {env : Env} {s : Session} {sp : Bytes}

theorem feedCmd_clean (env : Env) (sp : Bytes) (h : s.metadata.Clean) :
    (s.feedCmd env sp).1.metadata.Clean := by
  have fed := feedCmd_fed env s sp
  generalize s.feedCmd env sp = r at fed ⊢
  cases fed with
  | quiet b offset quiet window => exact h
  | gaveUp b offset hlong => exact h
  | tooLong b pre rest c eq quiet complete window => exact h
  | line b pre rest c eq quiet complete line delivers behind =>
      exact Core.callCommand_clean env delivers h

theorem dataTurn_clean (hstate : s.state = .data) (h : s.metadata.Clean) :
    (s.dataTurn env sp).1.metadata.Clean := by
  have step := dataTurn_turned env s sp False hstate
  generalize (s.dataTurn env sp).1.toCore = c' at step ⊢
  cases step with
  | idle => exact h
  | longCommand state => exact h
  | command state line c' step => exact absurd (state.symm.trans hstate) (by decide)
  | longData state => exact h
  | stored state line => exact (Core.store_sameEnvelope env line s.toCore).metadata ▸ h
  | ended state => exact (Core.endData_ended env s.toCore).eq.2.1 ▸ Metadata.Clean.empty

theorem advance_clean {x : Progress} (h : x.1.metadata.Clean) :
    (advance env x).1.metadata.Clean := by
  obtain ⟨s, chunks⟩ := x
  match chunks with
  | [] => exact h
  | [] :: chunks => exact h
  | (c :: sp) :: chunks =>
      change (s.turn env (c :: sp)).1.metadata.Clean
      cases hstate : s.state with
      | closed =>
          rw [turn, hstate]
          exact h
      | cmd =>
          rw [turn_cmd env _ hstate]
          exact feedCmd_clean env _ h
      | data =>
          rw [turn_data env _ hstate]
          exact dataTurn_clean hstate h

/-- Every envelope that a session ever has is clean. -/
theorem always_clean (env : Env) (mem : Memory) (chunks : List Bytes) :
    Run.Always (advance env) (fun x => x.1.metadata.Clean) (start env mem, chunks) := by
  apply Run.always_of_step
  · exact Metadata.Clean.empty
  · intro x h
    exact advance_clean h

/-- In every state of every run, the entries of the envelope are printable and its paths bounded,
`write_to` adds the record of the envelope to the file, the record is the list of the entries, and
no other envelope of any session has the same record. -/
theorem record_entries (env : Env) (mem : Memory) (chunks : List Bytes) (n : Nat) :
    let md := ((advance env)^[n] (start env mem, chunks)).1.metadata
    Printable md.from_ ∧
      (Printable md.reversePath ∧ md.reversePath.length ≤ 64 + 1 + 255) ∧
      (∀ p ∈ md.forwardPaths, Printable p ∧ p.length ≤ 64 + 1 + 255) ∧
      (∀ (env' : Env) (c : Core) (f : DataFile), c.metadata = md → c.dataFile = some f → f.AtEnd →
        (c.writeMetadata env').2 = true →
          (c.writeMetadata env').1.dataFile.map DataFile.contents =
            some (f.contents ++ md.record)) ∧
      md.head.length = 184 ∧
      splitCrlf [] (md.record.drop 184) =
        (md.from_ :: md.reversePath :: md.forwardPaths, []) ∧
      ∀ (env' : Env) (mem' : Memory) (chunks' : List Bytes) (n' : Nat),
        let md' := ((advance env')^[n'] (start env' mem', chunks')).1.metadata
        (md'.from_, md'.reversePath, md'.forwardPaths) ≠
          (md.from_, md.reversePath, md.forwardPaths) → md'.record ≠ md.record := by
  intro md
  have h := always_clean env mem chunks n
  refine ⟨h.from_, h.reverse, h.forward, ?_, h.head_length, h.split, ?_⟩
  · intro env' c f hmetadata hfile hend hok
    rw [Core.writeMetadata_record hfile hend hok, hmetadata]
  intro env' mem' chunks' n' md' hne heq
  have hentries := (always_clean env' mem' chunks' n').entries_eq h heq
  apply hne
  injection hentries with hfrom hrest
  injection hrest with hreverse hforward
  rw [hfrom, hreverse, hforward]

end Session

end Smtp

end Ervan
