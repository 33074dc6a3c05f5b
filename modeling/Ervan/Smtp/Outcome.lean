import Ervan.Smtp.CommandLine
import Ervan.Smtp.DataLine
import Ervan.Smtp.FileSteps

/-!
# What a line can do

The outcomes of a command line and of a data line, each with everything that is known
when it happens. What a line names (a domain, a sender, a recipient) is what the
parsers find in the bytes of that line.
-/

namespace Ervan.Smtp

open Parse

/-- The domain in the argument of EHLO or HELO. -/
def greetingOf (line : Bytes) : Option Bytes :=
  if line.length < 5 then none
  else
    (domain (Mem.ofBytes line) ⟨5, line.length - 5⟩).map fun domain =>
      (Mem.ofBytes line).read domain.body.start domain.body.len

/-- The reverse path in the argument of MAIL, behind its keyword. -/
def senderOf (line : Bytes) : Option Bytes :=
  if line.length < 10 then none
  else
    (reversePath (Mem.ofBytes line) ⟨10, line.length - 10⟩).map fun path =>
      path.mailbox.text (Mem.ofBytes line)

/-- The forward path in the argument of RCPT, behind its keyword. -/
def recipientOf (line : Bytes) : Option Bytes :=
  if line.length < 8 then none
  else
    (path (Mem.ofBytes line) ⟨8, line.length - 8⟩).map fun path =>
      path.mailbox.text (Mem.ofBytes line)

/-- A line without the dot that its sender put before it. -/
def unstuff (line : Bytes) : Bytes := if line.take 2 = text ".." then line.tail else line

/-- A line that ends the data: as a C string it is a dot. -/
def EndsData (line : Bytes) : Prop := cString line = text "."

instance (line : Bytes) : Decidable (EndsData line) := inferInstanceAs (Decidable (_ = _))

namespace Core

def greeted (env : Env) (domain : Bytes) (c : Core) : Core :=
  { c.reset env with metadata := { from_ := domain }, sessionBegun := true }

def senderSet (sender : Bytes) (c : Core) : Core :=
  { c with
    metadata := { c.metadata with reversePath := sender, forwardPaths := [] }
    reverseSet := true }

def recipientAdded (recipient : Bytes) (c : Core) : Core :=
  { c with
    metadata := { c.metadata with forwardPaths := c.metadata.forwardPaths ++ [recipient] } }

def dataEntered (c : Core) : Core :=
  { c with state := .data, dataSize := 0, dataTooLong := false, lineTooLong := false }

/-- What a command line can do. A greeting without an argument is refused if the line
was `exact`, assembled with an offset in range; a recipient is known to come from the
line if the line has an argument. -/
inductive Commanded (env : Env) (exact : Prop) (line : Bytes) (c : Core) : Core → Prop
  | refused (r : Reply) (h : r.code ≠ 250) : Commanded env exact line c (c.reply r)
  | noop (verb : verbOf line = some .noop) : Commanded env exact line c (c.reply .ok)
  | greeted (d : Bytes) (r : Reply) (code : r.code = 250)
      (verb : verbOf line = some .ehlo ∨ verbOf line = some .helo)
      (named : exact ∨ 5 ≤ line.length → greetingOf line = some d) :
      Commanded env exact line c ((c.greeted env d).reply r)
  | sender (p : Bytes) (verb : verbOf line = some .mail) (begun : c.sessionBegun = true)
      (unset : c.reverseSet = false) (named : senderOf line = some p) :
      Commanded env exact line c ((c.senderSet p).reply .ok)
  | recipient (p : Bytes) (verb : verbOf line = some .rcpt) (begun : c.sessionBegun = true)
      (room : c.metadata.forwardPaths.length < c.maxForwardPaths)
      (named : 5 ≤ line.length → recipientOf line = some p) :
      Commanded env exact line c ((c.recipientAdded p).reply .ok)
  | notOpened (verb : verbOf line = some .data) (failed : (c.openFiles env).2 = false) :
      Commanded env exact line c ((c.openFiles env).1.reply .localError)
  | entered (verb : verbOf line = some .data) (set : c.reverseSet = true)
      (recipients : c.metadata.forwardPaths ≠ []) (opened : (c.openFiles env).2 = true) :
      Commanded env exact line c ((c.openFiles env).1.dataEntered.reply .startData)
  | reset (verb : verbOf line = some .rset) :
      Commanded env exact line c ((c.reset env).reply .ok)
  | closed (verb : verbOf line = some .quit) (r : Reply) (h : r.code ≠ 250) :
      Commanded env exact line c { c.reply r with state := .closed }

section Commands

variable {env : Env} {exact : Prop} {line : Bytes} {c : Core}

/-- Only an accepted DATA leads to the data state. -/
theorem Commanded.entered_of_data {c' : Core} (h : Commanded env exact line c c')
    (before : c.state = .cmd) (after : c'.state = .data) :
    verbOf line = some .data ∧ c.reverseSet = true ∧ c.metadata.forwardPaths ≠ [] ∧
      (c.openFiles env).2 = true ∧ c' = (c.openFiles env).1.dataEntered.reply .startData := by
  have hopened : (c.openFiles env).1.state = c.state :=
    (openFiles_opened env c).same Core.state fun _ _ _ _ => rfl
  cases h with
  | refused r h => exact absurd (before.symm.trans after) (by decide)
  | noop verb => exact absurd (before.symm.trans after) (by decide)
  | greeted d r code verb named => cases after
  | sender p verb begun unset named => exact absurd (before.symm.trans after) (by decide)
  | recipient p verb begun room named => exact absurd (before.symm.trans after) (by decide)
  | notOpened verb failed =>
      exact absurd ((hopened.trans before).symm.trans after) (by decide)
  | entered verb set recipients opened => exact ⟨verb, set, recipients, opened, rfl⟩
  | reset verb => cases after
  | closed verb r h => cases after

theorem ehlo_commanded {m : Mem} {sp : Span} (verb : verbOf line = some .ehlo)
    (named : ∀ d, domain m sp = some d → exact ∨ 5 ≤ line.length →
      greetingOf line = some (m.read d.body.start d.body.len)) :
    Commanded env exact line c (c.ehlo env m sp) := by
  unfold ehlo
  cases hd : domain m sp with
  | none => exact .refused _ (by decide)
  | some d => exact .greeted _ _ rfl (Or.inl verb) (named d hd)

theorem helo_commanded {m : Mem} {sp : Span} (verb : verbOf line = some .helo)
    (named : ∀ d, domain m sp = some d → exact ∨ 5 ≤ line.length →
      greetingOf line = some (m.read d.body.start d.body.len)) :
    Commanded env exact line c (c.helo env m sp) := by
  unfold helo
  cases hd : domain m sp with
  | none => exact .refused _ (by decide)
  | some d => exact .greeted _ _ rfl (Or.inr verb) (named d hd)

theorem mailPath_commanded {m : Mem} {sp : Span} (verb : verbOf line = some .mail)
    (named : ∀ p, reversePath m sp = some p → senderOf line = some (p.mailbox.text m)) :
    Commanded env exact line c (c.mailPath m sp) := by
  unfold mailPath
  cases hp : reversePath m sp with
  | none => exact .refused _ (by decide)
  | some p =>
      simp only
      split
      · exact .refused _ (by decide)
      · rename_i hseq
        simp only [Bool.or_eq_true, Bool.not_eq_true', not_or, Bool.not_eq_true,
          Bool.not_eq_false] at hseq
        split
        · exact .refused _ (by decide)
        · exact .sender _ verb hseq.2 hseq.1 (named p hp)

theorem rcptPath_commanded {m : Mem} {sp : Span} (verb : verbOf line = some .rcpt)
    (named : ∀ p, path m sp = some p → 5 ≤ line.length →
      recipientOf line = some (p.mailbox.text m)) :
    Commanded env exact line c (c.rcptPath m sp) := by
  unfold rcptPath
  split
  · exact .refused _ (by decide)
  · rename_i hbegun
    split
    · exact .refused _ (by decide)
    · rename_i hroom
      cases hp : path m sp with
      | none => exact .refused _ (by decide)
      | some p =>
          exact .recipient _ verb (by simpa using hbegun) (Nat.lt_of_not_le hroom) (named p hp)

theorem data_commanded (verb : verbOf line = some .data) :
    Commanded env exact line c (c.data env) := by
  unfold data
  split
  · exact .refused _ (by decide)
  · rename_i hseq
    simp only [Bool.or_eq_true, Bool.not_eq_true', not_or, Bool.not_eq_false, beq_iff_eq,
      List.length_eq_zero_iff] at hseq
    by_cases hopened : (c.openFiles env).2 = true
    · simp only [hopened, Bool.not_true, Bool.false_eq_true, if_false]
      exact .entered verb hseq.1 hseq.2 hopened
    · simp only [hopened, Bool.not_false, if_true]
      exact .notOpened verb (by simpa using hopened)

/-- A line with an argument. -/
theorem command_commanded (hlen : 5 ≤ line.length) :
    Commanded env exact line c (c.command env line) := by
  unfold command
  cases hverb : verbOf line with
  | none => exact .refused _ (by decide)
  | some verb =>
      cases verb with
      | ehlo =>
          simp only [if_neg (Nat.not_lt.mpr hlen)]
          refine ehlo_commanded hverb fun d hd _ => ?_
          rw [greetingOf, if_neg (Nat.not_lt.mpr hlen), hd, Option.map_some]
      | helo =>
          simp only [if_neg (Nat.not_lt.mpr hlen)]
          refine helo_commanded hverb fun d hd _ => ?_
          rw [greetingOf, if_neg (Nat.not_lt.mpr hlen), hd, Option.map_some]
      | mail =>
          by_cases hshort : line.length < 10
          · simp only [if_pos (And.intro hlen hshort)]
            exact .refused _ (by decide)
          · simp only [if_neg (show ¬ (5 ≤ line.length ∧ line.length < 10) by omega)]
            refine mailPath_commanded hverb fun p hp => ?_
            rw [senderOf, if_neg hshort, hp, Option.map_some]
      | rcpt =>
          by_cases hshort : line.length < 8
          · simp only [if_pos (And.intro hlen hshort)]
            exact .refused _ (by decide)
          · simp only [if_neg (show ¬ (5 ≤ line.length ∧ line.length < 8) by omega)]
            refine rcptPath_commanded hverb fun p hp _ => ?_
            rw [recipientOf, if_neg hshort, hp, Option.map_some]
      | data => exact data_commanded hverb
      | rset => exact .reset hverb
      | vrfy => exact .refused _ (by decide)
      | noop => exact .noop hverb
      | quit => exact .closed hverb _ (by simp [Reply.quit])

theorem callCommand_commanded (env : Env) (exact : Prop) {b : CmdBuffer}
    (h : Delivers b cmdTerminator line)
    (hlf : exact → line.length + 2 ≤ 510 → b.mem (line.length + 1) = lf) :
    Commanded env exact line c (c.callCommand env b line.length).2 := by
  rcases Nat.lt_trichotomy line.length 4 with hlt | hlen | hgt
  · rw [callCommand_short env c hlt]
    exact .refused _ (by decide)
  · have hdomain (hexact : exact ∨ 5 ≤ line.length) :
        domain (capitalised b).mem ⟨5, 2 ^ 64 - 1⟩ = none := by
      have hexact := hexact.resolve_right (by omega)
      refine domain_bare (n := 2 ^ 64 - 2) ?_
      rw [capitalised_mem (Nat.le_refl 5), ← hlf hexact (by omega), hlen]
    cases hverb : verbOf line with
    | none =>
        rw [callCommand_dispatch env c h (by omega), hverb]
        exact .refused _ (by decide)
    | some verb =>
        cases verb with
        | mail =>
            rcases callCommand_bare_mail env c h hlen hverb with heq | ⟨-, heq⟩
            · rw [heq]
              exact .refused _ (by decide)
            · rw [heq]
              exact .refused _ (by decide)
        | rcpt =>
            rw [callCommand_bare_rcpt env c h hlen hverb]
            exact rcptPath_commanded hverb fun p hp hargument => by omega
        | ehlo =>
            rw [callCommand_dispatch env c h (by omega), hverb, hlen, bare_argument]
            refine ehlo_commanded hverb fun d hd hexact => ?_
            rw [hdomain hexact] at hd
            cases hd
        | helo =>
            rw [callCommand_dispatch env c h (by omega), hverb, hlen, bare_argument]
            refine helo_commanded hverb fun d hd hexact => ?_
            rw [hdomain hexact] at hd
            cases hd
        | data =>
            rw [callCommand_dispatch env c h (by omega), hverb]
            exact data_commanded hverb
        | rset =>
            rw [callCommand_dispatch env c h (by omega), hverb]
            exact .reset hverb
        | vrfy =>
            rw [callCommand_dispatch env c h (by omega), hverb]
            exact .refused _ (by decide)
        | noop =>
            rw [callCommand_dispatch env c h (by omega), hverb]
            exact .noop hverb
        | quit =>
            rw [callCommand_dispatch env c h (by omega), hverb]
            exact .closed hverb _ (by simp [Reply.quit])
  · rw [callCommand_argument env c h hgt]
    exact command_commanded hgt

end Commands

/-- The effect of a data line that does not end the data. -/
def store (env : Env) (line : Bytes) (c : Core) : Core :=
  let c := c.measureLine (unstuff line).length
  if c.lineTooLong || c.dataTooLong || c.dataError then c
  else
    let (c, ok) := c.write env (unstuff line ++ crlf)
    if !ok then { c with dataError := true } else c

section DataLines

variable {env : Env} {line : Bytes} {c : Core} {b : LineBuffer}

/-- The NUL behind the line is no dot, so the test for two dots sees the line alone. -/
theorem dots_iff (h : Delivers b cmdTerminator line) :
    (b.mem 0 == 46 && b.mem 1 == 46) = true ↔ line.take 2 = text ".." := by
  have htext : text ".." = [46, 46] := rfl
  rcases line with _ | ⟨x, _ | ⟨y, rest⟩⟩
  · have hzero : b.mem 0 = nul := h.nul
    simp [hzero, htext, show (nul : UInt8) ≠ 46 by decide]
  · have hone : b.mem 1 = nul := h.nul
    simp [hone, htext, show (nul : UInt8) ≠ 46 by decide]
  · have hzero : b.mem 0 = x := h.mem_eq (i := 0) (Nat.zero_le _)
    have hone : b.mem 1 = y := h.mem_eq (i := 1) (by simp)
    simp [hzero, hone, htext]

/-- The span that is stored covers the line without the dot before it. -/
theorem unstuffed_eq (h : Delivers b cmdTerminator line) :
    ∃ start, unstuffed b.mem line.length = ⟨start, (unstuff line).length⟩ ∧
      start + (unstuff line).length = line.length ∧ start ≤ 1 ∧
      b.mem.read start (unstuff line).length = unstuff line := by
  have hfits := h.fits
  have hdots := dots_iff h
  by_cases htwo : line.take 2 = text ".."
  · obtain ⟨x, tail, rfl⟩ : ∃ x tail, line = x :: tail := by
      cases line with
      | nil => cases htwo
      | cons x tail => exact ⟨x, tail, rfl⟩
    have hread := h.read
    have hlen := Span.advance_len (s := ⟨0, (x :: tail).length⟩) (n := 1) (by simp)
      (by simp only; omega)
    refine ⟨1, ?_, ?_, Nat.le_refl 1, ?_⟩
    · rw [unstuffed, if_pos (hdots.mpr htwo), unstuff, if_pos htwo]
      exact congrArg (Span.mk 1) hlen
    · rw [unstuff, if_pos htwo]
      simp [Nat.add_comm]
    · rw [unstuff, if_pos htwo, List.tail_cons]
      rw [List.length_cons, Mem.read_succ, List.cons.injEq] at hread
      exact hread.2
  · refine ⟨0, ?_, ?_, Nat.zero_le 1, ?_⟩
    · rw [unstuffed, if_neg (mt hdots.mp htwo), unstuff, if_neg htwo]
    · rw [unstuff, if_neg htwo, Nat.zero_add]
    · rw [unstuff, if_neg htwo]
      exact h.read

/-- The line in the buffer with its CRLF and a NUL written behind it. -/
theorem stored_read (b : LineBuffer) {start n : Nat} (h : start + n + 2 < 1022) :
    let b' := ((b.poke (start + n) cr).poke (start + n + 1) lf).poke (start + n + 2) nul
    b'.mem.read start (n + 2) = b.mem.read start n ++ crlf ∧ b'.tCheck = b.tCheck := by
  refine ⟨?_, ?_⟩
  · have hcr : (((b.poke (start + n) cr).poke (start + n + 1) lf).poke
        (start + n + 2) nul).mem (start + n) = cr := by
      rw [Buffer.mem_poke_ne _ _ (by omega), Buffer.mem_poke_ne _ _ (by omega),
        Buffer.mem_poke_self _ _ (by omega)]
    have hlf : (((b.poke (start + n) cr).poke (start + n + 1) lf).poke
        (start + n + 2) nul).mem (start + n + 1) = lf := by
      rw [Buffer.mem_poke_ne _ _ (by omega), Buffer.mem_poke_self _ _ (by omega)]
    rw [Mem.read_add]
    congr 1
    · refine Mem.read_congr fun i _ hi => ?_
      rw [Buffer.mem_poke_ne _ _ (by omega), Buffer.mem_poke_ne _ _ (by omega),
        Buffer.mem_poke_ne _ _ (by omega)]
    · rw [Mem.read_succ, Mem.read_succ, hcr, hlf]
      rfl
  · rw [Buffer.poke_tCheck _ _ (by omega), Buffer.poke_tCheck _ _ (by omega),
      Buffer.poke_tCheck _ _ (by omega)]

/-- The flags of `measureLine` are only ever set. -/
theorem measureLine_eq (n : Nat) (c : Core) :
    c.measureLine n =
      { c with
        dataSize := (c.dataSize + (n + 2)) % 2 ^ 64
        lineTooLong := c.lineTooLong || decide (996 < n)
        dataTooLong := c.dataTooLong ||
          decide (c.maxDataSize < (c.dataSize + (n + 2)) % 2 ^ 64) } := by
  have hmax : Rfc5322.maxLineLength - 2 = 996 := rfl
  simp only [measureLine, hmax, gt_iff_lt]
  by_cases hline : 996 < n
  · by_cases hdata : c.maxDataSize < (c.dataSize + (n + 2)) % 2 ^ 64
    · simp only [hline, hdata, if_true, decide_true, Bool.or_true]
    · simp only [hline, hdata, if_true, if_false, decide_true, Bool.or_true, decide_false,
        Bool.or_false]
  · by_cases hdata : c.maxDataSize < (c.dataSize + (n + 2)) % 2 ^ 64
    · simp only [hline, hdata, if_true, if_false, decide_true, Bool.or_true, decide_false,
        Bool.or_false]
    · simp only [hline, hdata, if_false, decide_false, Bool.or_false]

/-- What is stored is a function of the line, and the match window is left alone. -/
theorem storeLine_eq (env : Env) (c : Core) (h : Delivers b cmdTerminator line) :
    (c.storeLine env b line.length).2 = c.store env line ∧
      (c.storeLine env b line.length).1.tCheck = b.tCheck := by
  obtain ⟨start, hspan, htotal, hstart, hread⟩ := unstuffed_eq h
  simp only [storeLine, store, hspan]
  by_cases hskip : ((c.measureLine (unstuff line).length).lineTooLong ||
      (c.measureLine (unstuff line).length).dataTooLong ||
      (c.measureLine (unstuff line).length).dataError) = true
  · simp only [if_pos hskip, and_self]
  · simp only [if_neg hskip]
    simp only [Bool.or_eq_true, not_or, Bool.not_eq_true] at hskip
    have hshort := hskip.1.1
    rw [measureLine_eq] at hshort
    simp only [Bool.or_eq_false_iff, decide_eq_false_iff_not] at hshort
    have hroom : start + (unstuff line).length + 2 < 1022 := by omega
    obtain ⟨hstored, hwindow⟩ := stored_read b hroom
    rw [hread] at hstored
    rw [hstored]
    exact ⟨rfl, hwindow⟩

theorem endsData_cons (x : UInt8) (rest : Bytes) :
    EndsData (x :: rest) ↔ x = 46 ∧ rest.getD 0 nul = nul := by
  have htext : text "." = [46] := rfl
  have hdot : ((46 : UInt8) != nul) = true := rfl
  have hne : (nul : UInt8) ≠ 46 := by decide
  rw [EndsData, cString, htext]
  by_cases hx : x = 46
  · subst hx
    cases rest with
    | nil => simp [hdot]
    | cons y rest => by_cases hy : y = nul <;> simp [hdot, hy]
  · by_cases hnul : x = nul <;> simp [hx, hnul, hne]

/-- `strcmp` finds the dot of a line whose second byte is a NUL. -/
theorem endsData_iff (h : Delivers b cmdTerminator line) :
    b.mem.strEq 0 (text ".") = true ↔ EndsData line := by
  have hstrEq : b.mem.strEq 0 (text ".") = true ↔ b.mem 0 = 46 ∧ b.mem 1 = nul := by
    have htext : text "." = [46] := rfl
    simp [Mem.strEq, htext, Mem.read]
  rw [hstrEq]
  cases line with
  | nil =>
      have hzero : b.mem 0 = nul := h.nul
      have hne : (nul : UInt8) ≠ 46 := by decide
      simp [hzero, hne, EndsData, cString, text]
  | cons x rest =>
      have hzero : b.mem 0 = x := h.mem_eq (i := 0) (Nat.zero_le _)
      have hone : b.mem 1 = rest.getD 0 nul := h.mem_eq (i := 1) (by simp)
      rw [endsData_cons, hzero, hone]

/-- A line within the limits is written, unless there has been an error. -/
theorem store_check (hline : (c.measureLine (unstuff line).length).lineTooLong = false)
    (hdata : (c.measureLine (unstuff line).length).dataTooLong = false) :
    c.store env line = (c.measureLine (unstuff line).length).check fun c =>
      c.write env (unstuff line ++ crlf) := by
  simp only [store, check, hline, hdata, Bool.or_self, Bool.false_or]

/-- A line that is stored adds to the file, or to the errors. -/
theorem store_steps (env : Env) (line : Bytes) (c : Core) :
    Steps env (c.measureLine (unstuff line).length) (c.store env line) := by
  by_cases hlimits : (c.measureLine (unstuff line).length).lineTooLong = false ∧
      (c.measureLine (unstuff line).length).dataTooLong = false
  · rw [store_check hlimits.1 hlimits.2]
    exact check_steps _ (fun c => write_writes env _ c) _
  · have hskip : ((c.measureLine (unstuff line).length).lineTooLong ||
        (c.measureLine (unstuff line).length).dataTooLong ||
        (c.measureLine (unstuff line).length).dataError) = true := by
      by_contra hnone
      simp only [Bool.or_eq_true, not_or, Bool.not_eq_true] at hnone
      exact hlimits hnone.1
    simp only [store, if_pos hskip]
    exact Steps.refl env _

theorem store_state (env : Env) (line : Bytes) (c : Core) : (c.store env line).state = c.state := by
  rw [(store_steps env line c).same Core.state fun _ _ _ _ => rfl, measureLine_eq]

/-- The outcomes of the end of the data. -/
inductive Ended (env : Env) (c : Core) : Core → Prop
  | tooLong (h : c.lineTooLong = true ∨ c.dataTooLong = true) : Ended env c (c.abortData env)
  | finished (short : c.lineTooLong = false) (small : c.dataTooLong = false) (c' : Core)
      (h : Finished env c c') : Ended env c c'

/-- The data phase ends in the command state, with nothing of the transaction left. -/
theorem Ended.eq {c' : Core} (h : Ended env c c') :
    c'.state = .cmd ∧ c'.metadata = {} ∧ c'.reverseSet = false := by
  have haborted (c₁ : Core) : (c₁.abortData env).state = .cmd ∧
      (c₁.abortData env).metadata = {} ∧ (c₁.abortData env).reverseSet = false := by
    rw [abortData_eq]
    exact ⟨rfl, rfl, rfl⟩
  cases h with
  | tooLong h => exact haborted c
  | finished short small _ h =>
      cases h with
      | unknown h => exact haborted _
      | failed known c₁ h error => exact haborted c₁
      | done known c₁ h clear eq accepted =>
          rw [finishReply_eq]
          exact ⟨rfl, rfl, rfl⟩

theorem endData_ended (env : Env) (c : Core) : Ended env c (c.endData env) := by
  unfold endData
  cases hline : c.lineTooLong with
  | true => exact .tooLong (Or.inl hline)
  | false =>
      cases hdata : c.dataTooLong with
      | true => exact .tooLong (Or.inr hdata)
      | false => exact .finished hline hdata _ (finishData_cases env c)

end DataLines

end Core

end Ervan.Smtp
