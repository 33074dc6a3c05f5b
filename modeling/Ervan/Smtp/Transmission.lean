import Ervan.Smtp.DataPhase

/-!
# Transmission

A message that a client encodes is decoded by the session, in whatever chunks it comes:
its lines are stored if the message is within the limits, and refused otherwise.
-/

namespace Ervan.Smtp

/-- A line as a client sends it: a dot is put before a dot. -/
def stuff (line : Bytes) : Bytes := if line.head? = some 46 then 46 :: line else line

/-- A message as a client sends it. -/
def wire (lines : List Bytes) : Bytes := terminated (lines.map stuff ++ [text "."])

/-- The size of a message, a CRLF after every line included. -/
def messageSize (lines : List Bytes) : Nat := (lines.map fun line => line.length + 2).sum

/-- The limits of a message. -/
def WithinLimits (max : Nat) (lines : List Bytes) : Prop :=
  (∀ line ∈ lines, line.length ≤ 996) ∧ messageSize lines ≤ max

instance (max : Nat) (lines : List Bytes) : Decidable (WithinLimits max lines) :=
  inferInstanceAs (Decidable (_ ∧ _))

section Stuffing

variable {line : Bytes}

theorem unstuff_stuff (line : Bytes) : unstuff (stuff line) = line := by
  have htext : text ".." = [46, 46] := rfl
  rw [unstuff, htext]
  cases line with
  | nil => rfl
  | cons c rest =>
      by_cases hc : c = 46
      · subst hc
        rfl
      · have hstuff : stuff (c :: rest) = c :: rest := if_neg fun h => hc (Option.some.inj h)
        have hdots : (c :: rest).take 2 ≠ [46, 46] := fun h => hc (List.cons.inj h).1
        rw [hstuff, if_neg hdots]

/-- A line that a client sends does not end the data. -/
theorem stuff_going (line : Bytes) : ¬ EndsData (stuff line) := by
  cases line with
  | nil => decide
  | cons c rest =>
      by_cases hc : c = 46
      · subst hc
        have hstuff : stuff (46 :: rest) = 46 :: 46 :: rest := rfl
        rw [hstuff, Core.endsData_cons]
        exact fun h => absurd (show (46 : UInt8) = nul from h.2) (by decide)
      · have hstuff : stuff (c :: rest) = c :: rest := if_neg fun h => hc (Option.some.inj h)
        rw [hstuff, Core.endsData_cons]
        exact fun h => hc h.1

theorem stuff_clean (h : ¬ crlf <:+: line) : ¬ crlf <:+: stuff line := by
  unfold stuff
  split
  · rw [List.infix_cons_iff, not_or]
    exact ⟨fun hpre => absurd (List.cons_prefix_cons.mp hpre).1 (by decide), h⟩
  · exact h

theorem stuff_length (line : Bytes) :
    line.length ≤ (stuff line).length ∧ (stuff line).length ≤ line.length + 1 := by
  unfold stuff
  split <;> simp

end Stuffing

namespace Event

/-- Not a file operation that failed, nor a position that is not known. -/
def faultless : Event → Bool
  | .tell pos => 0 ≤ pos
  | e => e.succeeded

theorem succeeded_of_faultless {e : Event} (h : e.faultless = true) : e.succeeded = true := by
  cases e with
  | tell pos => rfl
  | _ => exact h

end Event

namespace Core

variable {env : Env} {c : Core} {line : Bytes}

/-- A line that a client sends is stored, or does not fit the buffer. -/
theorem received_stuff (env : Env) (line : Bytes) (c : Core) :
    c.received env (stuff line) = if (stuff line).length ≤ 1022 then c.store env (stuff line)
      else { c with lineTooLong := true } := by
  unfold received
  split
  · exact if_neg (stuff_going line)
  · rfl

/-- The two flags after a line, and the members that it leaves alone. -/
structure Measured (n : Nat) (c c' : Core) : Prop where
  line : c'.lineTooLong = (c.lineTooLong || decide (996 < n))
  bound : c'.dataSize ≤ c.dataSize + (n + 2)
  size : c'.lineTooLong = false → c'.dataSize = (c.dataSize + (n + 2)) % 2 ^ 64 ∧
    c'.dataTooLong = (c.dataTooLong || decide (c.maxDataSize < (c.dataSize + (n + 2)) % 2 ^ 64))
  max : c'.maxDataSize = c.maxDataSize
  path : c'.dataPath = c.dataPath
  log : ∃ es, c'.log = c.log ++ es ∧ (∀ e ∈ es, e.isFile = true) ∧
    (c'.dataError = false ↔ c.dataError = false ∧ ∀ e ∈ es, e.succeeded = true)

theorem received_measured (env : Env) (line : Bytes) (c : Core) :
    Measured line.length c (c.received env (stuff line)) := by
  rw [received_stuff]
  split
  · have h := store_steps env (stuff line) c
    rw [unstuff_stuff] at h
    obtain ⟨es, hlog, hfile, hclear⟩ := h.log
    rw [measureLine_eq] at hclear
    refine ⟨?_, ?_, fun _ => ⟨?_, ?_⟩, ?_, ?_, es, ?_, hfile, hclear⟩
    · rw [h.same Core.lineTooLong fun _ _ _ _ => rfl, measureLine_eq]
    · rw [h.same Core.dataSize fun _ _ _ _ => rfl, measureLine_eq]
      exact Nat.mod_le _ _
    · rw [h.same Core.dataSize fun _ _ _ _ => rfl, measureLine_eq]
    · rw [h.same Core.dataTooLong fun _ _ _ _ => rfl, measureLine_eq]
    · rw [h.same Core.maxDataSize fun _ _ _ _ => rfl, measureLine_eq]
    · rw [h.same Core.dataPath fun _ _ _ _ => rfl, measureLine_eq]
    · rw [hlog, measureLine_eq]
  · have hlength := (stuff_length line).2
    have hlong : decide (996 < line.length) = true := decide_eq_true (by omega)
    exact ⟨by rw [hlong, Bool.or_true], Nat.le_add_right _ _, (fun h => nomatch h), rfl, rfl, [],
      (List.append_nil c.log).symm, (fun e he => nomatch he), by simp⟩

/-- A line within the limits is stored when no error comes of it. -/
theorem received_stored (hline : c.lineTooLong = false) (hdata : c.dataTooLong = false)
    (herror : (c.received env (stuff line)).dataError = false) {f : DataFile}
    (hfile : c.dataFile = some f) (hshort : line.length ≤ 996)
    (hsize : c.dataSize + (line.length + 2) ≤ c.maxDataSize)
    (hrange : c.dataSize + (line.length + 2) < 2 ^ 64) :
    c.received env (stuff line) =
      { c with
        dataSize := c.dataSize + (line.length + 2)
        dataFile := some (f.write (line ++ crlf))
        log := c.log ++ [.write (line ++ crlf) true] } := by
  have hlength := (stuff_length line).2
  have hmeasured : c.measureLine line.length =
      { c with dataSize := c.dataSize + (line.length + 2) } := by
    rw [measureLine_eq, Nat.mod_eq_of_lt hrange, decide_eq_false (Nat.not_lt.mpr hshort),
      decide_eq_false (Nat.not_lt.mpr hsize), Bool.or_false, Bool.or_false]
  have hstore : c.received env (stuff line) =
      ({ c with dataSize := c.dataSize + (line.length + 2) } : Core).check fun c =>
        c.write env (line ++ crlf) := by
    rw [← unstuff_stuff line] at hmeasured
    rw [received_stuff, if_pos (by omega), store_check (by rw [hmeasured]; exact hline)
      (by rw [hmeasured]; exact hdata), hmeasured, unstuff_stuff]
  rw [hstore] at herror ⊢
  obtain ⟨-, hcheck, hok⟩ := check_ok _ (fun c => write_writes env _ c) herror
  exact hcheck.trans (write_ok (f := f) (by exact hfile) hok)

/-- The lines of a message that are received in turn. -/
def receivedAll (env : Env) (lines : List Bytes) (c : Core) : Core :=
  (lines.map stuff).foldl (fun c line => c.received env line) c

@[simp] theorem receivedAll_cons (line : Bytes) (lines : List Bytes) :
    c.receivedAll env (line :: lines) = (c.received env (stuff line)).receivedAll env lines := rfl

/-- The lines of a message add to the file, or to the errors, and to nothing else that is
answered. -/
theorem receivedAll_log (env : Env) (lines : List Bytes) (c : Core) :
    (∃ es, (c.receivedAll env lines).log = c.log ++ es ∧ (∀ e ∈ es, e.isFile = true) ∧
      ((c.receivedAll env lines).dataError = false ↔
        c.dataError = false ∧ ∀ e ∈ es, e.succeeded = true)) ∧
      (c.receivedAll env lines).dataPath = c.dataPath := by
  induction lines generalizing c with
  | nil =>
      exact ⟨⟨[], (List.append_nil c.log).symm, (fun e he => nomatch he), by simp [receivedAll]⟩,
        rfl⟩
  | cons line lines ih =>
      have h := received_measured env line c
      obtain ⟨es, hlog, hfile, hclear⟩ := h.log
      obtain ⟨⟨es', hlog', hfile', hclear'⟩, hpath⟩ := ih (c.received env (stuff line))
      rw [receivedAll_cons]
      refine ⟨⟨es ++ es', by rw [hlog', hlog, List.append_assoc], fun e he => ?_, ?_⟩,
        hpath.trans h.path⟩
      · exact (List.mem_append.mp he).elim (hfile e) (hfile' e)
      · rw [hclear', hclear, List.forall_mem_append, and_assoc]

/-- All lines of a message within the limits are stored when no error comes of them. -/
theorem receivedAll_stored {lines : List Bytes} (hline : c.lineTooLong = false)
    (hdata : c.dataTooLong = false) (herror : (c.receivedAll env lines).dataError = false)
    {f : DataFile} (hfile : c.dataFile = some f) (hshort : ∀ line ∈ lines, line.length ≤ 996)
    (hsize : c.dataSize + messageSize lines ≤ c.maxDataSize)
    (hrange : c.dataSize + messageSize lines < 2 ^ 64) :
    c.receivedAll env lines =
      { c with
        dataSize := c.dataSize + messageSize lines
        dataFile := some ((lines.map (· ++ crlf)).foldl DataFile.write f)
        log := c.log ++ lines.map fun line => .write (line ++ crlf) true } := by
  induction lines generalizing c f with
  | nil =>
      simp only [receivedAll, messageSize, List.map_nil, List.foldl_nil, List.sum_nil,
        Nat.add_zero, List.append_nil, ← hfile]
  | cons line lines ih =>
      have hcons : messageSize (line :: lines) = line.length + 2 + messageSize lines := by
        simp [messageSize]
      rw [hcons] at hsize hrange ⊢
      rw [receivedAll_cons] at herror ⊢
      obtain ⟨⟨es, -, -, hclear⟩, -⟩ := receivedAll_log env lines (c.received env (stuff line))
      have hfirst := (hclear.mp herror).1
      rw [received_stored hline hdata hfirst hfile (hshort line List.mem_cons_self) (by omega)
        (by omega)] at herror ⊢
      have hrest := ih (c := { c with
          dataSize := c.dataSize + (line.length + 2)
          dataFile := some (f.write (line ++ crlf))
          log := c.log ++ [.write (line ++ crlf) true] }) hline hdata herror rfl
        (fun line hline => hshort line (List.mem_cons_of_mem _ hline))
        (by simp only; omega) (by simp only; omega)
      rw [hrest]
      simp [Nat.add_assoc]

/-- When no flag is set after the lines, the message is within the limits. -/
theorem receivedAll_limits {lines : List Bytes}
    (hrange : c.dataSize + messageSize lines < 2 ^ 64)
    (hline : (c.receivedAll env lines).lineTooLong = false)
    (hdata : (c.receivedAll env lines).dataTooLong = false) :
    c.lineTooLong = false ∧ c.dataTooLong = false ∧ (∀ line ∈ lines, line.length ≤ 996) ∧
      (lines ≠ [] → c.dataSize + messageSize lines ≤ c.maxDataSize) := by
  induction lines generalizing c with
  | nil => exact ⟨hline, hdata, (fun line hline => nomatch hline), fun h => absurd rfl h⟩
  | cons line lines ih =>
      have hcons : messageSize (line :: lines) = line.length + 2 + messageSize lines := by
        simp [messageSize]
      have h := received_measured env line c
      have hbound := h.bound
      rw [hcons] at hrange ⊢
      rw [receivedAll_cons] at hline hdata
      obtain ⟨hline', hdata', hshort, hsize⟩ := ih (by omega) hline hdata
      obtain ⟨hdataSize, hflag⟩ := h.size hline'
      rw [Nat.mod_eq_of_lt (by omega)] at hdataSize hflag
      rw [h.line] at hline'
      rw [hflag] at hdata'
      simp only [Bool.or_eq_false_iff, decide_eq_false_iff_not, Nat.not_lt] at hline' hdata'
      refine ⟨hline'.1, hdata'.1, fun line' hline'' => ?_, fun _ => ?_⟩
      · rcases List.mem_cons.mp hline'' with rfl | hrest
        · exact hline'.2
        · exact hshort line' hrest
      · by_cases hlines : lines = []
        · rw [hlines]
          exact hdata'.2
        · have hrest := hsize hlines
          rw [hdataSize, h.max] at hrest
          omega

/-- A message with a flag set is refused. -/
theorem endData_refused (env : Env) (h : c.lineTooLong = true ∨ c.dataTooLong = true) :
    ∃ r, (c.endData env).log = c.log ++ [.unlink c.dataPath, .truncate, .close [], .reply r] ∧
      (r = .exceededStorage ∨ r = .exceededLine) := by
  have habort : c.endData env = c.abortData env := by
    unfold endData
    rcases h with h | h <;> simp [h]
  rw [habort, abortData_log]
  cases hdata : c.dataTooLong with
  | true => exact ⟨.exceededStorage, by simp [abortReply, hdata], Or.inl rfl⟩
  | false =>
      have hline := h.resolve_right (by rw [hdata]; decide)
      exact ⟨.exceededLine, by simp [abortReply, hdata, hline], Or.inr rfl⟩

/-- A message without a flag and without an error is answered with 250 when all operations
succeed. -/
theorem endData_accepted (hline : c.lineTooLong = false) (hdata : c.dataTooLong = false)
    (herror : c.dataError = false) {es : List Event} (hlog : (c.endData env).log = c.log ++ es)
    (hgood : ∀ e ∈ es, e.faultless = true) : replies es = [.ok] := by
  have hended := endData_ended env c
  generalize c.endData env = c' at hended hlog
  cases hended with
  | tooLong h => simp [hline, hdata] at h
  | finished short small _ h =>
      cases h with
      | unknown h =>
          have htell : (c.tellg env).1.log = c.log ++ [.tell (c.tellg env).2] := rfl
          rw [abortData_log, htell, List.append_assoc] at hlog
          have hknown := hgood (.tell (c.tellg env).2) (by simp [← List.append_cancel_left hlog])
          simp only [Event.faultless, decide_eq_true_eq] at hknown
          omega
      | failed known c₁ h error =>
          obtain ⟨es₁, hlog₁, -, hclear⟩ := h.log
          rw [abortData_log, hlog₁, List.append_assoc] at hlog
          rw [← List.append_cancel_left hlog] at hgood
          rw [hclear.mpr ⟨herror, fun e he =>
            Event.succeeded_of_faultless (hgood e (List.mem_append_left _ he))⟩] at error
          cases error
      | done known c₁ h clear eq accepted =>
          obtain ⟨es₁, hlog₁, hes₁⟩ := h.replies
          rw [finishReply_eq, hlog₁, List.append_assoc] at hlog
          rw [← List.append_cancel_left hlog, replies_append, hes₁]
          rfl

end Core

namespace Session

variable {env : Env} {s : Session} {lines chunks : List Bytes}

/-- A session that is ready for the lines of a message. -/
structure Ready (env : Env) (s : Session) : Prop where
  entered : Entered env s
  offset : s.lineOffset = 0
  window : s.lineBuffer.tCheck.getLast? ≠ some cr

/-- The lines that can be told apart: none contains a CRLF, and no offset overflows. -/
def Separable (lines : List Bytes) : Prop :=
  ∀ line ∈ lines, ¬ crlf <:+: line ∧ line.length < 2 ^ 31 - 2

instance (lines : List Bytes) : Decidable (Separable lines) :=
  inferInstanceAs (Decidable (∀ line ∈ lines, _))

theorem Separable.stuffed (h : Separable lines) :
    ∀ line ∈ lines.map stuff ++ [text "."], ¬ crlf <:+: line ∧ line.length + 1 < 2 ^ 31 := by
  intro line hline
  rcases List.mem_append.mp hline with hline | hline
  · obtain ⟨line, hmem, rfl⟩ := List.mem_map.mp hline
    obtain ⟨hclean, hshort⟩ := h line hmem
    have hlength := (stuff_length line).2
    exact ⟨stuff_clean hclean, by omega⟩
  · rw [List.mem_singleton.mp hline]
    decide

theorem stuffed_going (lines : List Bytes) : ∀ line ∈ lines.map stuff, ¬ EndsData line := by
  intro line hline
  obtain ⟨line, -, rfl⟩ := List.mem_map.mp hline
  exact stuff_going line

/-- Until its last byte a message leaves the session in the data state. -/
theorem Ready.feedAll_prefix (h : Ready env s) (separable : Separable lines)
    (hpre : chunks.flatten <+: wire lines) (hne : chunks.flatten ≠ wire lines) :
    (s.feedAll env chunks).state = .data := by
  obtain ⟨-, -, -, hcmd, -⟩ := h.entered.fresh
  obtain ⟨t, follows, hline, hwindow⟩ := follows_atLine h.entered.state hcmd h.offset
  obtain ⟨hcalm, hstate⟩ := Stream.bytes_prefix env hline
    (by rw [hwindow]; exact h.window) separable.stuffed (stuffed_going lines) hpre hne
  rw [(follows.feedAll env chunks hcalm).core, hstate]

/-- The lines of a message without the dot. -/
theorem Ready.feedAll_lines (h : Ready env s) (separable : Separable lines)
    (hchunks : chunks.flatten = terminated (lines.map stuff)) :
    (s.feedAll env chunks).toCore = s.receivedAll env lines := by
  obtain ⟨-, -, -, hcmd, -⟩ := h.entered.fresh
  obtain ⟨t, follows, hline, hwindow⟩ := follows_atLine h.entered.state hcmd h.offset
  obtain ⟨hcalm, hcore, -⟩ := Stream.bytes_lines env hline
    (by rw [hwindow]; exact h.window)
    (fun line hline => separable.stuffed line (List.mem_append_left _ hline)) (stuffed_going lines)
  rw [← hchunks] at hcalm hcore
  rw [(follows.feedAll env chunks hcalm).core, hcore, ← follows.core]
  rfl

/-- A whole message. -/
theorem Ready.feedAll_wire (h : Ready env s) (separable : Separable lines)
    (hchunks : chunks.flatten = wire lines) :
    (s.feedAll env chunks).toCore = (s.receivedAll env lines).endData env := by
  obtain ⟨-, -, -, hcmd, -⟩ := h.entered.fresh
  obtain ⟨t, follows, hline, hwindow⟩ := follows_atLine h.entered.state hcmd h.offset
  obtain ⟨hcalm, hcore, hatLine, hlast⟩ := Stream.bytes_lines env hline
    (by rw [hwindow]; exact h.window)
    (fun line hline => separable.stuffed line (List.mem_append_left _ hline)) (stuffed_going lines)
  have hdot := separable.stuffed (text ".") (by simp)
  have hstart (hcr : ((terminated (lines.map stuff)).foldl (Stream.byte env) t).line.window.getLast?
      = some cr) : (text ".").head? ≠ some lf := absurd hcr hlast
  have hwire : wire lines = terminated (lines.map stuff) ++ (text "." ++ crlf) := by
    simp [wire, terminated]
  have hfollows := follows.feedAll env chunks (by
    rw [hchunks, hwire, Run.along_append]
    exact ⟨hcalm, Stream.calm_line hatLine hdot.1 hstart hdot.2⟩)
  have hbytes : (wire lines).foldl (Stream.byte env) t = (text "." ++ crlf).foldl (Stream.byte env)
      ((terminated (lines.map stuff)).foldl (Stream.byte env) t) := by
    rw [hwire]
    exact List.foldl_append
  rw [hfollows.core, hchunks, hbytes, Stream.bytes_line hatLine hdot.1 hstart, hcore, ← follows.core]
  rfl

/-- All file operations between the two have succeeded. -/
def FaultFree (s s' : Session) : Prop :=
  ∀ e ∈ s'.log.drop s.log.length, e.faultless = true

theorem FaultFree.events {s s' : Session} (h : FaultFree s s') {es : List Event}
    (hlog : s'.log = s.log ++ es) : ∀ e ∈ es, e.faultless = true := by
  rw [FaultFree, hlog, List.drop_left] at h
  exact h

/-- The lines have been written one by one, and the message has been answered with 250. -/
def Accepted (s s' : Session) (lines : List Bytes) : Prop :=
  ∃ closing, s'.log = s.log ++ lines.map (fun line => .write (line ++ crlf) true) ++ closing ∧
    replies closing = [.ok]

/-- The message has been answered with 552 or 500 and its file has been removed. -/
def Refused (s s' : Session) : Prop :=
  ∃ es r, s'.log = s.log ++ es ∧ replies es = [r] ∧
    (r = .exceededStorage ∨ r = .exceededLine) ∧ Event.unlink s.dataPath ∈ es

/-- However the client's encoding of the message is cut into chunks, the data phase ends with
its last byte. With all file operations succeeding a message within the limits has by then been
added to the data file, line by line, and is accepted; any other one is refused. -/
def RoundTrip (env : Env) (s : Session) (lines : List Bytes) : Prop :=
  (∀ chunks : List Bytes, chunks.flatten <+: wire lines → chunks.flatten ≠ wire lines →
    (s.feedAll env chunks).state = .data) ∧
  (WithinLimits s.maxDataSize lines → ∀ chunks : List Bytes,
    chunks.flatten = terminated (lines.map stuff) → FaultFree s (s.feedAll env chunks) →
    (s.feedAll env chunks).dataFile.map DataFile.contents =
      s.dataFile.map fun f => f.contents ++ terminated lines) ∧
  ∀ chunks : List Bytes, chunks.flatten = wire lines →
    (s.feedAll env chunks).state = .cmd ∧
    (WithinLimits s.maxDataSize lines → FaultFree s (s.feedAll env chunks) →
      Accepted s (s.feedAll env chunks) lines) ∧
    (¬ WithinLimits s.maxDataSize lines → Refused s (s.feedAll env chunks))

/-- What is in the members when a message within the limits has been received. -/
theorem Ready.stored (h : Ready env s) (herror : (s.receivedAll env lines).dataError = false)
    (hlimits : WithinLimits s.maxDataSize lines) (hrange : messageSize lines < 2 ^ 64) :
    ∃ f, s.dataFile = some f ∧ f.AtEnd ∧ s.receivedAll env lines =
      { s.toCore with
        dataSize := messageSize lines
        dataFile := some ((lines.map (· ++ crlf)).foldl DataFile.write f)
        log := s.log ++ lines.map fun line => .write (line ++ crlf) true } := by
  obtain ⟨hsize, hline, hdata, -, f, hfile, hend⟩ := h.entered.fresh
  have hstored := Core.receivedAll_stored hline hdata herror hfile hlimits.1
    (by rw [hsize, Nat.zero_add]; exact hlimits.2) (by rw [hsize, Nat.zero_add]; exact hrange)
  rw [hsize, Nat.zero_add] at hstored
  exact ⟨f, hfile, hend, hstored⟩

/-- A message within the limits is stored in the data file. -/
theorem Ready.contents (h : Ready env s) (herror : s.dataError = false)
    (separable : Separable lines) (hlimits : WithinLimits s.maxDataSize lines)
    (hrange : messageSize lines < 2 ^ 64) (hchunks : chunks.flatten = terminated (lines.map stuff))
    (hgood : FaultFree s (s.feedAll env chunks)) :
    (s.feedAll env chunks).dataFile.map DataFile.contents =
      s.dataFile.map fun f => f.contents ++ terminated lines := by
  have hcore := h.feedAll_lines separable hchunks
  obtain ⟨⟨es, hlog, -, hclear⟩, -⟩ := Core.receivedAll_log env lines s.toCore
  have hevents := hgood.events (by rw [hcore, hlog])
  obtain ⟨f, hfile, hend, hstored⟩ := h.stored
    (hclear.mpr ⟨herror, fun e he => Event.succeeded_of_faultless (hevents e he)⟩) hlimits hrange
  rw [hcore, hstored, hfile, Option.map_some, Option.map_some,
    (hend.writes (lines.map (· ++ crlf))).2, terminated, List.flatMap_def]

/-- A message within the limits is accepted. -/
theorem Ready.accepted (h : Ready env s) (herror : s.dataError = false)
    (separable : Separable lines) (hlimits : WithinLimits s.maxDataSize lines)
    (hrange : messageSize lines < 2 ^ 64) (hchunks : chunks.flatten = wire lines)
    (hgood : FaultFree s (s.feedAll env chunks)) : Accepted s (s.feedAll env chunks) lines := by
  have hcore := h.feedAll_wire separable hchunks
  obtain ⟨⟨es, hlog, -, hclear⟩, -⟩ := Core.receivedAll_log env lines s.toCore
  obtain ⟨es', hlog', -⟩ := (Core.endData_ended env (s.receivedAll env lines)).log
  have hlog'' : (s.feedAll env chunks).log = s.log ++ (es ++ es') := by
    rw [hcore, hlog', hlog, List.append_assoc]
  have hevents := hgood.events hlog''
  obtain ⟨f, hfile, hend, hstored⟩ := h.stored (hclear.mpr ⟨herror, fun e he =>
    Event.succeeded_of_faultless (hevents e (List.mem_append_left _ he))⟩) hlimits hrange
  obtain ⟨-, hline, hdata, -⟩ := h.entered.fresh
  refine ⟨es', by rw [hcore, hlog', hstored], Core.endData_accepted ?_ ?_ ?_ hlog' fun e he =>
    hevents e (List.mem_append_right _ he)⟩
  · rw [hstored]
    exact hline
  · rw [hstored]
    exact hdata
  · rw [hstored]
    exact herror

/-- A message that is not within the limits is refused. -/
theorem Ready.refused (h : Ready env s) (separable : Separable lines)
    (hlimits : ¬ WithinLimits s.maxDataSize lines) (hrange : messageSize lines < 2 ^ 64)
    (hchunks : chunks.flatten = wire lines) : Refused s (s.feedAll env chunks) := by
  obtain ⟨hsize, hline, hdata, -⟩ := h.entered.fresh
  obtain ⟨⟨es, hlog, hfile, -⟩, hpath⟩ := Core.receivedAll_log env lines s.toCore
  have hflags : (s.receivedAll env lines).lineTooLong = true ∨
      (s.receivedAll env lines).dataTooLong = true := by
    by_contra hnone
    rw [not_or, Bool.not_eq_true, Bool.not_eq_true] at hnone
    obtain ⟨-, -, hshort, htotal⟩ := Core.receivedAll_limits
      (by rw [hsize, Nat.zero_add]; exact hrange) hnone.1 hnone.2
    refine hlimits ⟨hshort, ?_⟩
    by_cases hlines : lines = []
    · rw [hlines]
      exact Nat.zero_le _
    · have htotal := htotal hlines
      rwa [hsize, Nat.zero_add] at htotal
  obtain ⟨r, hrefused, hr⟩ := Core.endData_refused env hflags
  refine ⟨es ++ [.unlink s.dataPath, .truncate, .close [], .reply r], r, ?_, ?_, hr, by simp⟩
  · rw [h.feedAll_wire separable hchunks, hrefused, hlog, hpath, List.append_assoc]
  · rw [replies_append, replies_eq_nil fun e he => Or.inl (hfile e he)]
    rfl

/-- From every state in which DATA has just been accepted, without a pending error, every
message makes the round trip. -/
theorem round_trip (env : Env) (s : Session) (lines : List Bytes) (ready : Ready env s)
    (herror : s.dataError = false) (separable : Separable lines)
    (hrange : messageSize lines < 2 ^ 64) : RoundTrip env s lines := by
  refine ⟨fun chunks hpre hne => ready.feedAll_prefix separable hpre hne,
    fun hlimits chunks hchunks hgood =>
      ready.contents herror separable hlimits hrange hchunks hgood,
    fun chunks hchunks => ⟨?_, fun hlimits hgood =>
      ready.accepted herror separable hlimits hrange hchunks hgood, fun hlimits =>
      ready.refused separable hlimits hrange hchunks⟩⟩
  rw [ready.feedAll_wire separable hchunks]
  exact (Core.endData_ended env _).eq.1

/-- A line that starts with a dot, and an empty one. -/
theorem round_trip_dot :
    RoundTrip (fun _ => .ideal) (((start (fun _ => .ideal) .zeroed).feed (fun _ => .ideal)
      upToData).feedCmd (fun _ => .ideal) (text "DATA\r\n")).1 [text ".x", []] :=
  round_trip _ _ _
    ⟨⟨⟨_, _, by decide +kernel, rfl⟩, by decide +kernel⟩, by decide +kernel, by decide +kernel⟩
    (by decide +kernel) (by decide) (by decide)

end Session

end Ervan.Smtp
