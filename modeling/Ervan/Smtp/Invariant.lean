import Ervan.Smtp.ReplyStream
import Ervan.Smtp.Stream

/-!
# The members between two steps

The flags of a session say which parts of an envelope there are, and in the data state
the size counter says how much has been received. A command that is refused, with a code
of the 400s or 500s, leaves the envelope and its limits as they were.
-/

namespace Ervan.Smtp

open Framing

namespace Core

variable {env : Env} {exact : Prop} {line : Bytes} {c c' : Core}

/-- The envelope grows in order: greeting, sender, recipients, file. -/
structure Ordered (c : Core) : Prop where
  data : c.state = .data →
    c.reverseSet = true ∧ c.metadata.forwardPaths ≠ [] ∧ c.dataFile.isSome = true
  begun : c.reverseSet = true → c.sessionBegun = true
  unset : c.reverseSet = false → c.metadata.reversePath = []
  notBegun : c.sessionBegun = false → c.metadata.forwardPaths = []
  room : c.metadata.forwardPaths.length ≤ c.maxForwardPaths

/-- The members of the envelope, its limits and the state. -/
structure SameEnvelope (c c' : Core) : Prop where
  state : c'.state = c.state
  metadata : c'.metadata = c.metadata
  reverseSet : c'.reverseSet = c.reverseSet
  sessionBegun : c'.sessionBegun = c.sessionBegun
  maxDataSize : c'.maxDataSize = c.maxDataSize
  maxForwardPaths : c'.maxForwardPaths = c.maxForwardPaths

theorem openFiles_sameEnvelope (env : Env) (c : Core) : SameEnvelope c (c.openFiles env).1 := by
  have hopened := openFiles_opened env c
  constructor
  · exact hopened.same Core.state fun _ _ _ _ => rfl
  · exact hopened.same Core.metadata fun _ _ _ _ => rfl
  · exact hopened.same Core.reverseSet fun _ _ _ _ => rfl
  · exact hopened.same Core.sessionBegun fun _ _ _ _ => rfl
  · exact hopened.same Core.maxDataSize fun _ _ _ _ => rfl
  · exact hopened.same Core.maxForwardPaths fun _ _ _ _ => rfl

theorem store_sameEnvelope (env : Env) (line : Bytes) (c : Core) :
    SameEnvelope c (c.store env line) := by
  have hsteps := store_steps env line c
  rw [measureLine_eq] at hsteps
  constructor
  · exact hsteps.same Core.state fun _ _ _ _ => rfl
  · exact hsteps.same Core.metadata fun _ _ _ _ => rfl
  · exact hsteps.same Core.reverseSet fun _ _ _ _ => rfl
  · exact hsteps.same Core.sessionBegun fun _ _ _ _ => rfl
  · exact hsteps.same Core.maxDataSize fun _ _ _ _ => rfl
  · exact hsteps.same Core.maxForwardPaths fun _ _ _ _ => rfl

/-- The same envelope is in the same order, with a file where there was one. -/
theorem Ordered.same (h : c.Ordered) (same : SameEnvelope c c')
    (file : c'.state = .data → c'.dataFile.isSome = c.dataFile.isSome) : c'.Ordered := by
  obtain ⟨hstate, hmetadata, hreverse, hsession, -, hpaths⟩ := same
  refine ⟨fun hdata => ?_, fun hset => ?_, fun hunset => ?_, fun hbegun => ?_, ?_⟩
  · rw [file hdata, hreverse, hmetadata]
    exact h.data (hstate.symm.trans hdata)
  · rw [hsession]
    exact h.begun (hreverse.symm.trans hset)
  · rw [hmetadata]
    exact h.unset (hreverse.symm.trans hunset)
  · rw [hmetadata]
    exact h.notBegun (hsession.symm.trans hbegun)
  · rw [hmetadata, hpaths]
    exact h.room

/-- Without a sender and recipients there is nothing to be out of order. -/
theorem Ordered.cleared (hstate : c.state ≠ .data) (hreverse : c.reverseSet = false)
    (hpath : c.metadata.reversePath = []) (hpaths : c.metadata.forwardPaths = []) : c.Ordered := by
  refine ⟨fun hdata => absurd hdata hstate, fun hset => ?_, fun _ => hpath, fun _ => hpaths, ?_⟩
  · rw [hreverse] at hset
    cases hset
  · rw [hpaths]
    exact Nat.zero_le _

theorem Ordered.commanded (h : c.Ordered) (hstate : c.state = .cmd)
    (step : Commanded env exact line c c') : c'.Ordered := by
  have hcmd : c.state ≠ .data := by rw [hstate]; decide
  cases step with
  | refused r code => exact h.same ⟨rfl, rfl, rfl, rfl, rfl, rfl⟩ fun _ => rfl
  | noop verb => exact h.same ⟨rfl, rfl, rfl, rfl, rfl, rfl⟩ fun _ => rfl
  | greeted d r code verb named => exact .cleared (by decide : State.cmd ≠ .data) rfl rfl rfl
  | sender p verb begun unset named =>
      refine ⟨fun hdata => absurd hdata hcmd, fun _ => begun, fun hset => ?_, fun _ => rfl,
        Nat.zero_le _⟩
      cases hset
  | recipient p verb begun room named =>
      refine ⟨fun hdata => absurd hdata hcmd, h.begun, h.unset, fun hbegun => ?_, ?_⟩
      · exact absurd (begun.symm.trans hbegun) (by decide)
      · change (c.metadata.forwardPaths ++ [p]).length ≤ c.maxForwardPaths
        rw [List.length_append]
        exact room
  | notOpened verb failed =>
      have hsame := openFiles_sameEnvelope env c
      refine h.same ⟨hsame.state, hsame.metadata, hsame.reverseSet, hsame.sessionBegun,
        hsame.maxDataSize, hsame.maxForwardPaths⟩ fun hdata => ?_
      exact absurd (hsame.state.symm.trans hdata) hcmd
  | entered verb set recipients opened =>
      obtain ⟨-, hmetadata, hreverse, hsession, -, hpaths⟩ := openFiles_sameEnvelope env c
      obtain ⟨f, -, hfile, -⟩ := (openFiles_opened env c).file opened
      refine ⟨fun _ => ⟨?_, ?_, ?_⟩, fun _ => ?_, fun hset => ?_, fun hbegun => ?_, ?_⟩
      · exact hreverse.trans set
      · exact hmetadata.symm ▸ recipients
      · exact Option.isSome_iff_exists.mpr ⟨f, hfile⟩
      · exact hsession.trans (h.begun set)
      · exact absurd (set.symm.trans (hreverse.symm.trans hset)) (by decide)
      · exact absurd ((h.begun set).symm.trans (hsession.symm.trans hbegun)) (by decide)
      · change (c.openFiles env).1.metadata.forwardPaths.length ≤
          (c.openFiles env).1.maxForwardPaths
        rw [hmetadata, hpaths]
        exact h.room
  | reset verb => exact .cleared (by decide : State.cmd ≠ .data) rfl rfl rfl
  | closed verb r code =>
      refine ⟨fun hdata => ?_, h.begun, h.unset, h.notBegun, h.room⟩
      cases hdata

/-- The envelope stays in order. -/
theorem Ordered.turned (h : c.Ordered) (step : Turned env exact c c') : c'.Ordered := by
  cases step with
  | idle => exact h
  | longCommand state => exact h.same ⟨rfl, rfl, rfl, rfl, rfl, rfl⟩ fun _ => rfl
  | command state line _ step =>
      have hline : (c.emit (.line line)).Ordered :=
        h.same ⟨rfl, rfl, rfl, rfl, rfl, rfl⟩ fun _ => rfl
      exact hline.commanded state step
  | longData state => exact h.same ⟨rfl, rfl, rfl, rfl, rfl, rfl⟩ fun _ => rfl
  | stored state line =>
      refine h.same (store_sameEnvelope env line c) fun _ => ?_
      rw [(store_steps env line c).file, measureLine_eq]
  | ended state =>
      obtain ⟨hstate, hmetadata, hreverse⟩ := (endData_ended env c).eq
      exact .cleared (by rw [hstate]; decide) hreverse (by rw [hmetadata]) (by rw [hmetadata])

end Core

/-- What the lines take up in the message, with the CRLF of each. -/
def wireSize (lines : List Bytes) : Nat := (lines.map fun line => (unstuff line).length + 2).sum

namespace Core

variable {env : Env} {exact : Prop} {c c' : Core} {lines : List Bytes}

/-- While no limit is exceeded the size counter is in its limit, and it counts the lines as a
`size_t` does. With a limit that leaves room for one more line it counts them exactly. -/
structure Counted (c : Core) (lines : List Bytes) : Prop where
  limit : c.dataSize ≤ c.maxDataSize
  counter : c.dataSize = wireSize lines % 2 ^ 64
  total : c.maxDataSize + 998 < 2 ^ 64 → c.dataSize = wireSize lines

/-- The counter and the flags after a data line, whether it is written or not. -/
theorem store_members (env : Env) (line : Bytes) (c : Core) :
    (c.store env line).dataSize = (c.dataSize + ((unstuff line).length + 2)) % 2 ^ 64 ∧
      (c.store env line).lineTooLong = (c.lineTooLong || decide (996 < (unstuff line).length)) ∧
      (c.store env line).dataTooLong = (c.dataTooLong ||
        decide (c.maxDataSize < (c.dataSize + ((unstuff line).length + 2)) % 2 ^ 64)) := by
  have hsteps := store_steps env line c
  rw [measureLine_eq] at hsteps
  refine ⟨?_, ?_, ?_⟩
  · exact hsteps.same Core.dataSize fun _ _ _ _ => rfl
  · exact hsteps.same Core.lineTooLong fun _ _ _ _ => rfl
  · exact hsteps.same Core.dataTooLong fun _ _ _ _ => rfl

theorem Counted.store (line : Bytes)
    (h : c.lineTooLong = false → c.dataTooLong = false → c.Counted lines)
    (short : (c.store env line).lineTooLong = false)
    (small : (c.store env line).dataTooLong = false) :
    (c.store env line).Counted (lines ++ [line]) := by
  obtain ⟨hsize, hline, hdata⟩ := store_members env line c
  have hmax := (store_sameEnvelope env line c).maxDataSize
  have hwire : wireSize (lines ++ [line]) = wireSize lines + ((unstuff line).length + 2) := by
    simp [wireSize]
  rw [short, Bool.false_eq, Bool.or_eq_false_iff, decide_eq_false_iff_not] at hline
  rw [small, Bool.false_eq, Bool.or_eq_false_iff, decide_eq_false_iff_not] at hdata
  obtain ⟨hlimit, hcounter, htotal⟩ := h hline.1 hdata.1
  have hlength := hline.2
  constructor
  · rw [hsize, hmax]
    exact Nat.le_of_not_lt hdata.2
  · rw [hsize, hwire, hcounter, Nat.mod_add_mod]
  · rw [hsize, hmax, hwire]
    intro hroom
    rw [← htotal hroom]
    apply Nat.mod_eq_of_lt
    omega

end Core

/-- A limit that leaves no room for one more line. -/
def Answer.unlimited : Answer := { Answer.ideal with cfg := ⟨text "mx.example", 2 ^ 64 - 1, 100⟩ }

namespace Session

variable {env : Env} {s : Session} {sp : Bytes}

/-- The line that the loop of `feed_data` takes out of the chunk. -/
def dataReceived (s : Session) (sp : Bytes) : Option Bytes :=
  let (b, _, result) := join s.lineBuffer sp s.lineOffset cmdTerminator
  result.sp.map fun len => b.mem.read 0 len

/-- What a turn of the data phase does with the line that it receives. -/
theorem dataTurn_received (env : Env) (s : Session) (sp : Bytes) :
    match s.dataReceived sp with
    | none => (s.dataTurn env sp).1.toCore = s.toCore ∨
        (s.dataTurn env sp).1.toCore = { s.toCore with lineTooLong := true }
    | some line => (s.dataTurn env sp).1.toCore = s.toCore.dataLine env (some line) := by
  have joined := join_joined (by decide) s.lineBuffer sp s.lineOffset cmdTerminator
  unfold dataReceived dataTurn
  generalize join s.lineBuffer sp s.lineOffset cmdTerminator = r at joined ⊢
  cases joined with
  | quiet b offset quiet window => exact Or.inl rfl
  | gaveUp b offset hlong => exact Or.inl rfl
  | tooLong b pre rest c eq quiet complete window => exact Or.inr rfl
  | line b pre rest c eq quiet complete line delivers =>
      have hends := Core.endsData_iff delivers
      have hstored := (Core.storeLine_eq env s.toCore delivers).1
      simp only [Option.map_some, delivers.read, Core.dataLine]
      by_cases hdata : EndsData line
      · rw [if_pos (hends.mpr hdata), if_pos hdata]
      · rw [if_neg (mt hends.mp hdata), if_neg hdata]
        exact hstored

/-- The lines that have been received since DATA, after `n` steps of the run from `x`. -/
def dataLines (env : Env) (x : Progress) : Nat → List Bytes
  | 0 => []
  | n + 1 =>
      let (s, chunks) := (advance env)^[n] x
      if s.state = .data then
        match chunks with
        | [] => dataLines env x n
        | sp :: _ => dataLines env x n ++ (s.dataReceived sp).toList
      else []

/-- The invariant of a session that has received these lines since DATA. -/
structure Consistent (c : Core) (lines : List Bytes) : Prop where
  ordered : c.Ordered
  counted : c.state = .data → c.lineTooLong = false → c.dataTooLong = false → c.Counted lines

theorem Consistent.dataTurn {lines : List Bytes} (h : Consistent s.toCore lines)
    (hstate : s.state = .data) :
    Consistent (s.dataTurn env sp).1.toCore (lines ++ (s.dataReceived sp).toList) := by
  have hordered := h.ordered.turned (dataTurn_turned env s sp False hstate)
  have hreceived := dataTurn_received env s sp
  refine ⟨hordered, fun hdata hshort hsmall => ?_⟩
  cases hline : s.dataReceived sp with
  | none =>
      rw [hline] at hreceived
      rw [Option.toList_none, List.append_nil]
      rcases hreceived with hsame | hlong
      · rw [hsame] at hshort hsmall ⊢
        exact h.counted hstate hshort hsmall
      · rw [hlong] at hshort
        cases hshort
  | some line =>
      rw [hline] at hreceived
      rw [Option.toList_some]
      simp only [hreceived, Core.dataLine] at hdata hshort hsmall ⊢
      by_cases hends : EndsData line
      · rw [if_pos hends, (Core.endData_ended env s.toCore).eq.1] at hdata
        cases hdata
      · rw [if_neg hends] at hshort hsmall ⊢
        exact Core.Counted.store line (h.counted hstate) hshort hsmall

/-- In the data state the step before was one of it, or an accepted DATA. -/
theorem counted_entered (hstate : s.state ≠ .data) (chunks : List Bytes)
    (hdata : (advance env (s, chunks)).1.state = .data) :
    (advance env (s, chunks)).1.Counted [] := by
  have step := advance_turned env (s, chunks)
  generalize (advance env (s, chunks)).1.toCore = c' at step hdata ⊢
  cases step with
  | idle => exact absurd hdata hstate
  | longCommand state => exact absurd hdata hstate
  | command state line _ step =>
      obtain ⟨-, -, -, -, rfl⟩ := step.entered_of_data state hdata
      exact ⟨Nat.zero_le _, rfl, fun _ => rfl⟩
  | longData state => exact absurd state hstate
  | stored state line => exact absurd state hstate
  | ended state => exact absurd state hstate

theorem Consistent.step {x : Progress} {n : Nat}
    (h : Consistent ((advance env)^[n] x).1.toCore (dataLines env x n)) :
    Consistent ((advance env)^[n + 1] x).1.toCore (dataLines env x (n + 1)) := by
  rw [Function.iterate_succ_apply', dataLines]
  generalize dataLines env x n = lines at h ⊢
  generalize (advance env)^[n] x = y at h ⊢
  obtain ⟨s, chunks⟩ := y
  have hordered := h.ordered.turned (advance_turned env (s, chunks))
  by_cases hstate : s.state = .data
  · simp only [if_pos hstate]
    cases chunks with
    | nil => exact h
    | cons sp chunks =>
        cases sp with
        | nil =>
            change Consistent s.toCore (lines ++ [])
            rw [List.append_nil]
            exact h
        | cons c sp =>
            change Consistent (s.turn env (c :: sp)).1.toCore _
            rw [turn_data env (c :: sp) hstate]
            exact h.dataTurn hstate
  · simp only [if_neg hstate]
    exact ⟨hordered, fun hdata _ _ => counted_entered hstate chunks hdata⟩

/-- In every state of every run the envelope is in order, and in the data state the size
counter agrees with the lines received since DATA. -/
theorem consistent (env : Env) (mem : Memory) (chunks : List Bytes) (n : Nat) :
    Consistent ((advance env)^[n] (start env mem, chunks)).1.toCore
      (dataLines env (start env mem, chunks) n) := by
  induction n with
  | zero =>
      refine ⟨.cleared (by decide : State.cmd ≠ .data) rfl rfl rfl, fun hdata => ?_⟩
      cases hdata
  | succ n ih => exact ih.step

/-- A data phase in which the size counter never exceeds its limit. -/
structure Filling (s : Session) : Prop where
  state : s.state = .data
  offset : s.lineOffset = 0
  short : s.lineTooLong = false
  small : s.dataTooLong = false
  limit : s.maxDataSize = 2 ^ 64 - 1
  size : s.dataSize < 2 ^ 64

/-- A chunk that is an empty line. -/
theorem join_empty (b : LineBuffer) :
    ∃ b', join b crlf 0 cmdTerminator = (b', 0, ⟨some 0, [], false⟩) := by
  obtain ⟨x, y, hwindow⟩ := List.length_eq_two.mp b.tCheck_length
  have hquiet : Quiet cmdTerminator b.tCheck [cr] := by
    rw [hwindow]
    exact ⟨by rw [push_pair]; simp [cmdTerminator, text, show (cr : UInt8) ≠ 10 by decide], trivial⟩
  have hcomplete : push (slide b.tCheck [cr]) lf = cmdTerminator := by
    rw [hwindow]
    rfl
  obtain ⟨b', hjoin, -, -⟩ := join_complete (represents_empty b) [] hquiet hcomplete
    (by simp) (fun _ => by decide) (by decide) (by decide)
  exact ⟨b', hjoin⟩

theorem dataTurn_empty (env : Env) (h : s.lineOffset = 0) :
    s.dataReceived crlf = some [] ∧ (s.dataTurn env crlf).1.toCore = s.toCore.store env [] ∧
      (s.dataTurn env crlf).1.lineOffset = 0 ∧ (s.dataTurn env crlf).2.1 = [] := by
  obtain ⟨b, hjoin⟩ := join_empty s.lineBuffer
  have hreceived : s.dataReceived crlf = some [] := by
    simp only [dataReceived, h, hjoin]
    rfl
  have hturn := dataTurn_received env s crlf
  rw [hreceived] at hturn
  refine ⟨hreceived, ?_, ?_, ?_⟩
  · rw [hturn, Core.dataLine, if_neg (by decide)]
  · simp only [dataTurn, h, hjoin]
    split <;> rfl
  · rw [dataTurn_rest, h, hjoin]

theorem Filling.dataTurn (env : Env) (h : s.Filling) :
    (s.dataTurn env crlf).1.Filling ∧
      (s.dataTurn env crlf).1.dataSize = (s.dataSize + 2) % 2 ^ 64 := by
  obtain ⟨-, hcore, hoffset, -⟩ := dataTurn_empty env h.offset
  obtain ⟨hsize, hline, hdata⟩ := Core.store_members env [] s.toCore
  have hsame := Core.store_sameEnvelope env [] s.toCore
  have hmod : (s.dataSize + 2) % 2 ^ 64 < 2 ^ 64 := Nat.mod_lt _ (by decide)
  rw [← hcore] at hsize hline hdata hsame
  refine ⟨⟨hsame.state.trans h.state, hoffset, ?_, ?_, hsame.maxDataSize.trans h.limit, ?_⟩, hsize⟩
  · rw [hline, h.short]
    rfl
  · rw [hdata, h.small, h.limit]
    simp only [Bool.false_or, decide_eq_false_iff_not, Nat.not_lt]
    exact Nat.le_sub_one_of_lt hmod
  · rw [hsize]
    exact hmod

/-- Empty lines, one in a chunk, are counted as a `size_t` counts. -/
theorem Filling.run {x : Progress} {k m : Nat} (h : s.Filling)
    (hrun : (advance env)^[m] x = (s, List.replicate k crlf)) :
    ∃ s', (advance env)^[m + 2 * k] x = (s', []) ∧ s'.Filling ∧
      s'.dataSize = (s.dataSize + 2 * k) % 2 ^ 64 ∧
      wireSize (dataLines env x (m + 2 * k)) = wireSize (dataLines env x m) + 2 * k := by
  induction k generalizing s m with
  | zero => exact ⟨s, hrun, h, (Nat.mod_eq_of_lt h.size).symm, rfl⟩
  | succ k ih =>
      obtain ⟨hreceived, -, -, hrest⟩ := dataTurn_empty env h.offset
      obtain ⟨hfilling, hsize⟩ := h.dataTurn env
      rw [List.replicate_succ] at hrun
      have hfirst : (advance env)^[m + 1] x =
          ((s.dataTurn env crlf).1, [] :: List.replicate k crlf) := by
        rw [Function.iterate_succ_apply', hrun]
        change ((s.turn env crlf).1, (s.turn env crlf).2 :: List.replicate k crlf) = _
        rw [turn_data env crlf h.state, hrest]
      have hsecond : (advance env)^[m + 2] x =
          ((s.dataTurn env crlf).1, List.replicate k crlf) := by
        rw [Function.iterate_succ_apply', hfirst]
        rfl
      have hlines : wireSize (dataLines env x (m + 2)) = wireSize (dataLines env x m) + 2 := by
        have hnone : (s.dataTurn env crlf).1.dataReceived [] = none := rfl
        simp only [dataLines, hfirst, hrun, if_pos h.state, if_pos hfilling.state, hreceived,
          hnone, Option.toList_some, Option.toList_none, List.append_nil]
        simp [wireSize, unstuff]
      obtain ⟨s', hend, hfilling', hsize', hlines'⟩ := ih hfilling hsecond
      have hsteps : m + 2 * (k + 1) = m + 2 + 2 * k := by omega
      rw [hsteps]
      refine ⟨s', hend, hfilling', ?_, ?_⟩
      · rw [hsize', hsize, Nat.mod_add_mod]
        congr 1
        omega
      · rw [hlines', hlines]
        omega

/-- With no limit below the largest `size_t`, 2 ^ 63 empty lines are counted as nothing. -/
theorem not_consistent_wrapped :
    ¬ ∀ (env : Env) (mem : Memory) (chunks : List Bytes) (n : Nat),
      let c := ((advance env)^[n] (start env mem, chunks)).1.toCore
      c.Ordered ∧ (c.state = .data → c.lineTooLong = false → c.dataTooLong = false →
        c.dataSize ≤ c.maxDataSize ∧
          c.dataSize = wireSize (dataLines env (start env mem, chunks) n)) := by
  intro h
  obtain ⟨k, hk⟩ : ∃ k, 2 * k = 2 ^ 64 := ⟨2 ^ 63, by decide⟩
  have hall := h (fun _ => .unlimited) .zeroed
    ((upToData ++ text "DATA\r\n") :: List.replicate k crlf)
  have hfilling : ((start (fun _ => .unlimited) .zeroed).feed (fun _ => .unlimited)
      (upToData ++ text "DATA\r\n")).Filling := by
    constructor <;> decide +kernel
  have hzero : ((start (fun _ => .unlimited) .zeroed).feed (fun _ => .unlimited)
      (upToData ++ text "DATA\r\n")).dataSize = 0 := by
    decide +kernel
  obtain ⟨m, hm⟩ := feed_reached (fun _ => .unlimited) (start (fun _ => .unlimited) .zeroed)
    (upToData ++ text "DATA\r\n") (List.replicate k crlf)
  generalize (start (fun _ => .unlimited) .zeroed).feed (fun _ => .unlimited)
    (upToData ++ text "DATA\r\n") = s at hfilling hzero hm
  obtain ⟨s', hend, hfilling', hsize, hlines⟩ := hfilling.run hm
  have hstart := (hall m).2
  have hfinal := (hall (m + 2 * k)).2
  rw [hm] at hstart
  rw [hend] at hfinal
  have hstart := (hstart hfilling.state hfilling.short hfilling.small).2
  have hfinal := (hfinal hfilling'.state hfilling'.short hfilling'.small).2
  rw [hlines, ← hstart, hsize, hzero, hk] at hfinal
  exact absurd hfinal (by decide)

section Rejected

variable {b : CmdBuffer} {line : Bytes} {c c' : Core}

/-- A QUIT is answered with its own code. -/
theorem callCommand_quit (env : Env) (c : Core) (h : Delivers b cmdTerminator line)
    (hverb : verbOf line = some .quit) :
    (c.callCommand env b line.length).2.log =
      c.log ++ [.reply (.quit (c.answer env).cfg.hostname)] := by
  have hlen : 4 ≤ line.length := by
    by_contra hshort
    rw [verbOf, if_pos (Nat.lt_of_not_le hshort)] at hverb
    cases hverb
  rw [Core.callCommand_dispatch env c h hlen, hverb]
  rfl

/-- The refusals of a command, and everything else it may do. -/
theorem refused_sameEnvelope {exact : Prop} (h : Core.Commanded env exact line c c')
    (quit : verbOf line = some .quit → ∃ host, c'.log = c.log ++ [.reply (.quit host)]) :
    ∃ es r, c'.log = c.log ++ (es ++ [.reply r]) ∧ replies es = [] ∧
      (400 ≤ r.code → Core.SameEnvelope c c') := by
  cases h with
  | refused r code => exact ⟨[], r, rfl, rfl, fun _ => ⟨rfl, rfl, rfl, rfl, rfl, rfl⟩⟩
  | noop verb => exact ⟨[], _, rfl, rfl, fun _ => ⟨rfl, rfl, rfl, rfl, rfl, rfl⟩⟩
  | greeted d r code verb named => exact ⟨[], r, rfl, rfl, fun hcode => by omega⟩
  | sender p verb begun unset named =>
      exact ⟨[], .ok, rfl, rfl, fun hcode => absurd hcode (by decide)⟩
  | recipient p verb begun room named =>
      exact ⟨[], .ok, rfl, rfl, fun hcode => absurd hcode (by decide)⟩
  | notOpened verb failed =>
      obtain ⟨path, ok, es, hlog, hfile, -⟩ := (Core.openFiles_opened env c).log
      refine ⟨.open_ path ok :: es, .localError, ?_, ?_, fun _ => ?_⟩
      · rw [Core.reply_log, hlog]
        simp
      · exact replies_eq_nil fun e he => (List.mem_cons.mp he).elim
          (fun heq => Or.inr ⟨path, ok, heq⟩) fun he => Or.inl (hfile e he)
      · obtain ⟨hstate, hmetadata, hreverse, hsession, hsize, hpaths⟩ :=
          Core.openFiles_sameEnvelope env c
        exact ⟨hstate, hmetadata, hreverse, hsession, hsize, hpaths⟩
  | entered verb set recipients opened =>
      obtain ⟨path, ok, es, hlog, hfile, -⟩ := (Core.openFiles_opened env c).log
      refine ⟨.open_ path ok :: es, .startData, ?_, ?_, fun hcode => absurd hcode (by decide)⟩
      · rw [Core.reply_log, Core.dataEntered, hlog]
        simp
      · exact replies_eq_nil fun e he => (List.mem_cons.mp he).elim
          (fun heq => Or.inr ⟨path, ok, heq⟩) fun he => Or.inl (hfile e he)
  | reset verb => exact ⟨[], .ok, rfl, rfl, fun hcode => absurd hcode (by decide)⟩
  | closed verb r code =>
      obtain ⟨host, hlog⟩ := quit verb
      refine ⟨[], .quit host, hlog, rfl, fun hcode => absurd hcode ?_⟩
      simp [Reply.quit]

/-- A call of `feed_cmd` reads on, or it sends one reply, and a refusal changes nothing. -/
theorem feedCmd_rejected (env : Env) (s : Session) (sp : Bytes) :
    (s.feedCmd env sp).1.toCore = s.toCore ∨
      ∃ es r, (s.feedCmd env sp).1.log = s.log ++ (es ++ [.reply r]) ∧ replies es = [] ∧
        (400 ≤ r.code → Core.SameEnvelope s.toCore (s.feedCmd env sp).1.toCore) := by
  have fed := feedCmd_fed env s sp
  generalize s.feedCmd env sp = r at fed ⊢
  cases fed with
  | quiet b offset quiet window => exact Or.inl rfl
  | gaveUp b offset hlong => exact Or.inl rfl
  | tooLong b pre rest c eq quiet complete window =>
      exact Or.inr ⟨[], .exceededLine, rfl, rfl, fun _ => ⟨rfl, rfl, rfl, rfl, rfl, rfl⟩⟩
  | line b pre rest c eq quiet complete line delivers behind =>
      have hcommanded := Core.callCommand_commanded env False
        (c := s.emit (.line line)) delivers False.elim
      obtain ⟨es, r, hlog, hreplies, hsame⟩ := refused_sameEnvelope hcommanded fun hverb =>
        ⟨_, callCommand_quit env (s.emit (.line line)) delivers hverb⟩
      refine Or.inr ⟨.line line :: es, r, ?_, hreplies, fun hcode => ?_⟩
      · change ((s.emit (.line line)).callCommand env b line.length).2.log = _
        rw [hlog, Core.emit_log, List.append_assoc]
        rfl
      · obtain ⟨hstate, hmetadata, hreverse, hsession, hsize, hpaths⟩ := hsame hcode
        exact ⟨hstate, hmetadata, hreverse, hsession, hsize, hpaths⟩

end Rejected

/-- A step of the command state that sends a code of the 400s or 500s, or that sends nothing,
leaves the envelope, its limits and the state alone. -/
theorem rejected_keeps (env : Env) (x : Progress) (cmd : x.1.state = .cmd)
    (rejected : replies (events env x) = [] ∨
      ∃ r, Event.reply r ∈ events env x ∧ 400 ≤ r.code ∧ r.code < 600) :
    Core.SameEnvelope x.1.toCore (advance env x).1.toCore := by
  obtain ⟨s, _ | ⟨_ | ⟨c, sp⟩, chunks⟩⟩ := x
  · exact ⟨rfl, rfl, rfl, rfl, rfl, rfl⟩
  · exact ⟨rfl, rfl, rfl, rfl, rfl, rfl⟩
  · have hstep : (advance env (s, (c :: sp) :: chunks)).1 = (s.feedCmd env (c :: sp)).1 :=
      congrArg Prod.fst (turn_cmd env (c :: sp) cmd)
    rcases feedCmd_rejected env s (c :: sp) with hsame | ⟨es, r, hlog, hreplies, hsame⟩
    · rw [hstep, hsame]
      exact ⟨rfl, rfl, rfl, rfl, rfl, rfl⟩
    · rw [events_eq (es ++ [.reply r]) (by rw [hstep, hlog]), replies_append, hreplies] at rejected
      rw [hstep]
      apply hsame
      rcases rejected with hnone | ⟨r', hr', hcode, -⟩
      · cases hnone
      · have hmem := mem_replies.mpr hr'
        rw [replies_append, hreplies, List.nil_append, replies_reply, List.mem_singleton] at hmem
        rwa [← hmem]

/-- A MAIL before the greeting. -/
theorem rejected_keeps_early :
    Core.SameEnvelope (start (fun _ => .ideal) .zeroed).toCore
      (advance (fun _ => .ideal) (start (fun _ => .ideal) .zeroed,
        [text "MAIL FROM:<a@b>\r\n"])).1.toCore :=
  rejected_keeps (fun _ => .ideal) (start (fun _ => .ideal) .zeroed,
    [text "MAIL FROM:<a@b>\r\n"]) (by decide) (Or.inr ⟨.badSequence, by decide +kernel⟩)

end Session

end Ervan.Smtp
