import Ervan.Smtp.History

/-!
# Replies

How many replies a step sends, in the state of the session and in the bytes it has
received. In the command state a CRLF that has been received is answered once. The end
of the data is answered by what the flags say, and by nothing if no flag is set.
-/

namespace Ervan.Smtp

open Framing

/-- The replies among the events. -/
def replies (es : List Event) : List Reply :=
  es.filterMap fun e => match e with
    | .reply r => some r
    | _ => none

@[simp] theorem replies_reply (r : Reply) : replies [.reply r] = [r] := rfl

@[simp] theorem replies_append (es es' : List Event) :
    replies (es ++ es') = replies es ++ replies es' := List.filterMap_append

theorem mem_replies {es : List Event} {r : Reply} : r ∈ replies es ↔ Event.reply r ∈ es := by
  rw [replies, List.mem_filterMap]
  refine ⟨fun ⟨e, he, hr⟩ => ?_, fun h => ⟨_, h, rfl⟩⟩
  cases e with
  | reply r' => exact Option.some.inj hr ▸ he
  | _ => cases hr

theorem replies_eq_nil {es : List Event}
    (h : ∀ e ∈ es, e.isFile = true ∨ ∃ path ok, e = Event.open_ path ok) : replies es = [] := by
  refine List.filterMap_eq_nil_iff.mpr fun e he => ?_
  rcases h e he with hfile | ⟨path, ok, rfl⟩
  · cases e <;> first | rfl | cases hfile
  · rfl

namespace Core

variable {env : Env} {exact : Prop} {line : Bytes} {c c' : Core}

theorem Commanded.replies (h : Commanded env exact line c c') :
    ∃ es, c'.log = c.log ++ es ∧ (replies es).length = 1 := by
  obtain ⟨es, r, hlog, hes⟩ := h.log
  exact ⟨_, hlog, by rw [replies_append, replies_eq_nil hes, replies_reply]; rfl⟩

theorem Steps.replies (h : Steps env c c') :
    ∃ es, c'.log = c.log ++ es ∧ Smtp.replies es = [] := by
  obtain ⟨es, hlog, hfile, -⟩ := h.log
  exact ⟨es, hlog, replies_eq_nil fun e he => Or.inl (hfile e he)⟩

/-- In the data state there is a spool file. -/
def HasFile (c : Core) : Prop := c.state = .data → c.dataFile.isSome = true

theorem HasFile.turned (h : c.HasFile) (step : Turned env exact c c') : c'.HasFile := by
  intro hdata
  cases step with
  | idle => exact h hdata
  | longCommand state => exact absurd (state.symm.trans hdata) (by decide)
  | command state line _ step =>
      obtain ⟨-, -, -, hopened, rfl⟩ := step.entered_of_data state hdata
      obtain ⟨f, _, hfile, -⟩ := (openFiles_opened env (c.emit (.line line))).file hopened
      exact Option.isSome_iff_exists.mpr ⟨f, hfile⟩
  | longData state => exact h hdata
  | stored state line =>
      rw [(store_steps env line c).file, measureLine_eq]
      exact h state
  | ended state =>
      rw [(endData_ended env c).eq.1] at hdata
      cases hdata

/-- With a spool file, its position is known unless `tellg` fails. -/
theorem tellg_neg (env : Env) (h : c.dataFile.isSome = true) :
    (c.tellg env).2 < 0 ↔ (c.answer env).told = false := by
  obtain ⟨f, hf⟩ := Option.isSome_iff_exists.mp h
  simp only [tellg, hf]
  cases htold : (c.answer env).told with
  | true => simp
  | false => simp

/-- What makes the end of the data get an answer: a flag, or a position. -/
def Answerable (env : Env) (c : Core) : Prop :=
  c.lineTooLong = true ∨ c.dataTooLong = true ∨ c.dataError = true ∨ (c.answer env).told = true

instance (c : Core) : Decidable (Answerable env c) := inferInstanceAs (Decidable (_ ∨ _))

theorem abortData_replies (env : Env) (h : Steps env c c') :
    ∃ es, (c'.abortData env).log = c.log ++ es ∧
      (Smtp.replies es).length = if c'.abortReply.isSome then 1 else 0 := by
  obtain ⟨es, hlog, hes⟩ := h.replies
  refine ⟨es ++ ([.unlink c'.dataPath, .truncate, .close []] ++
    c'.abortReply.toList.map .reply), by rw [abortData_log, hlog, List.append_assoc], ?_⟩
  rw [replies_append, hes]
  cases c'.abortReply <;> simp [Smtp.replies]

/-- The number of replies to the end of the data. -/
theorem Ended.replies (h : Ended env c c') (hfile : c.dataFile.isSome = true) :
    ∃ es, c'.log = c.log ++ es ∧
      (Smtp.replies es).length = if Answerable env c then 1 else 0 := by
  have hknown := tellg_neg env hfile
  have htold (known : ¬ (c.tellg env).2 < 0) : Answerable env c :=
    Or.inr (Or.inr (Or.inr (by simpa using mt hknown.mpr known)))
  cases h with
  | tooLong h =>
      obtain ⟨es, hlog, hes⟩ := abortData_replies env (Steps.refl env c)
      have hflag : c.abortReply.isSome = true := by
        rw [abortReply_isSome]
        rcases h with h | h <;> simp [h]
      have hanswerable : Answerable env c := h.imp_right Or.inl
      rw [if_pos hflag] at hes
      exact ⟨es, hlog, by rw [hes, if_pos hanswerable]⟩
  | finished short small _ h =>
      cases h with
      | unknown h =>
          obtain ⟨es, hlog, hes⟩ := abortData_replies env (tellg_steps env c)
          have hflag : (c.tellg env).1.abortReply.isSome = c.dataError := by
            rw [abortReply_isSome]
            change (c.dataTooLong || c.lineTooLong || c.dataError) = _
            simp [short, small]
          refine ⟨es, hlog, hes.trans ?_⟩
          simp only [hflag, Answerable, short, small, hknown.mp h, Bool.false_eq_true, false_or,
            or_false]
      | failed known c₁ h error =>
          obtain ⟨es, hlog, hes⟩ := abortData_replies env h
          have hflag : c₁.abortReply.isSome = true := by simp [abortReply_isSome, error]
          rw [if_pos hflag] at hes
          exact ⟨es, hlog, by rw [hes, if_pos (htold known)]⟩
      | done known c₁ h clear eq accepted =>
          obtain ⟨es, hlog, hes⟩ := h.replies
          refine ⟨es ++ [.fsync (c₁.answer env).fsync,
            .close ((c₁.dataFile.map DataFile.contents).getD []), .reply .ok], ?_, ?_⟩
          · rw [finishReply_eq, hlog, List.append_assoc]
          · rw [replies_append, hes, if_pos (htold known)]
            rfl

end Core

namespace Session

variable {env : Env} {s : Session} {sp : Bytes}

/-- A call of `feed_cmd` reads up to a byte that completes the terminator in the match
window, and sends one reply, or reads the whole chunk in silence. -/
theorem feedCmd_replies (env : Env) (s : Session) (hsp : sp ≠ []) (hlen : sp.length ≤ 2 ^ 31) :
    ∃ pre c, sp = pre ++ c :: (s.feedCmd env sp).2 ∧
      Quiet cmdTerminator s.cmdBuffer.tCheck pre ∧
      ((push (slide s.cmdBuffer.tCheck pre) c ≠ cmdTerminator ∧
        (s.feedCmd env sp).1.toCore = s.toCore ∧
        (s.feedCmd env sp).1.cmdBuffer.tCheck = push (slide s.cmdBuffer.tCheck pre) c) ∨
      (push (slide s.cmdBuffer.tCheck pre) c = cmdTerminator ∧
        (s.feedCmd env sp).1.cmdBuffer.tCheck.getLast? = some lf ∧
        ∃ es, (s.feedCmd env sp).1.log = s.log ++ es ∧ (replies es).length = 1)) := by
  have fed := feedCmd_fed env s sp
  generalize s.feedCmd env sp = r at fed ⊢
  cases fed with
  | quiet b offset quiet window =>
      obtain ⟨pre, c, rfl⟩ := List.eq_nil_or_concat sp |>.resolve_left hsp
      rw [List.concat_eq_append] at quiet window ⊢
      rw [slide_concat] at window
      obtain ⟨hpre, hlast, -⟩ := (quiet_append pre [c]).mp quiet
      exact ⟨pre, c, rfl, hpre, Or.inl ⟨hlast, rfl, window⟩⟩
  | gaveUp b offset h => omega
  | tooLong b pre rest c eq quiet complete window =>
      refine ⟨pre, c, eq, quiet, Or.inr ⟨complete, ?_, [.reply .exceededLine], rfl, rfl⟩⟩
      exact (congrArg List.getLast? window).trans rfl
  | line b pre rest c eq quiet complete line delivers behind =>
      refine ⟨pre, c, eq, quiet, Or.inr ⟨complete, ?_, ?_⟩⟩
      · change ((s.emit (.line line)).callCommand env b line.length).1.tCheck.getLast? = _
        rw [callCommand_tCheck, delivers.window]
        split <;> rfl
      · have hcommanded := Core.callCommand_commanded env False
          (c := s.emit (.line line)) delivers False.elim
        obtain ⟨es, hlog, hes⟩ := hcommanded.replies
        refine ⟨.line line :: es, ?_, hes⟩
        change ((s.emit (.line line)).callCommand env b line.length).2.log = _
        rw [hlog, Core.emit_log, List.append_assoc]
        rfl

/-- What a run over the chunks has received when it gets to `x`. -/
def received (chunks : List Bytes) (x : Progress) : Bytes :=
  chunks.flatten.take (chunks.flatten.length - x.2.flatten.length)

/-- The step receives the end of a CRLF-terminated line. -/
def CompletesLine (env : Env) (chunks : List Bytes) (x : Progress) : Prop :=
  received chunks (advance env x) ≠ received chunks x ∧
    crlf <:+ received chunks (advance env x)

instance (chunks : List Bytes) (x : Progress) : Decidable (CompletesLine env chunks x) :=
  inferInstanceAs (Decidable (_ ∧ _))

/-- The step receives the end of the data. -/
def EndsPhase (env : Env) (x : Progress) : Prop :=
  x.1.state = .data ∧ (advance env x).1.state ≠ .data

instance (x : Progress) : Decidable (EndsPhase env x) := inferInstanceAs (Decidable (_ ∧ _))

/-- A command line and the end of the data are answered once, and nothing else is. -/
def OneReplyEach (env : Env) (chunks : List Bytes) (x : Progress) : Prop :=
  (replies (events env x)).length =
    if (x.1.state = .cmd ∧ CompletesLine env chunks x) ∨ EndsPhase env x then 1 else 0

instance (chunks : List Bytes) (x : Progress) : Decidable (OneReplyEach env chunks x) :=
  inferInstanceAs (Decidable (_ = _))

/-- A turn of the data phase is silent and stays in it, or it ends the phase at a LF. -/
theorem dataTurn_replies (env : Env) (s : Session) (sp : Bytes) (hstate : s.state = .data) :
    ((s.dataTurn env sp).1.state = .data ∧
      ∃ es, (s.dataTurn env sp).1.log = s.log ++ es ∧ replies es = []) ∨
    ((s.dataTurn env sp).1.toCore = s.endData env ∧
      ∃ pre, sp = pre ++ lf :: (s.dataTurn env sp).2.1) := by
  have fed := dataTurn_fed env s sp
  generalize s.dataTurn env sp = r at fed ⊢
  cases fed with
  | quiet b offset quiet window => exact Or.inl ⟨hstate, [], by simp, rfl⟩
  | gaveUp b offset h => exact Or.inl ⟨hstate, [], by simp, rfl⟩
  | tooLong b pre rest c eq quiet complete window =>
      exact Or.inl ⟨hstate, [], by simp, rfl⟩
  | ended b pre rest c eq quiet complete line delivers ends =>
      have hlast := getLast?_push (slide s.lineBuffer.tCheck pre) c
        (by rw [length_slide, s.lineBuffer.tCheck_length]; decide)
      rw [complete] at hlast
      cases Option.some.inj (hlast.symm.trans (rfl : cmdTerminator.getLast? = some lf))
      exact Or.inr ⟨rfl, pre, eq⟩
  | stored b b' pre rest c eq quiet complete line delivers ends window =>
      have hsteps := Core.store_steps env line s.toCore
      rw [Core.measureLine_eq] at hsteps
      exact Or.inl ⟨(Core.store_state env line s.toCore).trans hstate, hsteps.replies⟩

/-- What has been received and what has not, and how far the match window follows it. -/
structure InStep (mem : Memory) (chunks : List Bytes) (x : Progress) : Prop where
  sizes : ∀ sp ∈ x.2, sp.length ≤ 8192
  split : chunks.flatten = received chunks x ++ x.2.flatten
  hasFile : x.1.HasFile
  fresh : received chunks x = [] → x.1.state = .cmd ∧
    x.1.cmdBuffer.tCheck = mem.cmdBuffer.tCheck
  cmd : x.1.state = .cmd → received chunks x ≠ [] →
    (x.1.cmdBuffer.tCheck.getLast? = some cr ↔ (received chunks x).getLast? = some cr)
  data : x.1.state = .data → x.1.cmdBuffer.tCheck.getLast? ≠ some cr

theorem received_eq {chunks : List Bytes} {x : Progress} (done : Bytes)
    (h : chunks.flatten = done ++ x.2.flatten) : received chunks x = done := by
  have hlength := congrArg List.length h
  rw [List.length_append] at hlength
  rw [received, h, List.length_append, Nat.add_sub_cancel, List.take_left]

section Step

variable {mem : Memory} {chunks rest : List Bytes} {c : UInt8}

/-- What is received by a step that takes some bytes out of a chunk. -/
theorem InStep.received_advance (h : InStep mem chunks (s, (c :: sp) :: rest)) {taken : Bytes}
    (htaken : c :: sp = taken ++ (s.turn env (c :: sp)).2) :
    received chunks (advance env (s, (c :: sp) :: rest)) =
      received chunks (s, (c :: sp) :: rest) ++ taken := by
  refine received_eq _ ?_
  rw [h.split, List.append_assoc]
  congr 1
  simp only [advance, List.flatten_cons]
  rw [← List.append_assoc, ← htaken]

/-- A step that takes some bytes out of a chunk, and what is left to show about it. -/
theorem InStep.next (h : InStep mem chunks (s, (c :: sp) :: rest)) {taken : Bytes}
    (htaken : c :: sp = taken ++ (s.turn env (c :: sp)).2) (hne : taken ≠ [])
    (cmd : (s.turn env (c :: sp)).1.state = .cmd →
      ((s.turn env (c :: sp)).1.cmdBuffer.tCheck.getLast? = some cr ↔
        taken.getLast? = some cr))
    (data : (s.turn env (c :: sp)).1.state = .data →
      (s.turn env (c :: sp)).1.cmdBuffer.tCheck.getLast? ≠ some cr) :
    InStep mem chunks (advance env (s, (c :: sp) :: rest)) := by
  have hreceived := h.received_advance htaken
  have hlength := congrArg List.length htaken
  rw [List.length_append] at hlength
  refine ⟨?_, ?_, h.hasFile.turned (advance_turned env _), ?_, ?_, data⟩
  · intro sp' hsp'
    rcases List.mem_cons.mp hsp' with rfl | hsp'
    · have hsize := h.sizes (c :: sp) (by simp)
      omega
    · exact h.sizes sp' (List.mem_cons_of_mem _ hsp')
  · rw [hreceived, h.split, List.append_assoc]
    congr 1
    simp only [advance, List.flatten_cons]
    rw [← List.append_assoc, ← htaken]
  · rw [hreceived]
    intro hempty
    exact absurd (List.append_eq_nil_iff.mp hempty).2 hne
  · intro hstate _
    rw [hreceived, List.getLast?_append_of_ne_nil _ hne]
    exact cmd hstate

/-- A CRLF at the end of the stream is a CRLF in the match window, if the window has
followed the stream. -/
theorem crlf_suffix_iff (done xs : Bytes) {a y d : UInt8}
    (follows : xs = [] → d = lf → (y = cr ↔ done.getLast? = some cr)) :
    crlf <:+ done ++ (xs ++ [d]) ↔ push (slide [a, y] xs) d = crlf := by
  have hsuffix : crlf <:+ (done ++ xs) ++ [d] ↔ (done ++ xs).getLast? = some cr ∧ d = lf := by
    rw [crlf, ← List.singleton_suffix_iff_getLast?_eq_some]
    constructor
    · intro h
      rcases List.suffix_concat_iff.mp h with h | ⟨t, ht, hsuffix⟩
      · cases h
      · cases t with
        | nil => cases ht
        | cons x t =>
            cases t with
            | nil => cases ht; exact ⟨hsuffix, rfl⟩
            | cons z t => simp at ht
    · rintro ⟨h, rfl⟩
      exact List.suffix_concat_iff.mpr (Or.inr ⟨[cr], rfl, h⟩)
  rw [← List.append_assoc, hsuffix, push_slide_pair, crlf]
  cases xs with
  | nil =>
      simp only [List.append_nil, List.getLast_singleton, List.cons.injEq, and_true]
      constructor
      · rintro ⟨hlast, hd⟩
        exact ⟨(follows rfl hd).mpr hlast, hd⟩
      · rintro ⟨hy, hd⟩
        exact ⟨(follows rfl hd).mp hy, hd⟩
  | cons x xs =>
      rw [List.getLast_cons (List.cons_ne_nil x xs), List.getLast?_append_of_ne_nil _
        (List.cons_ne_nil x xs), List.getLast?_eq_some_getLast (List.cons_ne_nil x xs)]
      simp

/-- A step that reads commands. The one byte that is answered without a line is a LF that
comes first, on memory that happens to end in a CR. -/
theorem InStep.command (env : Env) (h : InStep mem chunks (s, (c :: sp) :: rest))
    (hstate : s.state = .cmd) :
    InStep mem chunks (advance env (s, (c :: sp) :: rest)) ∧
      (¬ (received chunks (s, (c :: sp) :: rest) = [] ∧
          s.cmdBuffer.tCheck.getLast? = some cr ∧ c = lf) →
        OneReplyEach env chunks (s, (c :: sp) :: rest)) := by
  have hsize := h.sizes (c :: sp) (by simp)
  obtain ⟨pre, d, heq, -, hcase⟩ := s.feedCmd_replies env (List.cons_ne_nil c sp) (by omega)
  rw [← turn_cmd env _ hstate] at heq hcase
  have htaken : c :: sp = (pre ++ [d]) ++ (s.turn env (c :: sp)).2 := heq.trans (by simp)
  obtain ⟨a, y, hwindow⟩ := List.length_eq_two.mp s.cmdBuffer.tCheck_length
  have hlast : (push (slide s.cmdBuffer.tCheck pre) d).getLast? = some d :=
    getLast?_push _ d (by rw [length_slide, s.cmdBuffer.tCheck_length]; decide)
  refine ⟨h.next htaken (by simp) ?_ ?_, fun hstray => ?_⟩
  · intro _
    rw [List.getLast?_concat]
    rcases hcase with ⟨-, -, hwindow'⟩ | ⟨hcomplete, hwindow', -⟩
    · rw [hwindow', hlast]
    · rw [hcomplete] at hlast
      rw [hwindow', ← hlast]
      rfl
  · intro hdata
    rcases hcase with ⟨-, hcore, -⟩ | ⟨-, hwindow', -⟩
    · rw [hcore, hstate] at hdata
      cases hdata
    · rw [hwindow']
      decide
  · have hphase : ¬ EndsPhase env (s, (c :: sp) :: rest) := fun hphase => by
      rw [EndsPhase, hstate] at hphase
      cases hphase.1
    have hcompletes : CompletesLine env chunks (s, (c :: sp) :: rest) ↔
        push (slide s.cmdBuffer.tCheck pre) d = crlf := by
      rw [CompletesLine, h.received_advance htaken, hwindow, ← crlf_suffix_iff
        (received chunks (s, (c :: sp) :: rest)) pre (a := a) (y := y) (d := d)]
      · simp
      · rintro rfl rfl
        have hc : c = lf := (List.cons.inj heq).1
        have hy : s.cmdBuffer.tCheck.getLast? = some y := by rw [hwindow]; rfl
        by_cases hdone : received chunks (s, (c :: sp) :: rest) = []
        · rw [hdone]
          have hne : y ≠ cr := fun hcr => hstray ⟨hdone, by rw [hy, hcr], hc⟩
          simp [hne]
        · rw [← h.cmd hstate hdone, hy, Option.some.injEq]
    rw [OneReplyEach]
    rcases hcase with ⟨hquiet, hcore, -⟩ | ⟨hcomplete, -, es, hlog, hes⟩
    · rw [if_neg (by rintro (⟨-, hline⟩ | hline); exacts [hquiet (hcompletes.mp hline), hphase hline])]
      rw [events_eq [] (by rw [List.append_nil]; exact congrArg Core.log hcore)]
      rfl
    · rw [if_pos (Or.inl ⟨hstate, hcompletes.mpr hcomplete⟩), events_eq (x := (s, (c :: sp) :: rest)) es hlog, hes]

/-- A step of the data phase is answered if it ends the phase and a flag is set or the
position is known. -/
theorem InStep.dataTurn (env : Env) (h : InStep mem chunks (s, (c :: sp) :: rest))
    (hstate : s.state = .data) :
    InStep mem chunks (advance env (s, (c :: sp) :: rest)) ∧
      (OneReplyEach env chunks (s, (c :: sp) :: rest) ↔
        (EndsPhase env (s, (c :: sp) :: rest) → s.Answerable env)) := by
  have hturn := turn_data env (c :: sp) hstate
  have hstep : (advance env (s, (c :: sp) :: rest)).1 = (s.dataTurn env (c :: sp)).1 :=
    congrArg Prod.fst hturn
  obtain ⟨taken, hne, htaken⟩ := s.turn_rest env (List.cons_ne_nil c sp)
  have hwindow : (s.turn env (c :: sp)).1.cmdBuffer.tCheck.getLast? ≠ some cr := by
    rw [hturn, (dataTurn_cmdBuffer env s _).1]
    exact h.data hstate
  have hone : OneReplyEach env chunks (s, (c :: sp) :: rest) ↔
      (replies (events env (s, (c :: sp) :: rest))).length =
        if EndsPhase env (s, (c :: sp) :: rest) then 1 else 0 := by
    rw [OneReplyEach]
    simp [hstate]
  rcases s.dataTurn_replies env (c :: sp) hstate with ⟨hsilent, es, hlog, hes⟩ | ⟨hended, pre, heq⟩
  · have hphase : ¬ EndsPhase env (s, (c :: sp) :: rest) := fun hphase =>
      hphase.2 (by rw [hstep]; exact hsilent)
    refine ⟨h.next htaken hne (fun hcmd => ?_) fun _ => hwindow, ?_⟩
    · rw [hturn, hsilent] at hcmd
      cases hcmd
    · rw [hone, if_neg hphase, events_eq es (by rw [hstep, hlog]), hes]
      simp [hphase]
  · have hended' := Core.endData_ended env s.toCore
    have hphase : EndsPhase env (s, (c :: sp) :: rest) := by
      refine ⟨hstate, ?_⟩
      rw [hstep, hended, hended'.eq.1]
      decide
    obtain ⟨es, hlog, hes⟩ := hended'.replies (h.hasFile hstate)
    have heq' : c :: sp = (pre ++ [lf]) ++ (s.turn env (c :: sp)).2 := by
      rw [hturn]
      exact heq.trans (by simp)
    refine ⟨h.next heq' (by simp) (fun _ => ?_) fun _ => hwindow, ?_⟩
    · rw [List.getLast?_concat]
      exact iff_of_false hwindow (by decide)
    · rw [hone, if_pos hphase, events_eq es (by rw [hstep, hended, hlog]), hes]
      simp [hphase]

end Step

/-- A step that receives nothing, or that a closed session takes. -/
theorem oneReplyEach_idle {x : Progress} (chunks : List Bytes)
    (hcore : (advance env x).1.toCore = x.1.toCore)
    (h : x.1.state = .cmd → received chunks (advance env x) = received chunks x) :
    OneReplyEach env chunks x := by
  have hphase : ¬ EndsPhase env x := fun hphase => hphase.2 (by rw [hcore]; exact hphase.1)
  rw [OneReplyEach, events_eq [] (by rw [List.append_nil]; exact congrArg Core.log hcore),
    if_neg (by rintro (⟨hcmd, hline⟩ | hend); exacts [hline.1 (h hcmd), hphase hend])]
  rfl

theorem InStep.closed (env : Env) {mem : Memory} {chunks rest : List Bytes} {c : UInt8}
    (h : InStep mem chunks (s, (c :: sp) :: rest)) (hstate : s.state = .closed) :
    InStep mem chunks (advance env (s, (c :: sp) :: rest)) ∧
      OneReplyEach env chunks (s, (c :: sp) :: rest) := by
  have hturn : s.turn env (c :: sp) = (s, []) := by rw [turn, hstate]
  have hstate' : (s.turn env (c :: sp)).1.state = .closed := by rw [hturn]; exact hstate
  refine ⟨h.next (by rw [hturn]; simp) (List.cons_ne_nil c sp) (fun hcmd => ?_)
    (fun hdata => ?_), oneReplyEach_idle chunks ?_ fun hcmd => ?_⟩
  · rw [hstate'] at hcmd
    cases hcmd
  · rw [hstate'] at hdata
    cases hdata
  · exact congrArg (fun r : Session × Bytes => r.1.toCore) hturn
  · rw [hstate] at hcmd
    cases hcmd

/-- The first byte is a LF, and the uninitialised match window makes it the end of a line. -/
def StrayLf (mem : Memory) (chunks : List Bytes) : Prop :=
  mem.cmdBuffer.tCheck.getLast? = some cr ∧ chunks.flatten.head? = some lf

/-- One step keeps in step with the stream, and sends the replies that it has to. -/
theorem InStep.advance (env : Env) {mem : Memory} {chunks : List Bytes} {x : Progress}
    (h : InStep mem chunks x) :
    InStep mem chunks (Session.advance env x) ∧ (¬ StrayLf mem chunks →
      (OneReplyEach env chunks x ↔ (EndsPhase env x → x.1.Answerable env))) := by
  have hidle (hone : OneReplyEach env chunks x)
      (hcore : (Session.advance env x).1.toCore = x.1.toCore) :
      OneReplyEach env chunks x ↔ (EndsPhase env x → x.1.Answerable env) :=
    iff_of_true hone fun hphase => absurd hphase.1 (by rw [← hcore]; exact hphase.2)
  obtain ⟨s, _ | ⟨_ | ⟨c, sp⟩, rest⟩⟩ := x
  · exact ⟨h, fun _ => hidle (oneReplyEach_idle chunks rfl fun _ => rfl) rfl⟩
  · exact ⟨⟨fun sp hsp => h.sizes sp (List.mem_cons_of_mem _ hsp), h.split, h.hasFile, h.fresh,
      h.cmd, h.data⟩, fun _ => hidle (oneReplyEach_idle chunks rfl fun _ => rfl) rfl⟩
  · cases hstate : s.state with
    | closed =>
        obtain ⟨hnext, hone⟩ := h.closed env hstate
        refine ⟨hnext, fun _ => iff_of_true hone fun hphase => ?_⟩
        rw [EndsPhase, hstate] at hphase
        cases hphase.1
    | cmd =>
        obtain ⟨hnext, hone⟩ := h.command env hstate
        refine ⟨hnext, fun hstray => iff_of_true (hone ?_) fun hphase => ?_⟩
        · rintro ⟨hempty, hwindow, rfl⟩
          refine hstray ⟨?_, ?_⟩
          · rw [← (h.fresh hempty).2]
            exact hwindow
          · rw [h.split, hempty]
            rfl
        · rw [EndsPhase, hstate] at hphase
          cases hphase.1
    | data =>
        obtain ⟨hnext, hone⟩ := h.dataTurn env hstate
        exact ⟨hnext, fun _ => hone⟩

theorem inStep_start (env : Env) (mem : Memory) (chunks : List Bytes)
    (hsizes : ∀ sp ∈ chunks, sp.length ≤ 8192) :
    InStep mem chunks (start env mem, chunks) := by
  have hreceived : received chunks (start env mem, chunks) = [] :=
    received_eq [] rfl
  exact ⟨hsizes, by rw [hreceived]; rfl, fun hdata => (by cases hdata), fun _ => ⟨rfl, rfl⟩,
    fun _ hne => absurd hreceived hne, fun hdata => (by cases hdata)⟩

/-- The step that reads the first byte of the stream. -/
theorem reach_first (env : Env) (s : Session) {chunks : List Bytes} {c : UInt8}
    (h : chunks.flatten.head? = some c) :
    ∃ n sp rest, (Session.advance env)^[n] (s, chunks) = (s, (c :: sp) :: rest) ∧
      chunks.flatten = ((c :: sp) :: rest).flatten := by
  induction chunks with
  | nil => cases h
  | cons chunk chunks ih =>
      cases chunk with
      | nil =>
          obtain ⟨n, sp, rest, hn, hflatten⟩ := ih h
          exact ⟨n + 1, sp, rest, hn, hflatten⟩
      | cons d sp =>
          cases Option.some.inj h
          exact ⟨0, sp, chunks, rfl, rfl⟩

/-- A LF that the match window takes for the end of a line is answered. -/
theorem stray_not_one {mem : Memory} {chunks rest : List Bytes}
    (h : InStep mem chunks (s, (lf :: sp) :: rest)) (hstate : s.state = .cmd)
    (hempty : received chunks (s, (lf :: sp) :: rest) = [])
    (hwindow : s.cmdBuffer.tCheck.getLast? = some cr) :
    ¬ OneReplyEach env chunks (s, (lf :: sp) :: rest) := by
  have hsize := h.sizes (lf :: sp) (by simp)
  obtain ⟨pre, d, heq, hquiet, hcase⟩ :=
    s.feedCmd_replies env (List.cons_ne_nil lf sp) (by omega)
  obtain ⟨a, y, hw⟩ := List.length_eq_two.mp s.cmdBuffer.tCheck_length
  rw [hw] at hwindow
  have hy : y = cr := Option.some.inj hwindow
  subst hy
  have hpre : pre = [] := by
    cases pre with
    | nil => rfl
    | cons x pre =>
        cases (List.cons.inj heq).1
        rw [hw] at hquiet
        exact absurd rfl hquiet.1
  subst hpre
  cases (List.cons.inj heq).1
  rcases hcase with ⟨hne, -, -⟩ | ⟨-, -, es, hlog, hes⟩
  · rw [hw] at hne
    exact absurd rfl hne
  · rw [← turn_cmd env _ hstate] at hlog heq
    have hline : ¬ CompletesLine env chunks (s, (lf :: sp) :: rest) := by
      rw [CompletesLine, h.received_advance (show lf :: sp = [lf] ++ _ from heq), hempty]
      decide
    have hphase : ¬ EndsPhase env (s, (lf :: sp) :: rest) := fun hphase => by
      rw [EndsPhase, hstate] at hphase
      cases hphase.1
    rw [OneReplyEach, events_eq (x := (s, (lf :: sp) :: rest)) es hlog, hes,
      if_neg (by rintro (⟨-, hend⟩ | hend); exacts [hline hend, hphase hend])]
    decide

/-- In every run, whatever the outcomes of the file operations, every line in the command
state and every end of the data is answered by exactly one reply, and nothing else is, if
and only if the first byte is not a LF on memory that ends in a CR, and every end of the
data finds a flag set or learns the position in its file. -/
theorem one_reply_each (env : Env) (mem : Memory) (chunks : List Bytes)
    (hsizes : ∀ sp ∈ chunks, sp.length ≤ 8192) :
    Run.Always (Session.advance env) (OneReplyEach env chunks) (start env mem, chunks) ↔
      ¬ StrayLf mem chunks ∧ Run.Always (Session.advance env)
        (fun x => EndsPhase env x → x.1.Answerable env) (start env mem, chunks) := by
  have hstart := inStep_start env mem chunks hsizes
  have halways := Run.always_of_step (Session.advance env) hstart
    fun x h => (h.advance env).1
  constructor
  · intro hone
    have hstray : ¬ StrayLf mem chunks := by
      rintro ⟨hwindow, hfirst⟩
      obtain ⟨n, sp, rest, hn, hflatten⟩ := reach_first env (start env mem) hfirst
      have hin := halways n
      have honeN := hone n
      rw [hn] at hin honeN
      exact stray_not_one hin rfl (received_eq [] hflatten) hwindow honeN
    exact ⟨hstray, fun n => (((halways n).advance env).2 hstray).mp (hone n)⟩
  · rintro ⟨hstray, hanswerable⟩ n
    exact (((halways n).advance env).2 hstray).mpr (hanswerable n)

/-- Two lines in one chunk and a third one that is cut in two. -/
theorem one_reply_each_greeting :
    Run.Always (Session.advance fun _ => .ideal)
      (OneReplyEach (fun _ => .ideal) [text "EHLO a\r\nNOOP\r\nQU", text "IT\r\n"])
      (start (fun _ => .ideal) .zeroed, [text "EHLO a\r\nNOOP\r\nQU", text "IT\r\n"]) := by
  refine (one_reply_each (fun _ => .ideal) .zeroed
    [text "EHLO a\r\nNOOP\r\nQU", text "IT\r\n"] (by decide)).mpr ⟨?_, fun n hphase => ?_⟩
  · rintro ⟨hwindow, -⟩
    cases hwindow
  · exact Or.inr (Or.inr (Or.inr rfl))

/-- When `tellg` fails at the end of the data, nothing is answered. -/
theorem not_one_reply_each_unknown_size :
    ¬ ∀ (env : Env) (mem : Memory) (chunks : List Bytes), (∀ sp ∈ chunks, sp.length ≤ 8192) →
      Run.Always (Session.advance env) (OneReplyEach env chunks) (start env mem, chunks) := by
  intro h
  have hstep := h (fun _ => { Answer.ideal with told := false }) .zeroed
    [text "EHLO a\r\n", text "MAIL FROM:<>\r\n", text "RCPT TO:<b@c>\r\n", text "DATA\r\n",
      text ".\r\n"] (by decide) 8
  revert hstep
  decide +kernel

end Session

end Ervan.Smtp
