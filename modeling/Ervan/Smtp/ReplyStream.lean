import Ervan.Smtp.Replies

/-!
# The stream of replies

What a client reads is the concatenation of all the buffers that are sent. The lengths
written out by hand are right, but a formatted message is sent with the NUL of the object
that holds it. So the stream consists of reply lines as long as nothing has been answered
but accepted greetings and QUIT, and never after.
-/

namespace Ervan.Smtp

/-- Text that fits into one line of a reply. -/
def Clean (bs : Bytes) : Prop := cr ∉ bs ∧ lf ∉ bs ∧ nul ∉ bs

instance (bs : Bytes) : Decidable (Clean bs) := inferInstanceAs (Decidable (_ ∧ _))

def Digits (code : Bytes) : Prop := ∀ digit ∈ code, 48 ≤ digit ∧ digit ≤ 57

instance (code : Bytes) : Decidable (Digits code) :=
  List.decidableBAll (fun digit => 48 ≤ digit ∧ digit ≤ 57) code

/-- Three digits, the separator, text and CRLF. -/
def ReplyLine (separator : UInt8) (bs : Bytes) : Prop :=
  ∃ code body, bs = code ++ separator :: (body ++ crlf) ∧ code.length = 3 ∧
    Digits code ∧ Clean body

/-- Lines of replies one after another. A line with a `-` is followed by another one. -/
inductive ReplyStream : Bytes → Prop
  | nil : ReplyStream []
  | last {line rest : Bytes} (h : ReplyLine 32 line) (next : ReplyStream rest) :
      ReplyStream (line ++ rest)
  | more {line rest : Bytes} (h : ReplyLine 45 line) (next : ReplyStream rest)
      (follows : rest ≠ []) : ReplyStream (line ++ rest)

/-- All the bytes that are sent. -/
def sent (es : List Event) : Bytes := (replies es).flatMap fun r => r.sends.flatten

@[simp] theorem sent_append (es es' : List Event) : sent (es ++ es') = sent es ++ sent es' := by
  simp [sent]

@[simp] theorem sent_reply (r : Reply) : sent [.reply r] = r.sends.flatten := by
  simp [sent]

theorem ReplyLine.nul_notMem {separator : UInt8} {bs : Bytes} (h : ReplyLine separator bs)
    (hseparator : separator ≠ nul) : nul ∉ bs := by
  obtain ⟨code, body, rfl, -, hdigits, -, -, hnul⟩ := h
  intro hmem
  simp only [List.mem_append, List.mem_cons] at hmem
  rcases hmem with hmem | hmem | hmem | hmem
  · exact absurd (hdigits nul hmem).1 (by decide)
  · exact hseparator hmem.symm
  · exact hnul hmem
  · exact absurd hmem (by decide)

theorem ReplyStream.append {bs bs' : Bytes} (h : ReplyStream bs) (h' : ReplyStream bs') :
    ReplyStream (bs ++ bs') := by
  induction h with
  | nil => exact h'
  | last h next ih =>
      rw [List.append_assoc]
      exact .last h ih
  | more h next follows ih =>
      rw [List.append_assoc]
      exact .more h ih fun hnil => follows (List.append_eq_nil_iff.mp hnil).1

/-- A NUL never belongs to a reply. -/
theorem ReplyStream.nul_notMem {bs : Bytes} (h : ReplyStream bs) : nul ∉ bs := by
  induction h with
  | nil => exact List.not_mem_nil
  | last h next ih =>
      intro hmem
      exact (List.mem_append.mp hmem).elim (h.nul_notMem (by decide)) ih
  | more h next follows ih =>
      intro hmem
      exact (List.mem_append.mp hmem).elim (h.nul_notMem (by decide)) ih

section Messages

variable {hostname : Bytes}

theorem Clean.append {bs bs' : Bytes} (h : Clean bs) (h' : Clean bs') : Clean (bs ++ bs') := by
  simp only [Clean, List.mem_append, not_or]
  exact ⟨⟨h.1, h'.1⟩, ⟨h.2.1, h'.2.1⟩, h.2.2, h'.2.2⟩

/-- The object of a formatted message ends with a NUL. -/
theorem nul_mem_smtpReply (code : Nat) (str : String) :
    nul ∈ (smtpReply code str).sends.flatten := by
  simp [smtpReply, smtpMsgStr]

theorem greeter_stream (h : Clean hostname) :
    ReplyStream (Reply.greeter hostname).sends.flatten := by
  have hcode : counted "220 " 4 = text "220" ++ [32] := by decide
  have hrest : counted " SMTP Ervan 2 ready\r\n" 21 = text " SMTP Ervan 2 ready" ++ crlf := by
    decide
  have hline : ReplyLine 32 (Reply.greeter hostname).sends.flatten :=
    ⟨text "220", hostname ++ text " SMTP Ervan 2 ready", by simp [Reply.greeter, hcode, hrest],
      rfl, by decide, h.append (by decide)⟩
  simpa using ReplyStream.last hline .nil

theorem quit_stream (h : Clean hostname) : ReplyStream (Reply.quit hostname).sends.flatten := by
  have hcode : counted "221 " 4 = text "221" ++ [32] := by decide
  have hrest : counted " do widzenia\r\n" 14 = text " do widzenia" ++ crlf := by decide
  have hline : ReplyLine 32 (Reply.quit hostname).sends.flatten :=
    ⟨text "221", hostname ++ text " do widzenia", by simp [Reply.quit, hcode, hrest],
      rfl, by decide, h.append (by decide)⟩
  simpa using ReplyStream.last hline .nil

theorem helo_stream (h : Clean hostname) : ReplyStream (Reply.helo hostname).sends.flatten := by
  have hcode : counted "250 " 4 = text "250" ++ [32] := by decide
  have hrest : counted " at your service\r\n" 18 = text " at your service" ++ crlf := by decide
  have hline : ReplyLine 32 (Reply.helo hostname).sends.flatten :=
    ⟨text "250", hostname ++ text " at your service", by simp [Reply.helo, hcode, hrest],
      rfl, by decide, h.append (by decide)⟩
  simpa using ReplyStream.last hline .nil

theorem ehlo_stream (h : Clean hostname) : ReplyStream (Reply.ehlo hostname).sends.flatten := by
  have hcode : counted "250-" 4 = text "250" ++ [45] := by decide
  have hrest : counted " at your service\r\n" 18 = text " at your service" ++ crlf := by decide
  have hextension : ReplyLine 32 (counted "250 8BITMIME\r\n" 14) :=
    ⟨text "250", text "8BITMIME", by decide, rfl, by decide, by decide⟩
  have hline : ReplyLine 45 (text "250" ++ 45 :: (hostname ++ text " at your service" ++ crlf)) :=
    ⟨text "250", hostname ++ text " at your service", rfl, rfl, by decide, h.append (by decide)⟩
  have hstream := ReplyStream.more hline (.last hextension .nil) (by decide)
  simpa [Reply.ehlo, hcode, hrest] using hstream

end Messages

namespace Core

variable {env : Env} {c c₁ : Core}

/-- Something has been sent that contains a NUL. -/
def Marked (c c' : Core) : Prop := ∃ es, c'.log = c.log ++ es ∧ nul ∈ sent es

theorem Marked.reply {es : List Event} {r : Reply} (h : c₁.log = c.log ++ es)
    (hr : nul ∈ r.sends.flatten) : Marked c (c₁.reply r) := by
  refine ⟨es ++ [.reply r], ?_, ?_⟩
  · rw [reply_log, h, List.append_assoc]
  · simp only [sent_append, sent_reply, List.mem_append, hr, or_true]

theorem Marked.formatted (c : Core) (code : Nat) (str : String) :
    Marked c (c.reply (smtpReply code str)) :=
  Marked.reply (List.append_nil c.log).symm (nul_mem_smtpReply code str)

theorem mailPath_marked (m : Mem) (sp : Span) (c : Core) : Marked c (c.mailPath m sp) := by
  unfold mailPath
  cases Parse.reversePath m sp with
  | none => exact Marked.formatted c 501 _
  | some reverse =>
      simp only
      split
      · exact Marked.formatted c 503 _
      · split
        · exact Marked.formatted c 501 _
        · exact Marked.reply (List.append_nil c.log).symm (nul_mem_smtpReply 250 _)

theorem mail_marked (b : CmdBuffer) (sp : Span) (c : Core) : Marked c (c.mail b sp).2 := by
  unfold mail
  generalize accept b sp (text "FROM:") = r
  obtain ⟨b', _ | sp'⟩ := r
  · exact Marked.formatted c 501 _
  · exact mailPath_marked _ _ c

theorem rcptPath_marked (m : Mem) (sp : Span) (c : Core) : Marked c (c.rcptPath m sp) := by
  unfold rcptPath
  split
  · exact Marked.formatted c 503 _
  · split
    · exact Marked.formatted c 452 _
    · cases Parse.path m sp with
      | none => exact Marked.formatted c 501 _
      | some p => exact Marked.reply (List.append_nil c.log).symm (nul_mem_smtpReply 250 _)

theorem rcpt_marked (b : CmdBuffer) (sp : Span) (c : Core) : Marked c (c.rcpt b sp).2 := by
  unfold rcpt
  generalize accept b sp (text "TO:") = r
  obtain ⟨b', _ | sp'⟩ := r
  · exact Marked.formatted c 501 _
  · exact rcptPath_marked _ _ c

theorem data_marked (env : Env) (c : Core) : Marked c (c.data env) := by
  obtain ⟨path, ok, es, hlog, -⟩ := (openFiles_opened env c).log
  unfold data
  split
  · exact Marked.formatted c 503 _
  · simp only
    split
    · exact Marked.reply hlog (nul_mem_smtpReply 451 _)
    · exact Marked.reply hlog (nul_mem_smtpReply 354 _)

/-- A line whose answer is not a formatted message: a QUIT or a greeting with a domain. -/
def Greets (b : CmdBuffer) (len : Nat) : Prop :=
  match verbOf (b.mem.read 0 len) with
  | some .quit => True
  | some .ehlo => (Parse.domain (capitalised b).mem ((Span.mk 0 len).advance 5)).isSome
  | some .helo => (Parse.domain (capitalised b).mem ((Span.mk 0 len).advance 5)).isSome
  | _ => False

instance (b : CmdBuffer) (len : Nat) : Decidable (Greets b len) := by
  unfold Greets
  split <;> infer_instance

/-- What is left of a session whose answers have all been the banner, greetings and QUIT. -/
structure Plain (env : Env) (c : Core) : Prop where
  state : c.state ≠ .data
  replies : ∀ r ∈ Smtp.replies c.log, ∃ n,
    r = .greeter (env n).cfg.hostname ∨ r = .ehlo (env n).cfg.hostname ∨
      r = .helo (env n).cfg.hostname ∨ r = .quit (env n).cfg.hostname

theorem Plain.reply {r : Reply} (h : Plain env c) (hlog : c₁.log = c.log)
    (hstate : c₁.state ≠ .data) (hr : ∃ n, r = .greeter (env n).cfg.hostname ∨
      r = .ehlo (env n).cfg.hostname ∨ r = .helo (env n).cfg.hostname ∨
        r = .quit (env n).cfg.hostname) : Plain env (c₁.reply r) := by
  refine ⟨hstate, fun r' hr' => ?_⟩
  rw [reply_log, hlog, replies_append, replies_reply, List.mem_append, List.mem_singleton] at hr'
  rcases hr' with hr' | rfl
  · exact h.replies r' hr'
  · exact hr

theorem Plain.stream (h : Plain env c) (clean : ∀ n, Clean (env n).cfg.hostname) :
    ReplyStream (sent c.log) := by
  have hreplies := h.replies
  unfold sent
  generalize Smtp.replies c.log = rs at hreplies
  induction rs with
  | nil => exact .nil
  | cons r rs ih =>
      rw [List.flatMap_cons]
      refine ReplyStream.append ?_ (ih fun r' hr' => hreplies r' (List.mem_cons_of_mem r hr'))
      obtain ⟨n, rfl | rfl | rfl | rfl⟩ := hreplies r List.mem_cons_self
      · exact greeter_stream (clean n)
      · exact ehlo_stream (clean n)
      · exact helo_stream (clean n)
      · exact quit_stream (clean n)

variable {b : CmdBuffer} {line : Bytes}

/-- A line is answered by a greeting or the end of the session, or by a formatted message. -/
theorem callCommand_greets (env : Env) (c : Core) (h : Delivers b cmdTerminator line) :
    (Greets b line.length → Plain env c → Plain env (c.callCommand env b line.length).2) ∧
      (¬ Greets b line.length → Marked c (c.callCommand env b line.length).2) := by
  unfold Greets
  rw [h.read]
  by_cases hlen : 4 ≤ line.length
  · rw [callCommand_dispatch env c h hlen]
    cases hverb : verbOf line with
    | none => exact ⟨False.elim, fun _ => Marked.formatted c 500 _⟩
    | some verb =>
        cases verb with
        | ehlo =>
            simp only [dispatch, ehlo]
            cases Parse.domain (capitalised b).mem ((Span.mk 0 line.length).advance 5) with
            | none => exact ⟨(fun hsome => by cases hsome), fun _ => Marked.formatted c 501 _⟩
            | some d =>
                refine ⟨fun _ hplain => ?_, fun hnone => absurd rfl hnone⟩
                exact hplain.reply rfl (fun hdata => by cases hdata) ⟨_, Or.inr (Or.inl rfl)⟩
        | helo =>
            simp only [dispatch, helo]
            cases Parse.domain (capitalised b).mem ((Span.mk 0 line.length).advance 5) with
            | none => exact ⟨(fun hsome => by cases hsome), fun _ => Marked.formatted c 501 _⟩
            | some d =>
                refine ⟨fun _ hplain => ?_, fun hnone => absurd rfl hnone⟩
                exact hplain.reply rfl (fun hdata => by cases hdata)
                  ⟨_, Or.inr (Or.inr (Or.inl rfl))⟩
        | quit =>
            refine ⟨fun _ hplain => ?_, fun hother => absurd trivial hother⟩
            have hreply := hplain.reply (Eq.refl c.log) hplain.state
              ⟨c.log.length, Or.inr (Or.inr (Or.inr rfl))⟩
            exact ⟨(fun hdata => by cases hdata), hreply.replies⟩
        | mail => exact ⟨False.elim, fun _ => mail_marked _ _ c⟩
        | rcpt => exact ⟨False.elim, fun _ => rcpt_marked _ _ c⟩
        | data => exact ⟨False.elim, fun _ => data_marked env c⟩
        | rset =>
            exact ⟨False.elim, fun _ =>
              Marked.reply (List.append_nil c.log).symm (nul_mem_smtpReply 250 _)⟩
        | vrfy => exact ⟨False.elim, fun _ => Marked.formatted c 502 _⟩
        | noop => exact ⟨False.elim, fun _ => Marked.formatted c 250 _⟩
  · have hshort : line.length < 4 := Nat.lt_of_not_le hlen
    rw [callCommand_short env c hshort, verbOf, if_pos hshort]
    exact ⟨False.elim, fun _ => Marked.formatted c 500 _⟩

end Core

namespace Session

variable {env : Env} {s : Session} {sp : Bytes}

/-- Every line that is complete in the chunk is answered without a formatted message. -/
def OnlyGreets (s : Session) (sp : Bytes) : Prop :=
  let (b, _, result) := join s.cmdBuffer sp s.cmdOffset cmdTerminator
  match result.sp with
  | none => result.ec = false
  | some len => Core.Greets b len

instance (s : Session) (sp : Bytes) : Decidable (s.OnlyGreets sp) := by
  unfold OnlyGreets
  generalize join s.cmdBuffer sp s.cmdOffset cmdTerminator = r
  obtain ⟨b, offset, ⟨_ | n, rest, ec⟩⟩ := r
  · exact inferInstanceAs (Decidable (ec = false))
  · exact inferInstanceAs (Decidable (Core.Greets b n))

theorem feedCmd_greets (env : Env) (s : Session) (sp : Bytes) :
    (s.OnlyGreets sp → s.Plain env → (s.feedCmd env sp).1.Plain env) ∧
      (¬ s.OnlyGreets sp → Core.Marked s.toCore (s.feedCmd env sp).1.toCore) := by
  have joined := join_joined (by decide) s.cmdBuffer sp s.cmdOffset cmdTerminator
  unfold OnlyGreets feedCmd
  generalize join s.cmdBuffer sp s.cmdOffset cmdTerminator = r at joined ⊢
  cases joined with
  | quiet b offset quiet window => exact ⟨fun _ hplain => hplain, fun hother => absurd rfl hother⟩
  | gaveUp b offset hlong => exact ⟨fun _ hplain => hplain, fun hother => absurd rfl hother⟩
  | tooLong b pre rest c eq quiet complete window =>
      exact ⟨(fun hquiet => by cases hquiet), fun _ => Core.Marked.formatted s.toCore 500 _⟩
  | line b pre rest c eq quiet complete line delivers =>
      obtain ⟨hgreets, hmarked⟩ := Core.callCommand_greets env (s.emit (.line line)) delivers
      simp only [handleLine, delivers.read, Bool.false_eq_true, if_false]
      refine ⟨fun greets hplain => hgreets greets ⟨hplain.state, ?_⟩, fun hother => ?_⟩
      · intro r hr
        rw [Core.emit_log, replies_append, List.mem_append] at hr
        exact hr.elim (hplain.replies r) (fun hnone => by cases hnone)
      · obtain ⟨es, hlog, hnul⟩ := hmarked hother
        refine ⟨.line line :: es, ?_, hnul⟩
        rw [hlog, Core.emit_log, List.append_assoc]
        rfl

/-- In the command state the step completes no line but greetings with a domain and QUIT. -/
def GreetsOnly (x : Progress) : Prop :=
  match x.2 with
  | [] => True
  | sp :: _ => x.1.state = .cmd → x.1.OnlyGreets sp

instance : DecidablePred GreetsOnly := fun (_, chunks) =>
  match chunks with
  | [] => isTrue trivial
  | _ :: _ => inferInstanceAs (Decidable (_ → _))

theorem plain_advance {x : Progress} (h : x.1.Plain env) (only : GreetsOnly x) :
    (advance env x).1.Plain env := by
  obtain ⟨s, _ | ⟨_ | ⟨c, sp⟩, chunks⟩⟩ := x
  · exact h
  · exact h
  · change (s.turn env (c :: sp)).1.Plain env
    unfold turn
    cases hstate : s.state with
    | closed => exact h
    | cmd => exact (feedCmd_greets env s (c :: sp)).1 (only hstate) h
    | data => exact absurd hstate h.state

/-- A step that completes any other line leaves a NUL in the stream. -/
theorem marked_advance (env : Env) {x : Progress} (h : ¬ GreetsOnly x) :
    Core.Marked x.1.toCore (advance env x).1.toCore := by
  obtain ⟨s, _ | ⟨_ | ⟨c, sp⟩, chunks⟩⟩ := x
  · exact absurd trivial h
  · exact absurd (fun _ => rfl) h
  · simp only [GreetsOnly, Classical.not_imp] at h
    simp only [advance, turn_cmd env _ h.1]
    exact (feedCmd_greets env s (c :: sp)).2 h.2

/-- The bytes that a run sends are lines of replies if and only if the only command lines it
completes are greetings with a domain and QUIT. -/
theorem reply_stream (env : Env) (clean : ∀ n, Clean (env n).cfg.hostname) (mem : Memory)
    (chunks : List Bytes) :
    ReplyStream (sent ((start env mem).feedAll env chunks).log) ↔
      Run.Always (advance env) GreetsOnly (start env mem, chunks) := by
  obtain ⟨k, hk⟩ := feedAll_reached env (start env mem) chunks
  constructor
  · intro stream n
    by_contra hother
    obtain ⟨es, hlog, hnul⟩ := marked_advance env hother
    obtain ⟨rest, hrest⟩ := log_final env (start env mem) chunks (n + 1)
    rw [Function.iterate_succ_apply', hlog] at hrest
    apply stream.nul_notMem
    rw [← hrest, sent_append, sent_append]
    simp [hnul]
  · intro only
    have hbanner : (start env mem).Plain env := by
      refine ⟨(fun hdata => by cases hdata), fun r hr => ⟨0, Or.inl ?_⟩⟩
      exact List.mem_singleton.mp hr
    have hfinal := only.invariant (I := fun x => x.1.Plain env) hbanner
      (fun x only h => plain_advance h only) k
    rw [hk] at hfinal
    exact hfinal.stream clean

/-- A greeting, and a QUIT cut in two, with a command behind it that is not read. -/
theorem reply_stream_quit :
    ReplyStream (sent ((start (fun _ => .ideal) .zeroed).feedAll (fun _ => .ideal)
      [text "EHLO a\r\nQU", text "IT\r\nNOOP\r\n"]).log) :=
  (reply_stream (fun _ => .ideal) (fun _ => by decide) .zeroed _).mpr
    (always_of_done 6 (by decide +kernel) (by decide +kernel))

/-- The answer to a NOOP ends with a NUL. -/
theorem not_reply_stream_noop :
    ¬ ∀ (env : Env) (mem : Memory) (chunks : List Bytes), (∀ n, Clean (env n).cfg.hostname) →
      ReplyStream (sent ((start env mem).feedAll env chunks).log) := by
  intro h
  have stream := h (fun _ => .ideal) .zeroed [text "NOOP\r\n"] (fun _ => by decide)
  exact stream.nul_notMem (by decide +kernel)

end Session

end Ervan.Smtp
