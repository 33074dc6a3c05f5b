import Ervan.Common.Lines
import Ervan.Common.ParseLocal
import Ervan.Smtp.Commands

/-!
# Command lines

What a command line means, as a function of its bytes. The handlers work on the
buffer the line was delivered in; on a line that has an argument they look at
nothing else, and their effect is the one given here. A line of four bytes has no
argument, and the span that `callCommand` makes of it covers whatever the buffer
holds behind the line.
-/

namespace Ervan

namespace Buffer

variable {cap win : Nat}

theorem mem_poke_ne (b : Buffer cap win) {i j : Nat} (c : UInt8) (h : i ≠ j) :
    (b.poke i c).mem j = b.mem j := by
  have htarget := b.target_length
  simp only [mem, Mem.ofBytes, poke, List.getD_eq_getElem?_getD, List.getElem?_append,
    List.length_set, htarget]
  split
  · rw [List.getElem?_set_ne h]
  · split
    · rfl
    · rw [List.getElem?_set_ne (by omega)]

theorem mem_poke_self (b : Buffer cap win) {i : Nat} (c : UInt8) (h : i < cap) :
    (b.poke i c).mem i = c := by
  have htarget := b.target_length
  rw [mem_of_lt _ h, poke_target, List.getD_eq_getElem?_getD,
    List.getElem?_set_self (by omega), Option.getD_some]

theorem poke_tCheck (b : Buffer cap win) {i : Nat} (c : UInt8) (h : i < cap) :
    (b.poke i c).tCheck = b.tCheck := if_pos h

end Buffer

namespace Smtp

open Parse

section PokeAll

variable {b : CmdBuffer} {start : Nat} {bs : Bytes}

theorem pokeAll_mem_outside {j : Nat} (h : j < start ∨ start + bs.length ≤ j) :
    (pokeAll b start bs).mem j = b.mem j := by
  induction bs generalizing b start with
  | nil => rfl
  | cons c bs ih =>
      simp only [List.length_cons] at h
      rw [pokeAll, ih (by omega), Buffer.mem_poke_ne _ _ (by omega)]

theorem pokeAll_read (b : CmdBuffer) (start : Nat) (bs : Bytes) (h : start + bs.length ≤ 510) :
    (pokeAll b start bs).mem.read start bs.length = bs := by
  induction bs generalizing b start with
  | nil => rfl
  | cons c bs ih =>
      simp only [List.length_cons] at h ⊢
      rw [Mem.read_succ, pokeAll, pokeAll_mem_outside (Or.inl (Nat.lt_succ_self start)),
        Buffer.mem_poke_self _ _ (by omega), ih _ _ (by omega)]

theorem pokeAll_tCheck (h : start + bs.length ≤ 510) :
    (pokeAll b start bs).tCheck = b.tCheck := by
  induction bs generalizing b start with
  | nil => rfl
  | cons c bs ih =>
      simp only [List.length_cons] at h
      rw [pokeAll, ih (by omega), Buffer.poke_tCheck _ _ (by omega)]

/-- The comparison of `accept` succeeds on what `accept` has just written. -/
theorem accept_eq {sp : Span} {str : Bytes} (hupper : str.map toupper = str)
    (h : sp.start + str.length ≤ 510) :
    accept b sp str = if sp.len < str.length then (b, none)
      else (pokeAll b sp.start str, some (sp.advance str.length)) := by
  simp only [accept, hupper]
  split
  · rfl
  · rw [pokeAll_read _ _ _ h]
    simp

end PokeAll

/-- The verb of a line: its first four bytes, in any case. -/
def verbOf (line : Bytes) : Option Verb :=
  if line.length < 4 then none
  else commands.find? fun verb => (line.take 4).map toupper == verb.name

namespace Core

/-- The effect of a command line. Without an argument a greeting is refused, and MAIL
and RCPT are handled as if it were empty. -/
def command (env : Env) (line : Bytes) (c : Core) : Core :=
  match verbOf line with
  | none => c.reply .invalidCommand
  | some .ehlo =>
      if line.length < 5 then c.reply .invalidParameters
      else c.ehlo env (Mem.ofBytes line) ⟨5, line.length - 5⟩
  | some .helo =>
      if line.length < 5 then c.reply .invalidParameters
      else c.helo env (Mem.ofBytes line) ⟨5, line.length - 5⟩
  | some .mail =>
      if 5 ≤ line.length ∧ line.length < 10 then c.reply .invalidParameters
      else c.mailPath (Mem.ofBytes line) ⟨10, line.length - 10⟩
  | some .rcpt =>
      if 5 ≤ line.length ∧ line.length < 8 then c.reply .invalidParameters
      else c.rcptPath (Mem.ofBytes line) ⟨8, line.length - 8⟩
  | some .data => c.data env
  | some .rset => c.rset env
  | some .vrfy => c.vrfy
  | some .noop => c.noop
  | some .quit => c.quit env

section Handlers

variable {m m' : Mem} {sp : Span} {hi : Nat}

theorem ehlo_congr (env : Env) (c : Core) (hend : Reaches sp hi) (h : Agree m m' sp.start hi) :
    c.ehlo env m sp = c.ehlo env m' sp := by
  obtain ⟨heq, hbody⟩ := domain_local hend h
  simp only [ehlo, ← heq]
  cases hd : domain m sp with
  | none => rfl
  | some d =>
      have hread := (hbody d hd).read_congr (.refl hend) h
      simp only [hread]

theorem helo_congr (env : Env) (c : Core) (hend : Reaches sp hi) (h : Agree m m' sp.start hi) :
    c.helo env m sp = c.helo env m' sp := by
  obtain ⟨heq, hbody⟩ := domain_local hend h
  simp only [helo, ← heq]
  cases hd : domain m sp with
  | none => rfl
  | some d =>
      have hread := (hbody d hd).read_congr (.refl hend) h
      simp only [hread]

theorem rcptPath_congr (c : Core) (hend : Reaches sp hi) (h : Agree m m' sp.start hi) :
    c.rcptPath m sp = c.rcptPath m' sp := by
  obtain ⟨heq, hwithin⟩ := path_local hend h
  simp only [rcptPath, ← heq]
  cases hp : path m sp with
  | none => rfl
  | some p => simp only [(hwithin p hp).2.text_congr h]

theorem mailParam_congr {param : EsmtpParamResult}
    (hkey : m.read param.key.body.start param.key.body.len =
      m'.read param.key.body.start param.key.body.len)
    (hvalue : m.read param.value.body.start param.value.body.len =
      m'.read param.value.body.start param.value.body.len) :
    mailParam m param = mailParam m' param := by
  unfold mailParam Span.compareInsensitive Span.equal
  rw [hkey, hvalue]

theorem mailParams_congr (fuel : Nat) (hend : Reaches sp hi) (h : Agree m m' sp.start hi) :
    mailParams m fuel sp = mailParams m' fuel sp := by
  induction fuel generalizing sp with
  | zero => rfl
  | succ fuel ih =>
      simp only [mailParams, ← h.same sp.start (Nat.le_refl _) hend.start_le]
      by_cases hlen : sp.len > 0
      · by_cases hblank : m sp.start = 32
        · have hnext := hend.advance (n := 1)
            (h.lt_of_class (p := (· == 32)) (by decide) hend.start_le (by simp [hblank]))
          obtain ⟨heq, hparam⟩ := esmtpParam_local hnext.reaches (h.mono hnext.start_le)
          simp only [← heq]
          cases hp : esmtpParam m (sp.advance 1) with
          | none => rfl
          | some param =>
              obtain ⟨hrest, ⟨mk, hmk, hkey⟩, mv, hmv, hvalue⟩ := hparam param hp
              have hsuffix := hnext.trans hrest
              simp only [mailParam_congr (hkey.read_congr (hnext.trans hmk) h)
                (hvalue.read_congr (hnext.trans hmv) h),
                ih hsuffix.reaches (h.mono hsuffix.start_le)]
        · simp [hlen, hblank]
      · simp [hlen]

theorem mailPath_congr (c : Core) (hend : Reaches sp hi) (h : Agree m m' sp.start hi) :
    c.mailPath m sp = c.mailPath m' sp := by
  obtain ⟨heq, hwithin⟩ := reversePath_local hend h
  simp only [mailPath, ← heq]
  cases hp : reversePath m sp with
  | none => rfl
  | some p =>
      obtain ⟨hrest, hmailbox⟩ := hwithin p hp
      have htext : p.mailbox.text m = p.mailbox.text m' := by
        rcases hmailbox with hnull | hwithin
        · rw [hnull]
          rfl
        · exact hwithin.text_congr h
      simp only [mailParams_congr _ hrest.reaches (h.mono hrest.start_le), htext]

/-- The parameters never end when a NUL or a CR comes before the end of the span. -/
theorem mailParams_stopped (fuel : Nat) (hend : Reaches sp hi) (stop : m hi = nul ∨ m hi = cr)
    (hbeyond : hi < sp.start + sp.len) (hfuel : hi < sp.start + fuel) :
    mailParams m fuel sp = false := by
  induction fuel generalizing sp with
  | zero => have := hend.start_le; omega
  | succ fuel ih =>
      have hlen : sp.len > 0 := by have := hend.start_le; omega
      have h : Agree m m sp.start hi := ⟨fun _ _ _ => rfl, stop⟩
      simp only [mailParams, hlen, if_true]
      by_cases hblank : m sp.start = 32
      · have hnext := hend.advance (n := 1)
          (h.lt_of_class (p := (· == 32)) (by decide) hend.start_le (by simp [hblank]))
        cases hp : esmtpParam m (sp.advance 1) with
        | none => simp [hblank]
        | some param =>
            obtain ⟨hrest, -⟩ := (esmtpParam_local hnext.reaches (h.mono hnext.start_le)).2 _ hp
            have htotal := hrest.total
            have hstart := hrest.start_le
            have hnext' := hnext.total
            rw [Span.advance_start] at hstart
            simp only [hblank, ne_eq, not_true_eq_false,
              ih hrest.reaches (by omega) (by omega), ite_self]
      · simp [hblank]

/-- A MAIL whose argument runs past a NUL or a CR is answered 501, or 503 out of turn. -/
theorem mailPath_stopped (c : Core) (hend : Reaches sp hi) (stop : m hi = nul ∨ m hi = cr)
    (hbeyond : hi < sp.start + sp.len) :
    c.mailPath m sp = c.reply .invalidParameters ∨
      ((c.reverseSet || !c.sessionBegun) = true ∧ c.mailPath m sp = c.reply .badSequence) := by
  simp only [mailPath]
  cases hp : reversePath m sp with
  | none => exact Or.inl rfl
  | some p =>
      obtain ⟨hrest, -⟩ := (reversePath_local hend ⟨fun _ _ _ => rfl, stop⟩).2 p hp
      have htotal := hrest.total
      have hparams := mailParams_stopped p.rest.len hrest.reaches stop (by omega) (by omega)
      by_cases hseq : (c.reverseSet || !c.sessionBegun) = true
      · exact Or.inr ⟨hseq, by simp [hseq]⟩
      · exact Or.inl (by simp only [hseq, hparams, Bool.false_eq_true, if_false, Bool.not_false,
          if_true])

end Handlers

/-- A RCPT without an argument that is not refused for another reason. -/
def StaleRecipient (line : Bytes) (c : Core) : Prop :=
  line.length = 4 ∧ verbOf line = some .rcpt ∧ c.sessionBegun = true ∧
    c.metadata.forwardPaths.length < c.maxForwardPaths

/-- A MAIL without an argument out of turn. -/
def StaleSender (line : Bytes) (c : Core) : Prop :=
  line.length = 4 ∧ verbOf line = some .mail ∧ (c.reverseSet || !c.sessionBegun) = true

instance (line : Bytes) (c : Core) : Decidable (StaleRecipient line c) :=
  inferInstanceAs (Decidable (_ ∧ _))

instance (line : Bytes) (c : Core) : Decidable (StaleSender line c) :=
  inferInstanceAs (Decidable (_ ∧ _))

section CallCommand

variable {env : Env} {b : CmdBuffer} {line : Bytes} {c : Core}

/-- The buffer with the verb in capitals and a NUL behind it. -/
def capitalised (b : CmdBuffer) : CmdBuffer :=
  pokeAll b 0 (((b.mem.read 0 4).map toupper) ++ [nul])

theorem capitalised_mem {i : Nat} (hi : 5 ≤ i) : (capitalised b).mem i = b.mem i :=
  pokeAll_mem_outside (Or.inr (by simpa using hi))

theorem capitalised_tCheck (b : CmdBuffer) : (capitalised b).tCheck = b.tCheck :=
  pokeAll_tCheck (by simp)

theorem name_length (verb : Verb) : verb.name.length = 4 := by
  cases verb <;> rfl

/-- The verb is looked up in the first four bytes of the line. -/
theorem tryGetCommand_capitalised (h : Delivers b cmdTerminator line) (hlen : 4 ≤ line.length) :
    tryGetCommand (capitalised b).mem = verbOf line := by
  have hfour : b.mem.read 0 4 = line.take 4 := by
    rw [← h.read, ← Nat.add_sub_of_le hlen, Mem.read_add, List.take_left' (by simp)]
  have hfive : (capitalised b).mem.read 0 (4 + 1) = (line.take 4).map toupper ++ [nul] := by
    rw [← hfour]
    exact pokeAll_read b 0 ((b.mem.read 0 4).map toupper ++ [nul]) (by simp)
  rw [Mem.read_add] at hfive
  obtain ⟨hread, hnul⟩ := List.append_inj hfive (by simp [hlen])
  have hnul : (capitalised b).mem 4 = nul := by simpa [Mem.read] using hnul
  simp only [tryGetCommand, verbOf, if_neg (Nat.not_lt.mpr hlen)]
  congr 1
  funext verb
  simp [Mem.strEq, name_length, hread, hnul]

theorem called_short {len : Nat} (hlen : len < 4) : called b len = (b, none) := if_pos hlen

theorem called_long {len : Nat} (hlen : 4 ≤ len) :
    called b len = (capitalised b, (tryGetCommand (capitalised b).mem).map fun verb =>
      (verb, (Span.mk 0 len).advance 5)) := by
  unfold called capitalised
  rw [if_neg (Nat.not_lt.mpr hlen)]
  dsimp only
  generalize pokeAll b 0 _ = b'
  cases tryGetCommand b'.mem <;> rfl

theorem callCommand_short {len : Nat} (env : Env) (c : Core) (hlen : len < 4) :
    c.callCommand env b len = (b, c.reply .invalidCommand) := by
  rw [callCommand, called_short hlen]

/-- What `callCommand` does with a line of at least four bytes. -/
theorem callCommand_long {len : Nat} (env : Env) (c : Core) (hlen : 4 ≤ len) :
    c.callCommand env b len =
      match tryGetCommand (capitalised b).mem with
      | none => (capitalised b, c.reply .invalidCommand)
      | some verb => c.dispatch env verb (capitalised b) ((Span.mk 0 len).advance 5) := by
  rw [callCommand, called_long hlen]
  cases tryGetCommand (capitalised b).mem <;> rfl

/-- What `callCommand` does with a delivered line of at least four bytes. -/
theorem callCommand_dispatch (env : Env) (c : Core) (h : Delivers b cmdTerminator line)
    (hlen : 4 ≤ line.length) :
    c.callCommand env b line.length =
      match verbOf line with
      | none => (capitalised b, c.reply .invalidCommand)
      | some verb => c.dispatch env verb (capitalised b) ((Span.mk 0 line.length).advance 5) := by
  rw [callCommand_long env c hlen, tryGetCommand_capitalised h hlen]

theorem argument_eq {n : Nat} (hlo : 5 ≤ n) (hhi : n ≤ 510) :
    (Span.mk 0 n).advance 5 = ⟨5, n - 5⟩ := by
  have hlen := Span.advance_len (s := ⟨0, n⟩) hlo (by simp only; omega)
  exact congrArg (Span.mk 5) hlen

/-- An argument with enough bytes for a keyword of `k` bytes is accepted. -/
theorem accept_argument {n k : Nat} (str : Bytes) (hk : str.length = k)
    (hupper : str.map toupper = str) (hroom : 5 + k ≤ 510) (hn : n < 2 ^ 64) :
    accept (capitalised b) ⟨5, n⟩ str = if n < k then (capitalised b, none)
      else (pokeAll (capitalised b) 5 str, some ⟨5 + k, n - k⟩) := by
  subst hk
  rw [accept_eq hupper hroom]
  by_cases hlt : n < str.length
  · simp only [if_pos hlt]
  · have hlen := Span.advance_len (s := ⟨5, n⟩) (Nat.le_of_not_lt hlt) hn
    simp only [if_neg hlt]
    exact congrArg (fun k => (_, some (Span.mk (5 + str.length) k))) hlen

/-- A memory that has not been edited from `lo` on holds the line there. -/
theorem agree_line (h : Delivers b cmdTerminator line) {m : Mem} {lo : Nat}
    (hlo : lo ≤ line.length) (hsame : ∀ i, lo ≤ i → m i = b.mem i) :
    Agree m (Mem.ofBytes line) lo line.length where
  same i hlo hhi := by
    rw [hsame i hlo, h.mem_eq hhi]
    rfl
  stop := Or.inl (by rw [hsame _ hlo, h.nul])

theorem reaches_line (h : Delivers b cmdTerminator line) {lo : Nat} (hlo : lo ≤ line.length) :
    Reaches ⟨lo, line.length - lo⟩ line.length := by
  have hfits := h.fits
  exact ⟨hlo, by simp only; omega, by omega, by simp only; omega⟩

/-- A keyword leaves the memory behind it as it was. -/
theorem edited_mem {str : Bytes} {i : Nat} (hi : 5 + str.length ≤ i) :
    (pokeAll (capitalised b) 5 str).mem i = b.mem i := by
  rw [pokeAll_mem_outside (Or.inr hi), capitalised_mem (by omega)]

/-- A line with an argument: the handlers look at the line alone. -/
theorem callCommand_argument (env : Env) (c : Core) (h : Delivers b cmdTerminator line)
    (hlen : 5 ≤ line.length) : (c.callCommand env b line.length).2 = c.command env line := by
  have hfits := h.fits
  rw [callCommand_dispatch env c h (by omega), command, argument_eq hlen hfits]
  cases hverb : verbOf line with
  | none => rfl
  | some verb =>
      cases verb with
      | ehlo =>
          simp only [if_neg (Nat.not_lt.mpr hlen)]
          exact ehlo_congr env c (reaches_line h hlen)
            (agree_line h hlen fun i hi => capitalised_mem hi)
      | helo =>
          simp only [if_neg (Nat.not_lt.mpr hlen)]
          exact helo_congr env c (reaches_line h hlen)
            (agree_line h hlen fun i hi => capitalised_mem hi)
      | mail =>
          simp only [dispatch, mail, accept_argument (b := b) (n := line.length - 5) (k := 5)
            (text "FROM:") rfl (by decide) (by decide) (by omega)]
          by_cases hshort : line.length < 10
          · rw [if_pos (by omega), if_pos ⟨hlen, hshort⟩]
          · have hlong : 10 ≤ line.length := Nat.le_of_not_lt hshort
            rw [if_neg (by omega), if_neg (by omega), Nat.sub_sub]
            exact mailPath_congr c (reaches_line h hlong)
              (agree_line h hlong fun i hi => edited_mem hi)
      | rcpt =>
          simp only [dispatch, rcpt, accept_argument (b := b) (n := line.length - 5) (k := 3)
            (text "TO:") rfl (by decide) (by decide) (by omega)]
          by_cases hshort : line.length < 8
          · rw [if_pos (by omega), if_pos ⟨hlen, hshort⟩]
          · have hlong : 8 ≤ line.length := Nat.le_of_not_lt hshort
            rw [if_neg (by omega), if_neg (by omega), Nat.sub_sub]
            exact rcptPath_congr c (reaches_line h hlong)
              (agree_line h hlong fun i hi => edited_mem hi)
      | data => rfl
      | rset => rfl
      | vrfy => rfl
      | noop => rfl
      | quit => rfl

/-- The span of a missing argument reaches to the end of the address space. -/
theorem bare_argument : (Span.mk 0 4).advance 5 = ⟨5, 2 ^ 64 - 1⟩ := rfl

theorem domain_bare {m : Mem} {n : Nat} (hlf : m 5 = lf) : domain m ⟨5, n + 1⟩ = none := by
  have hlabel : domainLabel m ⟨5, n + 1⟩ (n + 1) 0 true = none := by
    simp only [domainLabel, Nat.add_zero, hlf, Nat.zero_lt_succ, if_true]
    rfl
  simp only [domain, domainLoop, Nat.sub_zero, hlabel]

/-- A MAIL without an argument is always refused: its parameters would have to go on
to the end of the address space. -/
theorem callCommand_bare_mail (env : Env) (c : Core) (h : Delivers b cmdTerminator line)
    (hlen : line.length = 4) (hverb : verbOf line = some .mail) :
    (c.callCommand env b line.length).2 = c.reply .invalidParameters ∨
      ((c.reverseSet || !c.sessionBegun) = true ∧
        (c.callCommand env b line.length).2 = c.reply .badSequence) := by
  have hwindow : (pokeAll (capitalised b) 5 (text "FROM:")).tCheck = cmdTerminator := by
    rw [pokeAll_tCheck (by decide), capitalised_tCheck, h.window, if_neg (by omega)]
  have hstop : (pokeAll (capitalised b) 5 (text "FROM:")).mem 510 = cr := by
    rw [Buffer.mem_cap, hwindow]
    rfl
  have hreaches : Reaches ⟨5 + 5, 2 ^ 64 - 1 - 5⟩ 510 := by constructor <;> decide
  rw [callCommand_dispatch env c h (by omega), hverb, hlen, bare_argument]
  simp only [dispatch, mail, accept_argument (b := b) (n := 2 ^ 64 - 1) (k := 5)
    (text "FROM:") rfl (by decide) (by decide) (by decide)]
  rw [if_neg (by decide)]
  dsimp only
  generalize (pokeAll (capitalised b) 5 (text "FROM:")).mem = m at hstop ⊢
  exact mailPath_stopped c hreaches (Or.inr hstop) (by decide)

/-- A RCPT without an argument takes its path from the bytes behind the line. -/
theorem callCommand_bare_rcpt (env : Env) (c : Core) (h : Delivers b cmdTerminator line)
    (hlen : line.length = 4) (hverb : verbOf line = some .rcpt) :
    (c.callCommand env b line.length).2 =
      c.rcptPath (pokeAll (capitalised b) 5 (text "TO:")).mem ⟨8, 2 ^ 64 - 1 - 3⟩ := by
  rw [callCommand_dispatch env c h (by omega), hverb, hlen, bare_argument]
  simp only [dispatch, rcpt, accept_argument (b := b) (n := 2 ^ 64 - 1) (k := 3)
    (text "TO:") rfl (by decide) (by decide) (by decide)]
  rw [if_neg (by decide)]

/-- A greeting without an argument is refused, because the terminator's last byte
stands where its domain would start. -/
theorem dispatch_bare_greeting (env : Env) (c : Core) {m : Mem} (hlf : m 5 = lf) :
    c.ehlo env m ⟨5, 2 ^ 64 - 1⟩ = c.reply .invalidParameters ∧
      c.helo env m ⟨5, 2 ^ 64 - 1⟩ = c.reply .invalidParameters := by
  have hdomain : domain m ⟨5, 2 ^ 64 - 1⟩ = none := domain_bare (n := 2 ^ 64 - 2) hlf
  simp only [ehlo, helo, hdomain, and_self]

/-- Out of turn, or with no room left, RCPT does not look at its argument. -/
theorem rcptPath_refused {m m' : Mem} {sp sp' : Span}
    (h : ¬ (c.sessionBegun = true ∧ c.metadata.forwardPaths.length < c.maxForwardPaths)) :
    c.rcptPath m sp = c.rcptPath m' sp' := by
  simp only [rcptPath]
  by_cases hbegun : c.sessionBegun = true
  · have hfull : c.maxForwardPaths ≤ c.metadata.forwardPaths.length :=
      Nat.le_of_not_lt fun hroom => h ⟨hbegun, hroom⟩
    simp [hbegun, hfull]
  · simp [hbegun]

/-- The handlers look at the line alone, except those of a MAIL and a RCPT without an
argument. -/
theorem callCommand_eq (env : Env) (c : Core) (h : Delivers b cmdTerminator line)
    (hlf : line.length + 2 ≤ 510 → b.mem (line.length + 1) = lf)
    (recipient : ¬ StaleRecipient line c) (sender : ¬ StaleSender line c) :
    (c.callCommand env b line.length).2 = c.command env line := by
  rcases Nat.lt_trichotomy line.length 4 with hlt | hlen | hgt
  · simp only [callCommand_short env c hlt, command, verbOf, if_pos hlt]
  · have hlf : (capitalised b).mem 5 = lf := by
      rw [capitalised_mem (Nat.le_refl 5), ← hlf (by omega), hlen]
    have hdispatch := callCommand_dispatch env c h (by omega)
    rw [hlen, bare_argument] at hdispatch
    cases hverb : verbOf line with
    | none => simp only [hlen, hdispatch, hverb, command]
    | some verb =>
        cases verb with
        | ehlo =>
            simp only [hlen, hdispatch, hverb, command, dispatch,
              (dispatch_bare_greeting env c hlf).1, Nat.lt_succ_self, if_true]
        | helo =>
            simp only [hlen, hdispatch, hverb, command, dispatch,
              (dispatch_bare_greeting env c hlf).2, Nat.lt_succ_self, if_true]
        | mail =>
            have hcommand : c.command env line = c.reply .invalidParameters := by
              simp only [command, hverb, hlen]
              rfl
            rw [hcommand]
            rcases callCommand_bare_mail env c h hlen hverb with heq | ⟨hseq, -⟩
            · exact heq
            · exact absurd ⟨hlen, hverb, hseq⟩ sender
        | rcpt =>
            have hcommand : c.command env line = c.rcptPath (Mem.ofBytes line) ⟨8, 0⟩ := by
              simp only [command, hverb, hlen]
              rfl
            rw [callCommand_bare_rcpt env c h hlen hverb, hcommand]
            exact rcptPath_refused fun hroom => recipient ⟨hlen, hverb, hroom⟩
        | data => simp only [hlen, hdispatch, hverb, command, dispatch]
        | rset => simp only [hlen, hdispatch, hverb, command, dispatch]
        | vrfy => simp only [hlen, hdispatch, hverb, command, dispatch]
        | noop => simp only [hlen, hdispatch, hverb, command, dispatch]
        | quit => simp only [hlen, hdispatch, hverb, command, dispatch]
  · exact callCommand_argument env c h hgt

end CallCommand

end Core

/-- The handlers leave the match window alone. -/
theorem callCommand_tCheck (env : Env) (b : CmdBuffer) (len : Nat) (c : Core) :
    (c.callCommand env b len).1.tCheck = b.tCheck := by
  have haccept (sp : Span) (str : Bytes) (hroom : 5 + str.length ≤ 510) (hsp : sp.start = 5)
      (hupper : str.map toupper = str) :
      (accept (Core.capitalised b) sp str).1.tCheck = b.tCheck := by
    rw [accept_eq hupper (by rw [hsp]; exact hroom)]
    split
    · exact Core.capitalised_tCheck b
    · rw [pokeAll_tCheck (by rw [hsp]; exact hroom), Core.capitalised_tCheck]
  have hcapitalised := Core.capitalised_tCheck b
  rcases Nat.lt_or_ge len 4 with hshort | hlong
  · rw [Core.callCommand_short env c hshort]
  · rw [Core.callCommand_long env c hlong]
    cases tryGetCommand (Core.capitalised b).mem with
    | none => exact hcapitalised
    | some verb =>
        cases verb with
        | mail =>
            have h := haccept ((Span.mk 0 len).advance 5) (text "FROM:") (by decide) rfl (by decide)
            simp only [Core.dispatch, Core.mail]
            generalize accept (Core.capitalised b) _ (text "FROM:") = r at h ⊢
            obtain ⟨b', _ | sp⟩ := r <;> exact h
        | rcpt =>
            have h := haccept ((Span.mk 0 len).advance 5) (text "TO:") (by decide) rfl (by decide)
            simp only [Core.dispatch, Core.rcpt]
            generalize accept (Core.capitalised b) _ (text "TO:") = r at h ⊢
            obtain ⟨b', _ | sp⟩ := r <;> exact h
        | _ => exact hcapitalised

end Smtp

end Ervan
