import Ervan.Common.Path
import Ervan.Smtp.Keyword
import Ervan.Smtp.Params

/-!
# What is acknowledged of a command

The parsers take a prefix and hand back the rest, and each handler has to see to that rest. Only
`mail` does: what a greeting or a RCPT has behind its domain or path goes unread, as does the
keyword of a MAIL or a RCPT.
-/

namespace Ervan.Smtp

open Parse Grammar Ervan.Smtp.Core

/-- The argument is what the grammar of the command describes. RCPT knows no parameters. -/
inductive Argument : Verb → Bytes → Prop
  | ehlo {x : Bytes} (h : Domain x) : Argument .ehlo x
  | helo {x : Bytes} (h : Domain x) : Argument .helo x
  | mail {k p t : Bytes} (hk : k.map toupper = text "FROM:") (hp : ReversePathText p)
      (ht : MailParams t) : Argument .mail (k ++ (p ++ t))
  | rcpt {k p : Bytes} (hk : k.map toupper = text "TO:") (hp : PathText p) :
      Argument .rcpt (k ++ p)

/-- What the handlers accept of an argument, and what they leave of it. -/
inductive Taken : Verb → Bytes → Bytes → Prop
  | ehlo {p t : Bytes} (h : DomainRead p t) (size : p.length ≤ domainMaxSize) :
      Taken .ehlo (p ++ t) t
  | helo {p t : Bytes} (h : DomainRead p t) (size : p.length ≤ domainMaxSize) :
      Taken .helo (p ++ t) t
  | mail {k p t : Bytes} (hk : k.length = 5) (hp : ReversePathText p) (ht : MailParams t) :
      Taken .mail (k ++ (p ++ t)) []
  | rcpt {k p t : Bytes} (hk : k.length = 3) (hp : PathText p) : Taken .rcpt (k ++ (p ++ t)) t

/-- The lines that are accepted although not all of them has been read. -/
inductive HalfParsed (verb : Verb) (line : Bytes) : Prop
  /-- No space follows the verb. -/
  | tight {t : Bytes} (h : Taken verb (line.drop 5) t) (blank : separator line ≠ some 32)
  /-- Something follows the domain or the path. -/
  | trailing {t : Bytes} (h : Taken verb (line.drop 5) t) (ht : t ≠ [])
  /-- The last label of the domain is missing. -/
  | label (h : verb = .ehlo ∨ verb = .helo) (size : (line.drop 5).length ≤ domainMaxSize)
      (hread : DomainRead (line.drop 5) []) (hdomain : ¬ Domain (line.drop 5))
  /-- Something else stands where the keyword should. -/
  | keyword {t : Bytes} {k : Bytes} (hk : keywordOf verb = some k)
      (h : Taken verb (line.drop 5) t) (other : ¬ Begins k (line.drop 5))

/-- A 250 means that a space and an argument of the right form follow the verb. -/
def FullyParsed (b : CmdBuffer) (len : Nat) (verb : Verb) : Prop :=
  ∀ env c, Acknowledges env b len c →
    separator (b.mem.read 0 len) = some 32 ∧ Argument verb ((b.mem.read 0 len).drop 5)

section Grammars

variable {verb : Verb} {x t : Bytes}

/-- An argument of the right form leaves nothing. -/
theorem Argument.rest (h : Argument verb x) (taken : Taken verb x t) (hsmall : x.length < 2 ^ 64) :
    t = [] := by
  have hdomain {p t : Bytes} (h : Domain (p ++ t)) (hread : DomainRead p t) : t = [] := by
    have hwhole := (h.read until_nil).each
    exact (each_unique hread.each hread.until hwhole until_nil (List.append_nil _).symm).2
  cases taken with
  | ehlo hread size =>
      cases h with
      | ehlo h => exact hdomain h hread
  | helo hread size =>
      cases h with
      | helo h => exact hdomain h hread
  | mail hk hp ht => rfl
  | @rcpt k p t hk hp =>
      generalize hx : k ++ (p ++ t) = x at h hsmall
      cases h with
      | @rcpt k' p' hk' hp' =>
          have hlength : k.length = k'.length := hk.trans (keyword_length hk').symm
          obtain ⟨-, hrest⟩ := List.append_inj hx hlength
          have hsmall' : (p ++ t).length < 2 ^ 64 := by
            rw [hrest]
            rw [List.length_append] at hsmall
            omega
          exact (hp.unique hp' (hrest.trans (List.append_nil p').symm) hsmall').2

/-- What is taken whole, behind the right keyword, is an argument of the right form. -/
theorem Taken.argument (taken : Taken verb x []) (domain : verb = .ehlo ∨ verb = .helo → Domain x)
    (keyword : ∀ k, keywordOf verb = some k → Begins k x) : Argument verb x := by
  generalize ht : ([] : Bytes) = t at taken
  cases taken with
  | ehlo => exact .ehlo (domain (Or.inl rfl))
  | helo => exact .helo (domain (Or.inr rfl))
  | @mail k p t hk hp hparams =>
      obtain ⟨word, rest, heq, hword⟩ := keyword _ rfl
      have hlength : k.length = word.length := hk.trans (keyword_length hword).symm
      obtain ⟨rfl, -⟩ := List.append_inj heq hlength
      exact .mail hword hp hparams
  | @rcpt k p t hk hp =>
      obtain ⟨word, rest, heq, hword⟩ := keyword _ rfl
      have hlength : k.length = word.length := hk.trans (keyword_length hword).symm
      obtain ⟨rfl, -⟩ := List.append_inj heq hlength
      subst ht
      rw [List.append_nil]
      exact .rcpt hword hp

theorem Argument.begins (h : Argument verb x) {k : Bytes} (hk : keywordOf verb = some k) :
    Begins k x := by
  cases h with
  | ehlo h => cases hk
  | helo h => cases hk
  | mail hkeyword hp ht =>
      cases hk
      exact ⟨_, _, rfl, hkeyword⟩
  | rcpt hkeyword hp =>
      cases hk
      exact ⟨_, _, rfl, hkeyword⟩

theorem taken_mail_iff : (∃ t, Taken .mail x t) ↔
    5 ≤ x.length ∧ ∃ p t, x.drop 5 = p ++ t ∧ ReversePathText p ∧ MailParams t := by
  constructor
  · rintro ⟨t, taken⟩
    cases taken with
    | @mail k p t hk hp ht =>
        exact ⟨by simp; omega, p, t, List.drop_left' hk, hp, ht⟩
  · rintro ⟨hlen, p, t, heq, hp, ht⟩
    have taken := Taken.mail (k := x.take 5) (by simp [hlen]) hp ht
    rw [← heq, List.take_append_drop] at taken
    exact ⟨[], taken⟩

theorem taken_rcpt_iff : (∃ t, Taken .rcpt x t) ↔
    3 ≤ x.length ∧ ∃ p t, x.drop 3 = p ++ t ∧ PathText p := by
  constructor
  · rintro ⟨t, taken⟩
    cases taken with
    | @rcpt k p t hk hp =>
        exact ⟨by simp; omega, p, t, List.drop_left' hk, hp⟩
  · rintro ⟨hlen, p, t, heq, hp⟩
    have taken := Taken.rcpt (k := x.take 3) (t := t) (by simp [hlen]) hp
    rw [← heq, List.take_append_drop] at taken
    exact ⟨t, taken⟩

end Grammars

/-- The one reply is a 250 exactly on this condition. -/
def Answers (c c' : Core) (accepted : Prop) : Prop :=
  ∃ r : Reply, c'.log = c.log ++ [.reply r] ∧ (r.code = 250 ↔ accepted)

/-- The session is ready for the command. -/
def InTurn (c : Core) : Verb → Prop
  | .mail => c.sessionBegun = true ∧ c.reverseSet = false
  | .rcpt => c.sessionBegun = true ∧ c.metadata.forwardPaths.length < c.maxForwardPaths
  | _ => True

section Handlers

variable {m : Mem} {a : Nat} {bs : Bytes}

/-- The domain of a greeting. -/
theorem taken_greeting_iff {verb : Verb} (h : m.Holds a bs) (hverb : verb = .ehlo ∨ verb = .helo) :
    (∃ t, Taken verb bs t) ↔ (domain m ⟨a, bs.length⟩).isSome = true := by
  constructor
  · rintro ⟨t, taken⟩
    have hread : ∃ p, bs = p ++ t ∧ DomainRead p t ∧ p.length ≤ domainMaxSize := by
      rcases hverb with rfl | rfl
      · cases taken with
        | ehlo hread size => exact ⟨_, rfl, hread, size⟩
      · cases taken with
        | helo hread size => exact ⟨_, rfl, hread, size⟩
    obtain ⟨p, heq, hread, size⟩ := hread
    rw [(domain_eq_some h).mpr ⟨p, t, heq, hread, size, rfl⟩]
    rfl
  · intro hsome
    obtain ⟨r, hr⟩ := Option.isSome_iff_exists.mp hsome
    obtain ⟨p, t, rfl, hread, size, -⟩ := (domain_eq_some h).mp hr
    rcases hverb with rfl | rfl
    · exact ⟨t, .ehlo hread size⟩
    · exact ⟨t, .helo hread size⟩

theorem ehlo_answers (h : m.Holds a bs) (env : Env) (c : Core) :
    Answers c (c.ehlo env m ⟨a, bs.length⟩) (∃ t, Taken .ehlo bs t) := by
  rw [taken_greeting_iff h (.inl rfl)]
  cases hdomain : domain m ⟨a, bs.length⟩ with
  | none => exact ⟨.invalidParameters, by simp only [ehlo, hdomain]; rfl, by decide⟩
  | some r => exact ⟨_, by simp only [ehlo, hdomain]; rfl, iff_of_true rfl rfl⟩

theorem helo_answers (h : m.Holds a bs) (env : Env) (c : Core) :
    Answers c (c.helo env m ⟨a, bs.length⟩) (∃ t, Taken .helo bs t) := by
  rw [taken_greeting_iff h (.inr rfl)]
  cases hdomain : domain m ⟨a, bs.length⟩ with
  | none => exact ⟨.invalidParameters, by simp only [helo, hdomain]; rfl, by decide⟩
  | some r => exact ⟨_, by simp only [helo, hdomain]; rfl, iff_of_true rfl rfl⟩

theorem mailPath_answers (h : m.Holds a bs) (hnul : m (a + bs.length) = nul) (c : Core) :
    Answers c (c.mailPath m ⟨a, bs.length⟩)
      ((∃ p t, bs = p ++ t ∧ ReversePathText p ∧ MailParams t) ∧ InTurn c .mail) := by
  have hsome {p t : Bytes} (heq : bs = p ++ t) (hp : ReversePathText p) :
      ∃ r, reversePath m ⟨a, bs.length⟩ = some r ∧ r.rest = ⟨a + p.length, t.length⟩ := by
    obtain ⟨r, hr, hrest⟩ := isReversePath_iff.mpr ⟨p, t, heq, hp, rfl⟩
    exact ⟨r, (reversePath_eq_some h hnul).mpr hr, hrest⟩
  cases hpath : reversePath m ⟨a, bs.length⟩ with
  | none =>
      refine ⟨.invalidParameters, by simp only [mailPath, hpath]; rfl,
        iff_of_false (by decide) ?_⟩
      rintro ⟨⟨p, t, heq, hp, -⟩, -⟩
      obtain ⟨r, hr, -⟩ := hsome heq hp
      rw [hr] at hpath
      cases hpath
  | some r =>
      obtain ⟨p, t, heq, hp, hrest⟩ :=
        isReversePath_iff.mp ⟨r, (reversePath_eq_some h hnul).mp hpath, rfl⟩
      by_cases turn : c.sessionBegun = true ∧ c.reverseSet = false
      · subst heq
        obtain ⟨reply, hlog, hcode, -⟩ := mailPath_params hpath h.append.2 hrest turn.1 turn.2
        refine ⟨reply, hlog, hcode.trans ⟨fun ht => ⟨⟨p, t, rfl, hp, ht⟩, turn⟩, ?_⟩⟩
        rintro ⟨⟨p', t', heq, hp', ht'⟩, -⟩
        obtain ⟨r', hr', hrest'⟩ := hsome heq hp'
        rw [hpath] at hr'
        obtain rfl := Option.some.inj hr'
        have hlength : t.length = t'.length := congrArg Span.len (hrest.symm.trans hrest')
        rwa [(List.append_inj' heq hlength).2]
      · have hsequence : (c.reverseSet || !c.sessionBegun) = true := by
          cases hset : c.reverseSet with
          | true => rfl
          | false =>
              cases hbegun : c.sessionBegun with
              | true => exact absurd ⟨hbegun, hset⟩ turn
              | false => rfl
        exact ⟨.badSequence, by simp only [mailPath, hpath, hsequence, if_true]; rfl,
          iff_of_false (by decide) fun haccepted => turn haccepted.2⟩

theorem rcptPath_answers (h : m.Holds a bs) (hnul : m (a + bs.length) = nul) (c : Core) :
    Answers c (c.rcptPath m ⟨a, bs.length⟩)
      ((∃ p t, bs = p ++ t ∧ PathText p) ∧ InTurn c .rcpt) := by
  unfold rcptPath
  by_cases hbegun : c.sessionBegun = true
  · by_cases hroom : c.metadata.forwardPaths.length < c.maxForwardPaths
    · simp only [hbegun, Bool.not_true, Bool.false_eq_true, if_false, Nat.not_le.mpr hroom]
      cases hpath : path m ⟨a, bs.length⟩ with
      | none =>
          refine ⟨.invalidParameters, rfl, iff_of_false (by decide) ?_⟩
          rintro ⟨⟨p, t, heq, hp⟩, -⟩
          obtain ⟨r, hr, -⟩ := isPath_iff.mpr ⟨p, t, heq, hp, rfl⟩
          rw [(path_eq_some h hnul).mpr hr] at hpath
          cases hpath
      | some r =>
          obtain ⟨p, t, heq, hp, -⟩ := isPath_iff.mp ⟨r, (path_eq_some h hnul).mp hpath, rfl⟩
          exact ⟨.ok, rfl, iff_of_true rfl ⟨⟨p, t, heq, hp⟩, hbegun, hroom⟩⟩
    · simp only [hbegun, Bool.not_true, Bool.false_eq_true, if_false, Nat.not_lt.mp hroom, if_true]
      exact ⟨.tooManyRecipients, rfl, iff_of_false (by decide) fun haccepted =>
        hroom haccepted.2.2⟩
  · simp only [hbegun, Bool.not_false, if_true]
    exact ⟨.badSequence, rfl, iff_of_false (by decide) fun haccepted => hbegun haccepted.2.1⟩

end Handlers

/-- The four commands whose arguments are parsed. -/
def Parsed (verb : Verb) : Prop := verb = .ehlo ∨ verb = .helo ∨ verb = .mail ∨ verb = .rcpt

section Lines

variable {line : Bytes} {verb : Verb}

theorem holds_drop (hsmall : line.length < 2 ^ 64) {n : Nat} (hn : n ≤ line.length) :
    (Mem.ofBytes line).Holds n (line.drop n) := by
  have hline : (Mem.ofBytes line).Holds 0 (line.take n ++ line.drop n) := by
    rw [List.take_append_drop]
    exact .of_bytes hsmall
  have hdrop := hline.append.2
  rwa [List.length_take, Nat.min_eq_left hn, Nat.zero_add] at hdrop

theorem nul_behind {n : Nat} (hn : n ≤ line.length) :
    Mem.ofBytes line (n + (line.drop n).length) = nul := by
  rw [List.length_drop, Nat.add_sub_of_le hn]
  simp [Mem.ofBytes]

/-- When a line with an argument is answered with 250. -/
theorem command_answers (env : Env) (c : Core) (hlen : 5 ≤ line.length)
    (hsmall : line.length < 2 ^ 64) (hverb : verbOf line = some verb) (hparsed : Parsed verb) :
    Answers c (c.command env line) ((∃ t, Taken verb (line.drop 5) t) ∧ InTurn c verb) := by
  have hdrop (n : Nat) : line.length - n = (line.drop n).length := List.length_drop.symm
  rcases hparsed with rfl | rfl | rfl | rfl
  · simp only [command, hverb, if_neg (Nat.not_lt.mpr hlen), hdrop]
    obtain ⟨r, hlog, hcode⟩ := ehlo_answers (holds_drop hsmall hlen) env c
    exact ⟨r, hlog, hcode.trans ⟨fun taken => ⟨taken, trivial⟩, And.left⟩⟩
  · simp only [command, hverb, if_neg (Nat.not_lt.mpr hlen), hdrop]
    obtain ⟨r, hlog, hcode⟩ := helo_answers (holds_drop hsmall hlen) env c
    exact ⟨r, hlog, hcode.trans ⟨fun taken => ⟨taken, trivial⟩, And.left⟩⟩
  · rw [taken_mail_iff, List.length_drop, List.drop_drop]
    simp only [command, hverb]
    by_cases hshort : line.length < 10
    · rw [if_pos ⟨hlen, hshort⟩]
      exact ⟨.invalidParameters, rfl, iff_of_false (by decide) fun haccepted => by omega⟩
    · have hlong := Nat.le_of_not_lt hshort
      rw [if_neg (by omega), hdrop]
      obtain ⟨r, hlog, hcode⟩ := mailPath_answers (holds_drop hsmall hlong) (nul_behind hlong) c
      refine ⟨r, hlog, hcode.trans ?_⟩
      rw [show 5 ≤ line.length - 5 ↔ True from iff_true_intro (by omega), true_and]
  · rw [taken_rcpt_iff, List.length_drop, List.drop_drop]
    simp only [command, hverb]
    by_cases hshort : line.length < 8
    · rw [if_pos ⟨hlen, hshort⟩]
      exact ⟨.invalidParameters, rfl, iff_of_false (by decide) fun haccepted => by omega⟩
    · have hlong := Nat.le_of_not_lt hshort
      rw [if_neg (by omega), hdrop]
      obtain ⟨r, hlog, hcode⟩ := rcptPath_answers (holds_drop hsmall hlong) (nul_behind hlong) c
      refine ⟨r, hlog, hcode.trans ?_⟩
      rw [show 3 ≤ line.length - 5 ↔ True from iff_true_intro (by omega), true_and]

/-- The commands that are acknowledged are fully parsed unless one of these things is wrong with
what is taken of the line. -/
theorem not_halfParsed_iff (hsmall : line.length < 2 ^ 64) (hparsed : Parsed verb) :
    ¬ HalfParsed verb line ↔ ∀ t, Taken verb (line.drop 5) t →
      separator line = some 32 ∧ Argument verb (line.drop 5) := by
  have hsmall' : (line.drop 5).length < 2 ^ 64 := by
    rw [List.length_drop]
    omega
  constructor
  · intro hnot t taken
    have hblank : separator line = some 32 := by
      by_contra blank
      exact hnot (.tight taken blank)
    have hempty : t = [] := by
      by_contra ht
      exact hnot (.trailing taken ht)
    subst hempty
    refine ⟨hblank, taken.argument ?_ ?_⟩
    · intro hgreeting
      by_contra hdomain
      generalize hx : line.drop 5 = x at taken hdomain
      generalize ht : ([] : Bytes) = t at taken
      cases taken with
      | ehlo hread size =>
          subst ht
          rw [List.append_nil] at hx hdomain
          exact hnot (.label hgreeting (hx ▸ size) (hx ▸ hread) (hx ▸ hdomain))
      | helo hread size =>
          subst ht
          rw [List.append_nil] at hx hdomain
          exact hnot (.label hgreeting (hx ▸ size) (hx ▸ hread) (hx ▸ hdomain))
      | mail hk hp hparams => simp at hgreeting
      | rcpt hk hp => simp at hgreeting
    · intro k hk
      by_contra other
      exact hnot (.keyword hk taken other)
  · rintro hfull (⟨taken, blank⟩ | ⟨taken, ht⟩ | ⟨hgreeting, size, hread, hdomain⟩ |
      ⟨hk, taken, other⟩)
    · exact blank (hfull _ taken).1
    · exact ht ((hfull _ taken).2.rest taken hsmall')
    · rcases hgreeting with rfl | rfl
      · have taken := Taken.ehlo hread size
        rw [List.append_nil] at taken
        cases (hfull _ taken).2 with
        | ehlo h => exact hdomain h
      · have taken := Taken.helo hread size
        rw [List.append_nil] at taken
        cases (hfull _ taken).2 with
        | helo h => exact hdomain h
    · exact other ((hfull _ taken).2.begins hk)

end Lines

/-- A session that has been greeted, has no sender and accepts recipients. -/
def greeted : Core :=
  { (Session.start (fun _ => .ideal) .zeroed).toCore with sessionBegun := true, maxForwardPaths := 1 }

section Delivered

variable {b b' : CmdBuffer} {src rest : Bytes} {offset offset' : Int} {len : Nat} {ec : Bool}
  {verb : Verb}

/-- A line with an argument is acknowledged only if all of it has been parsed, unless it is one
of the half-parsed lines. -/
theorem fullyParsed_iff
    (h : join b src offset cmdTerminator = (b', offset', ⟨some len, rest, ec⟩)) (hlen : 5 ≤ len)
    (hverb : verbOf (b'.mem.read 0 len) = some verb) (hparsed : Parsed verb) :
    FullyParsed b' len verb ↔ ¬ HalfParsed verb (b'.mem.read 0 len) := by
  have hline := delivers_of_join h
  have hlength : (b'.mem.read 0 len).length = len := Mem.length_read _ _ _
  have hfits := hline.fits
  have hacknowledges (env : Env) (c : Core) : Acknowledges env b' len c ↔
      (∃ t, Taken verb ((b'.mem.read 0 len).drop 5) t) ∧ InTurn c verb := by
    have hcommand := callCommand_argument env c hline (by omega)
    rw [hlength] at hcommand
    obtain ⟨r, hlog, hcode⟩ := command_answers env c (by omega) (by omega) hverb hparsed
    rw [← hcommand] at hlog
    exact (acknowledges_iff hlog).trans hcode
  rw [not_halfParsed_iff (by omega) hparsed]
  constructor
  · intro hfull t taken
    have hturn : InTurn greeted verb := by
      rcases hparsed with rfl | rfl | rfl | rfl
      · trivial
      · trivial
      · exact ⟨rfl, rfl⟩
      · exact ⟨rfl, by decide⟩
    exact hfull _ _ ((hacknowledges (fun _ => .ideal) greeted).mpr ⟨⟨t, taken⟩, hturn⟩)
  · intro hfull env c hack
    obtain ⟨⟨t, taken⟩, -⟩ := (hacknowledges env c).mp hack
    exact hfull t taken

/-- A recipient is acknowledged whatever follows its path. -/
theorem not_fullyParsed_trailing :
    ¬ ∀ (b b' : CmdBuffer) (src rest : Bytes) (offset offset' : Int) (len : Nat) (ec : Bool)
      (verb : Verb), join b src offset cmdTerminator = (b', offset', ⟨some len, rest, ec⟩) →
      5 ≤ len → verbOf (b'.mem.read 0 len) = some verb → Parsed verb →
        FullyParsed b' len verb := by
  intro h
  have hjoin : (join Memory.zeroed.cmdBuffer (text "RCPT TO:<a@b>junk\r\n") 0 cmdTerminator).2 =
      (0, ⟨some 17, [], false⟩) := by decide +kernel
  have hverb : verbOf ((join Memory.zeroed.cmdBuffer (text "RCPT TO:<a@b>junk\r\n") 0
      cmdTerminator).1.mem.read 0 17) = some .rcpt := by decide +kernel
  have hargument : ((join Memory.zeroed.cmdBuffer (text "RCPT TO:<a@b>junk\r\n") 0
      cmdTerminator).1.mem.read 0 17).drop 5 = text "TO:" ++ (text "<a@b>" ++ text "junk") := by
    decide +kernel
  have hparsed : Parsed .rcpt := Or.inr (Or.inr (Or.inr rfl))
  have hfull := h _ _ _ _ _ _ _ _ _ (join_eq hjoin) (by decide) hverb hparsed
  refine (fullyParsed_iff (join_eq hjoin) (by decide) hverb hparsed).mp hfull
    (.trailing (t := text "junk") ?_ (by decide))
  rw [hargument]
  exact .rcpt (by decide) ⟨[], text "a", text "a", text "b", by decide, Or.inl rfl,
    .dotString (.one ⟨by decide, .of_all (by decide)⟩), by decide,
    .one ⟨by decide, .of_all (by decide)⟩, by decide⟩

theorem fullyParsed_greeting :
    FullyParsed (join Memory.zeroed.cmdBuffer (text "EHLO a\r\n") 0 cmdTerminator).1 6 .ehlo := by
  have hjoin : (join Memory.zeroed.cmdBuffer (text "EHLO a\r\n") 0 cmdTerminator).2 =
      (0, ⟨some 6, [], false⟩) := by decide +kernel
  have hargument : ((join Memory.zeroed.cmdBuffer (text "EHLO a\r\n") 0
      cmdTerminator).1.mem.read 0 6).drop 5 = text "a" := by decide +kernel
  refine (fullyParsed_iff (join_eq hjoin) (by decide) (by decide +kernel) (Or.inl rfl)).mpr
    ((not_halfParsed_iff (by rw [Mem.length_read]; decide) (Or.inl rfl)).mpr fun t taken => ?_)
  rw [hargument]
  exact ⟨by decide +kernel, .ehlo (.one ⟨by decide, .of_all (by decide)⟩)⟩

end Delivered

end Ervan.Smtp
