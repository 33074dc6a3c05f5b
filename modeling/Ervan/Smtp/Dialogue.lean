import Mathlib.Data.List.Forall2
import Ervan.Smtp.History

/-!
# The dialogue

What a client knows of its session: the lines it has sent and how they were answered.
It is a function of the log alone. After every step the members of the session agree
with it, as far as the lines name what was accepted.
-/

namespace Ervan.Smtp

/-- What the accepted commands of a client have announced. -/
structure Dialogue where
  /-- The command line that has not been answered. -/
  line : Option Bytes := none
  /-- The domain of the last accepted EHLO or HELO. -/
  greeting : Option Bytes := none
  /-- RSET or the end of a data phase has come since. -/
  renewed : Bool := false
  /-- The sender of the MAIL accepted since the last reset. -/
  sender : Option Bytes := none
  /-- The recipients accepted since the last reset. A RCPT without an argument names none. -/
  recipients : List (Option Bytes) := []
  /-- The recipients accepted since the MAIL. -/
  later : List (Option Bytes) := []
  deriving DecidableEq, Repr

namespace Dialogue

/-- A new transaction begins, under the same greeting. -/
def renew (d : Dialogue) : Dialogue := { greeting := d.greeting, renewed := true }

/-- A command line has been answered with 250. -/
def accepted (d : Dialogue) (line : Bytes) : Dialogue :=
  match verbOf line with
  | some .ehlo => { greeting := greetingOf line }
  | some .helo => { greeting := greetingOf line }
  | some .mail => { d with sender := senderOf line, later := [] }
  | some .rcpt =>
      { d with
        recipients := d.recipients ++ [recipientOf line]
        later := d.later ++ [recipientOf line] }
  | some .rset => d.renew
  | _ => d

/-- The data phase ends when the spool file is closed. -/
def hear (d : Dialogue) : Event → Dialogue
  | .line line => { d with line := some line }
  | .reply r =>
      match d.line with
      | some line => { (if r.code = 250 then d.accepted line else d) with line := none }
      | none => d
  | .close _ => d.renew
  | _ => d

variable {d : Dialogue} {line : Bytes} {r : Reply} {es : List Event}

theorem hear_accepted (hline : d.line = some line) (h : r.code = 250) :
    d.hear (.reply r) = { d.accepted line with line := none } := by
  simp [hear, hline, h]

theorem hear_refused (h : r.code ≠ 250) : d.hear (.reply r) = { d with line := none } := by
  obtain ⟨_ | line, greeting, renewed, sender, recipients, later⟩ := d
  · rfl
  · simp [hear, h]

/-- What is accepted does not depend on what has not been answered. -/
theorem accepted_setLine (d : Dialogue) (unanswered : Option Bytes) (line : Bytes) :
    { ({ d with line := unanswered } : Dialogue).accepted line with line := none } =
      { d.accepted line with line := none } := by
  unfold accepted
  cases verbOf line with
  | none => rfl
  | some verb => cases verb <;> rfl

/-- The client hears nothing of the operations on the spool file. -/
theorem hear_file (h : ∀ e ∈ es, e.isFile = true ∨ ∃ path ok, e = Event.open_ path ok) :
    es.foldl hear d = d := by
  induction es with
  | nil => rfl
  | cons e es ih =>
      have hhead : d.hear e = d := by
        rcases h e (by simp) with hfile | ⟨path, ok, rfl⟩
        · cases e with
          | line bytes => cases hfile
          | reply r => cases hfile
          | close contents => cases hfile
          | _ => rfl
        · rfl
      rw [List.foldl_cons, hhead]
      exact ih fun e he => h e (List.mem_cons_of_mem _ he)

end Dialogue

/-- The dialogue that a log records. -/
def dialogue (log : List Event) : Dialogue := log.foldl Dialogue.hear {}

theorem dialogue_append (log es : List Event) :
    dialogue (log ++ es) = es.foldl Dialogue.hear (dialogue log) := List.foldl_append

/-- The name, where there is one, is that of the path. -/
def Names (name : Option Bytes) (path : Bytes) : Prop := ∀ p, name = some p → p = path

/-- The members of a session say what the dialogue says. -/
structure Agrees (d : Dialogue) (c : Core) : Prop where
  sender : d.sender = if c.reverseSet then some c.metadata.reversePath else none
  later : List.Forall₂ Names d.later c.metadata.forwardPaths
  room : c.metadata.forwardPaths.length ≤ c.maxForwardPaths
  greeting : ∀ g, d.greeting = some g → c.metadata.from_ = if d.renewed then [] else g
  data : c.state = .data → c.reverseSet = true ∧ c.metadata.forwardPaths ≠ []

namespace Core

variable {env : Env} {exact : Prop} {line : Bytes} {c c' : Core} {d : Dialogue}

@[simp] theorem dialogue_reply (c : Core) (r : Reply) :
    dialogue (c.reply r).log = (dialogue c.log).hear (.reply r) := dialogue_append _ _

@[simp] theorem dialogue_line (c : Core) (line : Bytes) :
    dialogue (c.emit (.line line)).log = { dialogue c.log with line := some line } :=
  dialogue_append _ _

theorem Steps.dialogue (h : Steps env c c') : dialogue c'.log = dialogue c.log := by
  obtain ⟨es, hlog, hfile, -⟩ := h.log
  rw [hlog, dialogue_append, Dialogue.hear_file fun e he => Or.inl (hfile e he)]

theorem openFiles_dialogue (env : Env) (c : Core) :
    Smtp.dialogue (c.openFiles env).1.log = Smtp.dialogue c.log := by
  obtain ⟨path, ok, es, hlog, hfile, -⟩ := (openFiles_opened env c).log
  rw [hlog, dialogue_append, Dialogue.hear_file]
  intro e he
  rcases List.mem_cons.mp he with rfl | he
  · exact Or.inr ⟨path, ok, rfl⟩
  · exact Or.inl (hfile e he)

/-- The end of the data begins a new transaction. -/
theorem Ended.dialogue (h : Ended env c c') :
    Smtp.dialogue c'.log = (Smtp.dialogue c.log).renew := by
  have haborted (c₁ : Core) (hsteps : Steps env c c₁) :
      Smtp.dialogue (c₁.abortData env).log = (Smtp.dialogue c.log).renew := by
    rw [abortData_log, dialogue_append, hsteps.dialogue]
    cases c₁.abortReply <;> rfl
  cases h with
  | tooLong h => exact haborted c (Steps.refl env c)
  | finished short small _ h =>
      cases h with
      | unknown h => exact haborted _ (tellg_steps env c)
      | failed known c₁ h error => exact haborted c₁ h
      | done known c₁ h clear eq accepted =>
          rw [finishReply_eq, dialogue_append, h.dialogue]
          rfl

end Core

namespace Agrees

open Ervan.Smtp.Core

variable {env : Env} {exact : Prop} {line : Bytes} {c c' : Core} {d : Dialogue}

/-- A session in the state after construction or a reset. -/
theorem reset (hstate : c.state ≠ .data) (hunset : c.reverseSet = false)
    (hpaths : c.metadata.forwardPaths = []) (hsender : d.sender = none) (hlater : d.later = [])
    (hgreeting : ∀ g, d.greeting = some g → c.metadata.from_ = if d.renewed then [] else g) :
    Agrees d c where
  sender := by rw [hsender, hunset]; rfl
  later := by rw [hlater, hpaths]; exact .nil
  room := by rw [hpaths]; exact Nat.zero_le _
  greeting := hgreeting
  data hdata := absurd hdata hstate

/-- What is not said in the dialogue, and does not enter the data state, may change. -/
theorem congr (h : Agrees d c) (hmetadata : c'.metadata = c.metadata)
    (hset : c'.reverseSet = c.reverseSet) (hmax : c'.maxForwardPaths = c.maxForwardPaths)
    (hdata : c'.state = .data → c.reverseSet = true ∧ c.metadata.forwardPaths ≠ []) :
    Agrees d c' where
  sender := by rw [hset, hmetadata]; exact h.sender
  later := by rw [hmetadata]; exact h.later
  room := by rw [hmetadata, hmax]; exact h.room
  greeting := by rw [hmetadata]; exact h.greeting
  data hstate := by rw [hset, hmetadata]; exact hdata hstate

/-- A line that has not been answered does not count. -/
theorem setLine (h : Agrees d c) (line : Option Bytes) :
    Agrees { d with line := line } c := ⟨h.sender, h.later, h.room, h.greeting, h.data⟩

theorem refused (h : Agrees (dialogue c.log) c) {r : Reply} (hcode : r.code ≠ 250) :
    Agrees (dialogue (c.reply r).log) (c.reply r) := by
  rw [dialogue_reply, Dialogue.hear_refused hcode]
  exact (h.setLine none).congr rfl rfl rfl h.data

theorem greetingOf_named {p : Prop} {domain : Bytes}
    (named : p ∨ 5 ≤ line.length → greetingOf line = some domain) :
    Names (greetingOf line) domain := by
  intro g hg
  by_cases hlen : 5 ≤ line.length
  · exact Option.some.inj (hg.symm.trans (named (Or.inr hlen)))
  · rw [greetingOf, if_pos (Nat.lt_of_not_le hlen)] at hg
    cases hg

theorem recipientOf_named {path : Bytes} (named : 5 ≤ line.length → recipientOf line = some path) :
    Names (recipientOf line) path := by
  intro p hp
  by_cases hlen : 5 ≤ line.length
  · exact Option.some.inj (hp.symm.trans (named hlen))
  · rw [recipientOf, if_pos (by omega)] at hp
    cases hp

/-- Opening the files changes nothing of it, whatever state comes next. -/
theorem opened (h : Agrees (dialogue c.log) c) (hfile : c'.metadata = (c.openFiles env).1.metadata)
    (hset : c'.reverseSet = (c.openFiles env).1.reverseSet)
    (hmax : c'.maxForwardPaths = (c.openFiles env).1.maxForwardPaths)
    (hlog : c'.log = (c.openFiles env).1.log)
    (hdata : c'.state = .data → c.reverseSet = true ∧ c.metadata.forwardPaths ≠ []) :
    Agrees (dialogue c'.log) c' := by
  have hopened := openFiles_opened env c
  rw [hlog, openFiles_dialogue]
  exact h.congr (hfile.trans (hopened.same Core.metadata fun _ _ _ _ => rfl))
    (hset.trans (hopened.same Core.reverseSet fun _ _ _ _ => rfl))
    (hmax.trans (hopened.same Core.maxForwardPaths fun _ _ _ _ => rfl)) hdata

/-- A command keeps the members and the dialogue in agreement. -/
theorem commanded (h : Agrees (dialogue c.log) c)
    (hline : (dialogue c.log).line = some line) (step : Commanded env exact line c c') :
    Agrees (dialogue c'.log) c' := by
  cases step with
  | refused r hcode => exact h.refused hcode
  | noop verb =>
      rw [dialogue_reply, Dialogue.hear_accepted hline rfl, Dialogue.accepted, verb]
      exact (h.setLine none).congr rfl rfl rfl h.data
  | greeted domain r code verb named =>
      have hlog : dialogue ((c.greeted env domain).reply r).log =
          { greeting := greetingOf line } := by
        rw [dialogue_reply]
        refine (Dialogue.hear_accepted hline code).trans ?_
        rcases verb with verb | verb <;> rw [Dialogue.accepted, verb]
      rw [hlog]
      exact reset (fun h => by cases h) rfl rfl rfl rfl fun g hg =>
        (greetingOf_named named g hg).symm
  | sender path verb begun unset named =>
      have hlog : dialogue ((c.senderSet path).reply .ok).log =
          { dialogue c.log with sender := some path, later := [], line := none } := by
        rw [dialogue_reply]
        refine (Dialogue.hear_accepted hline rfl).trans ?_
        rw [Dialogue.accepted, verb]
        exact congrArg (fun s => Dialogue.mk none _ _ s _ []) named
      rw [hlog]
      exact ⟨rfl, .nil, Nat.zero_le _, h.greeting, fun hdata =>
        absurd (h.data hdata).1 (by rw [unset]; decide)⟩
  | recipient path verb begun room named =>
      have hlog : dialogue ((c.recipientAdded path).reply .ok).log =
          { dialogue c.log with
            recipients := (dialogue c.log).recipients ++ [recipientOf line]
            later := (dialogue c.log).later ++ [recipientOf line]
            line := none } := by
        rw [dialogue_reply]
        refine (Dialogue.hear_accepted hline rfl).trans ?_
        rw [Dialogue.accepted, verb]
      rw [hlog]
      refine ⟨h.sender, List.rel_append h.later (.cons (recipientOf_named named) .nil), ?_,
        h.greeting, fun hdata => ⟨(h.data hdata).1, by simp [recipientAdded, reply, emit]⟩⟩
      change (c.metadata.forwardPaths ++ [path]).length ≤ c.maxForwardPaths
      rw [List.length_append]
      exact room
  | notOpened verb failed =>
      have hstate : (c.openFiles env).1.state = c.state :=
        (openFiles_opened env c).same Core.state fun _ _ _ _ => rfl
      have hagrees : Agrees (dialogue (c.openFiles env).1.log) (c.openFiles env).1 :=
        h.opened rfl rfl rfl rfl fun hdata => h.data (hstate.symm.trans hdata)
      exact hagrees.refused (by decide)
  | entered verb set recipients opened =>
      have hagrees : Agrees (dialogue (c.openFiles env).1.dataEntered.log)
          (c.openFiles env).1.dataEntered :=
        h.opened rfl rfl rfl rfl fun _ => ⟨set, recipients⟩
      exact hagrees.refused (by decide)
  | reset verb =>
      have hlog : dialogue ((c.reset env).reply .ok).log =
          { greeting := (dialogue c.log).greeting, renewed := true } := by
        rw [dialogue_reply]
        refine (Dialogue.hear_accepted hline rfl).trans ?_
        rw [Dialogue.accepted, verb]
        rfl
      rw [hlog]
      exact reset (fun h => by cases h) rfl rfl rfl rfl fun g hg => rfl
  | closed verb r hcode =>
      exact (h.refused hcode).congr rfl rfl rfl fun hdata => by cases hdata

/-- Every step keeps the members and the dialogue in agreement. -/
theorem turned (h : Agrees (dialogue c.log) c) (step : Turned env exact c c') :
    Agrees (dialogue c'.log) c' := by
  cases step with
  | idle => exact h
  | longCommand state => exact h.refused (by decide)
  | command state line _ step =>
      refine commanded ?_ (by rw [dialogue_line]) step
      rw [dialogue_line]
      exact (h.setLine (some line)).congr rfl rfl rfl h.data
  | longData state => exact h.congr rfl rfl rfl h.data
  | stored state line =>
      have hsteps := store_steps env line c
      rw [hsteps.dialogue, measureLine_eq]
      rw [measureLine_eq] at hsteps
      exact h.congr (hsteps.same Core.metadata fun _ _ _ _ => rfl)
        (hsteps.same Core.reverseSet fun _ _ _ _ => rfl)
        (hsteps.same Core.maxForwardPaths fun _ _ _ _ => rfl) fun _ => h.data state
  | ended state =>
      have hended := endData_ended env c
      obtain ⟨hstate, hmetadata, hunset⟩ := hended.eq
      rw [hended.dialogue]
      exact reset (by rw [hstate]; decide) hunset (by rw [hmetadata]) rfl rfl fun g _ => by
        rw [hmetadata]; rfl

end Agrees

open Ervan.Smtp.Core

/-- What is known of a MAIL and of a RCPT that are answered with 250. -/
theorem Core.Commanded.of_accepted {env : Env} {exact : Prop} {line : Bytes} {c c' : Core}
    (h : Commanded env exact line c c') {es : List Event} {r : Reply}
    (hlog : c'.log = c.log ++ (es ++ [.reply r])) (code : r.code = 250) :
    (verbOf line = some .mail → c.reverseSet = false ∧ (senderOf line).isSome = true) ∧
      (verbOf line = some .rcpt → c.sessionBegun = true ∧
        c.metadata.forwardPaths.length < c.maxForwardPaths ∧
        (5 ≤ line.length → (recipientOf line).isSome = true)) := by
  have hother {verb verb' : Verb} (h : verbOf line = some verb) (hne : verb ≠ verb') {p : Prop}
      (h' : verbOf line = some verb') : p :=
    absurd (Option.some.inj (h.symm.trans h')) hne
  cases h with
  | refused r' hcode =>
      have hlast := congrArg List.getLast? (List.append_cancel_left hlog)
      rw [List.getLast?_concat] at hlast
      cases hlast
      exact absurd code hcode
  | sender path verb begun unset named =>
      exact ⟨fun _ => ⟨unset, by rw [named]; rfl⟩, hother verb (by decide)⟩
  | recipient path verb begun room named =>
      exact ⟨hother verb (by decide), fun _ => ⟨begun, room, fun hlen => by rw [named hlen]; rfl⟩⟩
  | greeted _ _ _ verb _ =>
      rcases verb with verb | verb <;>
        exact ⟨hother verb (by decide), hother verb (by decide)⟩
  | noop verb => exact ⟨hother verb (by decide), hother verb (by decide)⟩
  | notOpened verb _ => exact ⟨hother verb (by decide), hother verb (by decide)⟩
  | entered verb _ _ _ => exact ⟨hother verb (by decide), hother verb (by decide)⟩
  | reset verb => exact ⟨hother verb (by decide), hother verb (by decide)⟩
  | closed verb _ _ => exact ⟨hother verb (by decide), hother verb (by decide)⟩

/-- A property of the dialogue, other than of the line that has not been answered, is kept
by every step if a new transaction and the accepted command keep it. -/
theorem dialogue_turned {I : Dialogue → Prop} {env : Env} {exact : Prop} {c c' : Core}
    (hline : ∀ d line, I d → I { d with line := line }) (hrenew : ∀ d, I d → I d.renew)
    (step : Turned env exact c c')
    (haccepted : ∀ line es r, c'.log = c.log ++ (.line line :: (es ++ [.reply r])) →
      r.code = 250 → Commanded env exact line (c.emit (.line line)) c' →
      I ((dialogue c.log).accepted line))
    (h : I (dialogue c.log)) : I (dialogue c'.log) := by
  cases step with
  | idle => exact h
  | longCommand state =>
      rw [dialogue_reply, Dialogue.hear_refused (by decide)]
      exact hline _ none h
  | command state line _ step =>
      obtain ⟨es, r, hlog, hes⟩ := step.log
      rw [hlog, dialogue_append, dialogue_line, List.foldl_append, Dialogue.hear_file hes]
      by_cases code : r.code = 250
      · have hnext := haccepted line es r (by rw [hlog, emit_log]; simp) code step
        rw [List.foldl_cons, List.foldl_nil, Dialogue.hear_accepted rfl code,
          Dialogue.accepted_setLine]
        exact hline _ none hnext
      · rw [List.foldl_cons, List.foldl_nil, Dialogue.hear_refused code]
        exact hline (dialogue c.log) none h
  | longData state => exact h
  | stored state line =>
      rw [(store_steps env line c).dialogue, measureLine_eq]
      exact h
  | ended state =>
      rw [(endData_ended env c).dialogue]
      exact hrenew _ h

end Ervan.Smtp
