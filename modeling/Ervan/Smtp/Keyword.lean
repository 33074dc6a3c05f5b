import Ervan.Smtp.Dispatch

/-!
# The keyword of an argument

`accept` stands between the argument of a MAIL or a RCPT and its path. It stores the keyword
over the client's bytes and then looks whether the keyword is there, so that all it asks for is
enough bytes.
-/

namespace Ervan.Smtp

open Parse Ervan.Smtp.Core

/-- The keyword that the argument of a verb starts with. -/
def keywordOf : Verb → Option Bytes
  | .mail => some (text "FROM:")
  | .rcpt => some (text "TO:")
  | _ => none

/-- The bytes begin with a keyword, in any case. -/
def Begins (keyword bs : Bytes) : Prop :=
  ∃ word rest, bs = word ++ rest ∧ word.map toupper = keyword

/-- The line is answered with 250. -/
def Acknowledges (env : Env) (b : CmdBuffer) (len : Nat) (c : Core) : Prop :=
  ∃ r : Reply, r.code = 250 ∧ Event.reply r ∈ (c.callCommand env b len).2.log.drop c.log.length

/-- What a handler that needs a keyword has to do with its argument, and `accept` for it. -/
structure KeywordRequired (b : CmdBuffer) (len : Nat) (sp : Span) (keyword : Bytes) : Prop where
  acknowledged : ∀ env c, Acknowledges env b len c → Begins keyword ((b.mem.read 0 len).drop 5)
  accepted : (accept (capitalised b) sp keyword).2.isSome = true ↔
    Begins keyword ((b.mem.read 0 len).drop 5)
  dropped : ∀ rest, (accept (capitalised b) sp keyword).2 = some rest →
    rest.start = sp.start + keyword.length ∧ rest.len + keyword.length = sp.len
  unchanged : (accept (capitalised b) sp keyword).2 = none →
    (accept (capitalised b) sp keyword).1 = capitalised b

theorem keyword_length {word keyword : Bytes} (h : word.map toupper = keyword) :
    word.length = keyword.length := by
  rw [← h, List.length_map]

section Acknowledged

variable {env : Env} {b : CmdBuffer} {len : Nat} {c c' : Core} {r : Reply}

theorem acknowledges_iff (hlog : (c.callCommand env b len).2.log = c.log ++ [.reply r]) :
    Acknowledges env b len c ↔ r.code = 250 := by
  simp [Acknowledges, hlog]

theorem keyword_facts {verb : Verb} {keyword : Bytes} (h : keywordOf verb = some keyword) :
    keyword.map toupper = keyword ∧ 0 < keyword.length ∧ 5 + keyword.length ≤ 510 := by
  cases verb <;> cases h <;> decide

/-- Without the keyword both handlers refuse the argument. -/
theorem dispatch_refused {verb : Verb} {keyword : Bytes} (h : keywordOf verb = some keyword)
    {sp : Span} (hnone : (accept b sp keyword).2 = none) :
    (c.dispatch env verb b sp).2 = c.reply .invalidParameters := by
  cases verb <;> cases h
  · simp only [dispatch, mail]
    generalize accept b sp (text "FROM:") = r at hnone ⊢
    obtain ⟨b', rest⟩ := r
    cases hnone
    rfl
  · simp only [dispatch, rcpt]
    generalize accept b sp (text "TO:") = r at hnone ⊢
    obtain ⟨b', rest⟩ := r
    cases hnone
    rfl

end Acknowledged

section Required

variable {b b' : CmdBuffer} {src rest keyword : Bytes} {offset offset' : Int} {len : Nat}
  {ec : Bool} {verb : Verb}

theorem begins_length {bs : Bytes} (h : Begins keyword bs) : keyword.length ≤ bs.length := by
  obtain ⟨word, rest, rfl, rfl⟩ := h
  simp

theorem begins_take {bs : Bytes} (h : Begins keyword bs) :
    (bs.take keyword.length).map toupper = keyword := by
  obtain ⟨word, rest, rfl, rfl⟩ := h
  rw [List.length_map, List.take_left' rfl]

theorem not_begins_short {bs : Bytes} (h : bs.length < 5 + keyword.length)
    (hkeyword : 0 < keyword.length) : ¬ Begins keyword (bs.drop 5) := by
  intro hbegins
  have hle := begins_length hbegins
  rw [List.length_drop] at hle
  omega

/-- A refused argument is answered with 501. -/
theorem keywordRequired_refused {sp : Span} (hcalls : calls b len = some (verb, sp))
    (hkeyword : keywordOf verb = some keyword)
    (haccept : accept (capitalised b) sp keyword = (capitalised b, none))
    (hnot : ¬ Begins keyword ((b.mem.read 0 len).drop 5)) :
    KeywordRequired b len sp keyword := by
  refine ⟨?_, ?_, ?_, ?_⟩
  · intro env c hack
    have hrefused : (c.callCommand env b len).2 = c.reply .invalidParameters := by
      rw [callCommand_calls, hcalls]
      exact dispatch_refused hkeyword (by rw [haccept])
    have hlog : (c.callCommand env b len).2.log = c.log ++ [.reply .invalidParameters] := by
      rw [hrefused]
      rfl
    exact absurd ((acknowledges_iff hlog).mp hack) (by decide)
  · rw [haccept]
    simp [hnot]
  · intro rest hrest
    rw [haccept] at hrest
    cases hrest
  · rw [haccept]
    exact fun _ => rfl

/-- The keyword is asked for where the argument is too short for it, and found where it is. On
every other line MAIL and RCPT do without. -/
theorem keywordRequired_iff {sp : Span}
    (h : join b src offset cmdTerminator = (b', offset', ⟨some len, rest, ec⟩))
    (hcalls : calls b' len = some (verb, sp)) (hkeyword : keywordOf verb = some keyword) :
    KeywordRequired b' len sp keyword ↔ (5 ≤ len ∧ len < 5 + keyword.length) ∨
      Begins keyword ((b'.mem.read 0 len).drop 5) := by
  have hline := delivers_of_join h
  have hlength : (b'.mem.read 0 len).length = len := Mem.length_read _ _ _
  have hfits := hline.fits
  rw [hlength] at hfits
  obtain ⟨hupper, hpos, hroom⟩ := keyword_facts hkeyword
  have hheard := hcalls
  rw [calls_eq hline, Option.map_eq_some_iff] at hheard
  obtain ⟨_, hverb, heq⟩ := hheard
  obtain ⟨rfl, rfl⟩ := Prod.mk.inj heq
  have hfour := (verbOf_eq_some.mp hverb).1
  by_cases hlen : 5 ≤ len
  · rw [argument_eq hlen hfits] at hcalls ⊢
    have haccept := accept_argument (b := b') (n := len - 5) keyword rfl hupper hroom (by omega)
    by_cases hshort : len - 5 < keyword.length
    · rw [if_pos hshort] at haccept
      have hnot := not_begins_short (show (b'.mem.read 0 len).length < _ by omega) hpos
      refine iff_of_true ?_ (Or.inl ⟨hlen, by omega⟩)
      exact keywordRequired_refused hcalls hkeyword haccept hnot
    · rw [if_neg hshort] at haccept
      have hsome : (accept (capitalised b') ⟨5, len - 5⟩ keyword).2.isSome = true := by
        rw [haccept]
        rfl
      constructor
      · intro required
        exact Or.inr (required.accepted.mp hsome)
      · rintro (⟨-, hshort'⟩ | hbegins)
        · omega
        · refine ⟨fun _ _ _ => hbegins, iff_of_true hsome hbegins, ?_, ?_⟩
          · intro rest hrest
            rw [haccept] at hrest
            cases hrest
            exact ⟨rfl, Nat.sub_add_cancel (Nat.le_of_not_lt hshort)⟩
          · intro hnone
            rw [hnone] at hsome
            cases hsome
  · obtain rfl : len = 4 := by omega
    rw [bare_argument]
    have haccept := accept_argument (b := b') (n := 2 ^ 64 - 1) keyword rfl hupper hroom (by decide)
    rw [if_neg (by omega)] at haccept
    have hsome : (accept (capitalised b') ⟨5, 2 ^ 64 - 1⟩ keyword).2.isSome = true := by
      rw [haccept]
      rfl
    have hnot := not_begins_short (show (b'.mem.read 0 4).length < _ by omega) hpos
    constructor
    · intro required
      exact Or.inr (required.accepted.mp hsome)
    · rintro (⟨hlong, -⟩ | hbegins)
      · omega
      · exact absurd hbegins hnot

/-- The keyword is not looked at. -/
theorem not_keywordRequired_other :
    ¬ ∀ (b b' : CmdBuffer) (src rest keyword : Bytes) (offset offset' : Int) (len : Nat) (ec : Bool)
      (verb : Verb) (sp : Span),
      join b src offset cmdTerminator = (b', offset', ⟨some len, rest, ec⟩) →
      calls b' len = some (verb, sp) → keywordOf verb = some keyword →
        KeywordRequired b' len sp keyword := by
  intro h
  have hjoin : (join Memory.zeroed.cmdBuffer (text "RCPT XXX<a@b>\r\n") 0 cmdTerminator).2 =
      (0, ⟨some 13, [], false⟩) := by decide +kernel
  have hcalls : calls (join Memory.zeroed.cmdBuffer (text "RCPT XXX<a@b>\r\n") 0
      cmdTerminator).1 13 = some (.rcpt, ⟨5, 8⟩) := by decide +kernel
  have hrequired := h _ _ _ _ (text "TO:") _ _ _ _ _ _ (join_eq hjoin) hcalls rfl
  have hbegins := begins_take (hrequired.accepted.mp (by decide +kernel))
  revert hbegins
  decide +kernel

theorem keywordRequired_rcpt :
    KeywordRequired (join Memory.zeroed.cmdBuffer (text "RCPT to:<a@b>\r\n") 0 cmdTerminator).1
      13 ⟨5, 8⟩ (text "TO:") := by
  have hjoin : (join Memory.zeroed.cmdBuffer (text "RCPT to:<a@b>\r\n") 0 cmdTerminator).2 =
      (0, ⟨some 13, [], false⟩) := by decide +kernel
  have hcalls : calls (join Memory.zeroed.cmdBuffer (text "RCPT to:<a@b>\r\n") 0
      cmdTerminator).1 13 = some (.rcpt, ⟨5, 8⟩) := by decide +kernel
  exact (keywordRequired_iff (join_eq hjoin) hcalls rfl).mpr
    (Or.inr ⟨text "to:", text "<a@b>", by decide +kernel, by decide⟩)

end Required

end Ervan.Smtp
