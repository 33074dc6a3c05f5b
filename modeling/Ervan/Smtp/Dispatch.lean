import Ervan.Common.Holds
import Ervan.Smtp.CommandLine
import Ervan.Smtp.History

/-!
# Which handler a line is given to

`call_command` looks at four bytes of a line, writes a NUL over the fifth and cuts the argument
out behind it. What the fifth byte was, and whether there was one, makes no difference.
-/

namespace Ervan.Smtp

open Parse Ervan.Smtp.Core

/-- The handler that `callCommand` invokes on a line of so many bytes, and its argument. -/
def calls (b : CmdBuffer) (len : Nat) : Option (Verb × Span) := (called b len).2

theorem callCommand_calls (env : Env) (b : CmdBuffer) (len : Nat) (c : Core) :
    (c.callCommand env b len).2 = (calls b len).elim (c.reply .invalidCommand) fun call =>
      (c.dispatch env call.1 (capitalised b) call.2).2 := by
  unfold calls
  rcases Nat.lt_or_ge len 4 with hshort | hlong
  · rw [callCommand_short env c hshort, called_short hshort]
    rfl
  · rw [callCommand_long env c hlong, called_long hlong]
    cases tryGetCommand (capitalised b).mem <;> rfl

/-- What is left when the handler of the verb has been run on the buffer with the argument. -/
def Ran (env : Env) (verb : Verb) (b : CmdBuffer) (sp : Span) (c : Core) (r : CmdBuffer × Core) :
    Prop :=
  match verb with
  | .ehlo => r = (b, c.ehlo env b.mem sp)
  | .helo => r = (b, c.helo env b.mem sp)
  | .mail => r = c.mail b sp
  | .rcpt => r = c.rcpt b sp
  | .data => r = (b, c.data env)
  | .rset => r = (b, c.rset env)
  | .vrfy => r = (b, c.vrfy)
  | .noop => r = (b, c.noop)
  | .quit => r = (b, c.quit env)

theorem ran_of_calls {b : CmdBuffer} {len : Nat} {verb : Verb} {sp : Span}
    (h : calls b len = some (verb, sp)) (env : Env) (c : Core) :
    Ran env verb (capitalised b) sp c (c.callCommand env b len) := by
  unfold calls at h
  rcases Nat.lt_or_ge len 4 with hshort | hlong
  · rw [called_short hshort] at h
    cases h
  · rw [called_long hlong] at h
    obtain ⟨verb', hverb, heq⟩ := Option.map_eq_some_iff.mp h
    obtain ⟨rfl, rfl⟩ := Prod.mk.inj heq
    rw [callCommand_long env c hlong, hverb]
    cases verb' <;> rfl

/-- A verb in any case, alone or with a space and an argument. -/
def CallsFor (line : Bytes) (verb : Verb) (argument : Bytes) : Prop :=
  ∃ word, word.map toupper = verb.name ∧
    ((line = word ∧ argument = []) ∨ line = word ++ 32 :: argument)

/-- The byte behind the verb. -/
def separator (line : Bytes) : Option UInt8 := (line.drop 4).head?

/-- The delivered line gets the handler of its verb, which is run with the line's own argument, or
none. -/
structure Dispatches (b : CmdBuffer) (len : Nat) : Prop where
  runs : ∀ verb sp, calls b len = some (verb, sp) →
    ∀ env c, Ran env verb (capitalised b) sp c (callCommand env b len c)
  handler : ∀ verb, (∃ sp, calls b len = some (verb, sp)) ↔
    ∃ argument, CallsFor (b.mem.read 0 len) verb argument
  argument : ∀ verb sp argument, calls b len = some (verb, sp) →
    CallsFor (b.mem.read 0 len) verb argument →
    sp.bytes (capitalised b).mem = argument ∧ (sp.len = 0 ∨ sp.start + sp.len ≤ len)
  refused : (∀ verb argument, ¬ CallsFor (b.mem.read 0 len) verb argument) →
    ∀ env c, (callCommand env b len c).2 = c.reply .invalidCommand

section Lines

variable {line argument : Bytes} {verb : Verb}

/-- The names of the verbs differ. -/
theorem verbOf_eq_some : verbOf line = some verb ↔
    4 ≤ line.length ∧ (line.take 4).map toupper = verb.name := by
  unfold verbOf
  split
  · simp
    omega
  · rename_i hlen
    have hlen := Nat.le_of_not_lt hlen
    generalize (line.take 4).map toupper = word
    constructor
    · intro hfind
      have hname := List.find?_some (p := fun verb : Verb => word == verb.name) hfind
      exact ⟨hlen, beq_iff_eq.mp hname⟩
    · rintro ⟨-, rfl⟩
      cases verb <;> rfl

theorem callsFor_iff : CallsFor line verb argument ↔ verbOf line = some verb ∧
    ((line.length = 4 ∧ argument = []) ∨ (separator line = some 32 ∧ argument = line.drop 5)) := by
  rw [verbOf_eq_some]
  constructor
  · rintro ⟨word, hword, ⟨rfl, rfl⟩ | rfl⟩
    · have hlen : line.length = 4 := by
        rw [← List.length_map toupper, hword, name_length]
      rw [List.take_of_length_le (by omega)]
      exact ⟨⟨by omega, hword⟩, Or.inl ⟨hlen, rfl⟩⟩
    · have hlen : word.length = 4 := by
        rw [← List.length_map toupper, hword, name_length]
      rw [List.take_left' hlen]
      refine ⟨⟨by simp; omega, hword⟩, Or.inr ⟨?_, ?_⟩⟩
      · rw [separator, List.drop_left' hlen]
        rfl
      · rw [List.append_cons, List.drop_left' (by simp [hlen])]
  · rintro ⟨⟨hlen, hword⟩, ⟨hfour, rfl⟩ | ⟨hblank, rfl⟩⟩
    · refine ⟨line, ?_, Or.inl ⟨rfl, rfl⟩⟩
      rwa [List.take_of_length_le (by omega)] at hword
    · refine ⟨line.take 4, hword, Or.inr ?_⟩
      have hdrop : line.drop 4 = 32 :: line.drop 5 := by
        have htail : (line.drop 4).tail = line.drop 5 := List.tail_drop
        rw [← htail]
        exact List.eq_cons_of_mem_head? hblank
      rw [← hdrop, List.take_append_drop]

end Lines

section Delivered

variable {b b' : CmdBuffer} {src rest : Bytes} {offset offset' : Int} {len : Nat} {ec : Bool}

/-- What `join` delivers. -/
theorem delivers_of_join
    (h : join b src offset cmdTerminator = (b', offset', ⟨some len, rest, ec⟩)) :
    Delivers b' cmdTerminator (b'.mem.read 0 len) := by
  have joined := join_joined (by decide) b src offset cmdTerminator
  rw [h] at joined
  cases joined with
  | line _ pre rest c eq quiet complete line delivers =>
      rwa [delivers.read]

theorem calls_eq (h : Delivers b cmdTerminator (b.mem.read 0 len)) :
    calls b len = (verbOf (b.mem.read 0 len)).map fun verb => (verb, (Span.mk 0 len).advance 5) := by
  have hlength : (b.mem.read 0 len).length = len := Mem.length_read _ _ _
  unfold calls
  rcases Nat.lt_or_ge len 4 with hshort | hlong
  · rw [called_short hshort, verbOf, if_pos (by omega)]
    rfl
  · rw [called_long hlong, ← tryGetCommand_capitalised h (by omega)]

/-- An argument is read where it stands in the line. -/
theorem argument_bytes (h : Delivers b cmdTerminator (b.mem.read 0 len)) (hlen : 5 ≤ len) :
    ((Span.mk 0 len).advance 5).bytes (capitalised b).mem = (b.mem.read 0 len).drop 5 := by
  have hfits := h.fits
  rw [Mem.length_read] at hfits
  rw [argument_eq hlen hfits, Span.bytes]
  have hsplit : b.mem.read 0 len = b.mem.read 0 5 ++ b.mem.read 5 (len - 5) := by
    rw [← Nat.zero_add 5, ← Mem.read_add, Nat.zero_add, Nat.add_sub_of_le hlen]
  rw [hsplit, List.drop_left' (Mem.length_read _ _ _)]
  exact Mem.read_congr fun i hlo _ => capitalised_mem hlo

/-- A line gets the right handler and argument if its verb is not all of it and a space follows
the verb, or if it has no verb. -/
theorem dispatches_iff
    (h : join b src offset cmdTerminator = (b', offset', ⟨some len, rest, ec⟩)) :
    Dispatches b' len ↔
      ((verbOf (b'.mem.read 0 len)).isSome = true → separator (b'.mem.read 0 len) = some 32) := by
  have hline := delivers_of_join h
  have hcalls := calls_eq hline
  have hlength : (b'.mem.read 0 len).length = len := Mem.length_read _ _ _
  constructor
  · intro dispatches hverb
    obtain ⟨verb, hverb⟩ := Option.isSome_iff_exists.mp hverb
    rw [hverb] at hcalls
    obtain ⟨argument, hfor⟩ := (dispatches.handler verb).mp ⟨_, hcalls⟩
    obtain ⟨-, ⟨hlen, rfl⟩ | ⟨hblank, -⟩⟩ := callsFor_iff.mp hfor
    · have hbytes := (dispatches.argument verb _ _ hcalls hfor).1
      obtain rfl : len = 4 := by omega
      have hspan := congrArg List.length hbytes
      rw [Span.length_bytes, bare_argument] at hspan
      exact absurd hspan (by decide)
    · exact hblank
  · intro hblank
    refine ⟨fun verb sp => ran_of_calls, ?_, ?_, ?_⟩
    · intro verb
      constructor
      · rintro ⟨sp, hsp⟩
        rw [hcalls, Option.map_eq_some_iff] at hsp
        obtain ⟨verb', hverb, heq⟩ := hsp
        obtain rfl := (Prod.mk.inj heq).1
        exact ⟨_, callsFor_iff.mpr ⟨hverb, Or.inr ⟨hblank (by rw [hverb]; rfl), rfl⟩⟩⟩
      · rintro ⟨argument, hfor⟩
        rw [hcalls, (callsFor_iff.mp hfor).1]
        exact ⟨_, rfl⟩
    · intro verb sp argument hsp hfor
      obtain ⟨hverb, harg⟩ := callsFor_iff.mp hfor
      have hfive := hblank (by rw [hverb]; rfl)
      have hlong : 4 < (b'.mem.read 0 len).length := by
        by_contra hshort
        rw [separator, List.drop_eq_nil_of_le (by omega)] at hfive
        cases hfive
      obtain ⟨hshort, -⟩ | ⟨-, rfl⟩ := harg
      · omega
      · rw [hcalls, hverb] at hsp
        obtain rfl := (Prod.mk.inj (Option.some.inj hsp)).2
        have hfits := hline.fits
        refine ⟨argument_bytes hline (by omega), Or.inr ?_⟩
        rw [argument_eq (by omega) (by omega)]
        simp only
        omega
    · intro hnot env c
      have hnone : verbOf (b'.mem.read 0 len) = none := by
        rw [Option.eq_none_iff_forall_not_mem]
        intro verb hverb
        exact hnot verb _ (callsFor_iff.mpr ⟨hverb, Or.inr ⟨hblank (by rw [hverb]; rfl), rfl⟩⟩)
      rw [callCommand_calls, hcalls, hnone]
      rfl

theorem join_eq {r : Int × JoinResult} (h : (join b src offset cmdTerminator).2 = r) :
    join b src offset cmdTerminator = ((join b src offset cmdTerminator).1, r) := by
  rw [← h]

/-- Any byte behind the verb does. -/
theorem not_dispatches_tight :
    ¬ ∀ (b b' : CmdBuffer) (src rest : Bytes) (offset offset' : Int) (len : Nat) (ec : Bool),
      join b src offset cmdTerminator = (b', offset', ⟨some len, rest, ec⟩) →
        Dispatches b' len := by
  intro h
  have hjoin : (join Memory.zeroed.cmdBuffer (text "MAILxFROM:<>\r\n") 0 cmdTerminator).2 =
      (0, ⟨some 12, [], false⟩) := by decide +kernel
  have hblank := (dispatches_iff (join_eq hjoin)).mp (h _ _ _ _ _ _ _ _ (join_eq hjoin))
  revert hblank
  decide +kernel

theorem dispatches_mail :
    Dispatches (join Memory.zeroed.cmdBuffer (text "mail FROM:<>\r\n") 0 cmdTerminator).1 12 := by
  have hjoin : (join Memory.zeroed.cmdBuffer (text "mail FROM:<>\r\n") 0 cmdTerminator).2 =
      (0, ⟨some 12, [], false⟩) := by decide +kernel
  exact (dispatches_iff (join_eq hjoin)).mpr (by decide +kernel)

end Delivered

end Ervan.Smtp
