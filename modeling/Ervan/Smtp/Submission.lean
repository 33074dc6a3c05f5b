import Ervan.Smtp.Client
import Ervan.Smtp.Concurrent
import Ervan.Smtp.MailText

/-!
# From a client to the spool directory

What a client submits is what is found in the directory, where the operations of its session work:
its mails are encoded, arrive in whatever chunks while the other sessions do what they like, and
every mail that is within the limits has a file of its own in the end, with the envelope and the
lines that the client has for it.
-/

namespace Ervan.Smtp

open Framing Grammar Interleaving Parse

/-- Neither of the uninitialised windows ends in a CR. -/
structure Memory.Unmatched (mem : Memory) : Prop where
  cmd : mem.cmdBuffer.tCheck.getLast? ≠ some cr
  line : mem.lineBuffer.tCheck.getLast? ≠ some cr

/-- The uninitialised error flag is not set either. -/
structure Memory.Clear (mem : Memory) : Prop extends mem.Unmatched where
  error : mem.dataError = false

theorem Service.hearAll_true (cfg : Config) (v : Service) (lines : List Bytes) :
    v.hearAll cfg ((List.replicate lines.length true).zip lines) =
      lines.foldl (fun v line => v.hear cfg true line) v := by
  induction lines generalizing v with
  | nil => rfl
  | cons line lines ih => exact ih (v.hear cfg true line)

/-- The lines of a client can be counted. -/
theorem Client.counted (c : Client) (fits : ∀ m ∈ c.mails, m.Fits) :
    ∀ line ∈ c.lines, line.length + 1 < 2 ^ 31 := by
  have hverb (verb : Verb) : verb.name.length + 1 < 2 ^ 31 := by
    rw [Core.name_length]
    decide
  have hcommand {line : Bytes} (h : line.length ≤ 510) : line.length + 1 < 2 ^ 31 := by omega
  refine forall_lines c ?_ (fun m hm => ?_) (hverb .quit)
  · have hshort : c.name.length ≤ 255 := c.short
    rw [commandLine, List.length_append, Core.name_length, List.length_cons]
    omega
  · have hfits := fits m hm
    refine forall_submission m (hcommand hfits.sender) (fun a ha => hcommand (hfits.recipients a ha))
      (hverb .data) (fun line hline => ?_) (by decide)
    have hlong := hfits.lines line hline
    have hstuffed := (stuff_length line).2
    omega

namespace Session

variable {env : Env} {cfg : Config} {mem : Memory} {chunks lines : List Bytes} {v : Service}

/-- A session whose operations all work serves as a service whose operations all work. -/
theorem serves_works (fixed : ∀ n, (env n).cfg = cfg) (room : cfg.maxmessagesize + 1024 < 2 ^ 64)
    (works : ∀ n, (env n).Works) (clear : mem.Clear) (removed : Nat → Bool)
    (sent : splitCrlf [] chunks.flatten = (lines, []))
    (counted : ∀ line ∈ lines, line.length + 1 < 2 ^ 31)
    (hears : Service.Hears cfg (Service.start cfg) lines v) :
    Serves env cfg removed ((∀ n, (env n).Works) ∧ mem.dataError = false) v
      ((start env mem).feedAll env chunks).toCore := by
  have posix (n : Nat) : (env n).told = true := (works n).told
  have hall : (∀ n, (env n).Works) ∧ mem.dataError = false := ⟨works, clear.error⟩
  have argued : Run.Along (Core.hear env) Core.Argued (start env mem).toCore lines := by
    refine hears.argued.transfer (R := fun v c => Serves env cfg removed _ v c) ?_ ?_
      (serves_start fixed removed mem)
    · intro v c line serves hline hstate
      refine hline ?_
      have hphase := serves.state
      rw [hstate] at hphase
      cases hv : v.phase with
      | cmd => rfl
      | data => rw [hv] at hphase; cases hphase
      | closed => rw [hv] at hphase; cases hphase
    · intro v c line serves hline
      obtain ⟨b, hb, hserves⟩ := serves.hear fixed posix room (fun hall => hall.1) hline
      rwa [hb hall] at hserves
  have byLine : ByLine env mem chunks := by
    refine ⟨clear.cmd, clear.line, ?_, ?_, ?_⟩
    · rwa [sent]
    · rw [sent]
      exact Nat.two_pow_pos 31
    · rwa [sent]
  obtain ⟨outcomes, hlength, hworks, hserves⟩ :=
    exists_serves env cfg fixed posix room removed mem chunks byLine
  have houtcomes : outcomes = List.replicate outcomes.length true :=
    List.eq_replicate_iff.mpr ⟨rfl, fun b hb => hworks b hb hall⟩
  rw [houtcomes, hlength, sent, Service.hearAll_true, hears.ends] at hserves
  exact hserves

end Session

namespace Server

variable {ι : Type} [DecidableEq ι]

/-- In every interleaving of any number of sessions in any number of processes, a client whose
session has received all it has sent, and whose operations all work, has got its replies, and its
mails are in the directory: those within the limits in their order, each in a file of its own that
no other session has created, and no others if the session has cleaned up. -/
theorem submits (S : Server ι) (d : Directory (Option ι)) (trace : List (ι × Happening))
    (h : S.Trace trace) (ready : Ready d trace) (i : ι) (n : Nat) (ended : (S.reached i n).2 = [])
    (rests : own i trace = S.happened i n) (cfg : Config) (fixed : ∀ k, (S.env i k).cfg = cfg)
    (room : cfg.maxmessagesize + 1024 < 2 ^ 64) (hroom : 0 < cfg.maxrcpt)
    (works : ∀ k, (S.env i k).Works) (clear : (S.mem i).Clear) (c : Client)
    (fits : ∀ m ∈ c.mails, m.Fits) (sent : (S.chunks i).flatten = terminated c.lines) :
    Smtp.replies (S.reached i n).1.log = c.replies cfg ∧
      (S.reached i n).1.state = (if c.quits then .closed else .cmd) ∧
      ∃ paths, S.Files d trace i n (Message.Filed (S.env i)) (accepted cfg c.name c.mails)
        paths := by
  obtain ⟨v, hears, hreplies, hmessages, hphase⟩ := Service.hears_client c fits hroom
  have hlines : splitCrlf [] (S.chunks i).flatten = (c.lines, []) := by
    rw [sent, splitCrlf_terminated c.clean]
  have hserves := Session.serves_works fixed room works clear (S.removed i) hlines
    (c.counted fits) hears
  rw [← reached_ended ended] at hserves
  have hfiled := hserves.filed
  rw [hmessages] at hfiled
  refine ⟨hserves.replies.trans hreplies, ?_, h.files ready rests hfiled⟩
  rw [hserves.state, hphase]
  cases c.quits <;> rfl

/-- A client with one mail from no sender to one recipient. -/
def visitor : Client where
  name := text "a"
  mails := [
    { sender := none
      parameters := []
      recipients := [⟨[], text "b", text "b", text "c",
        ⟨Or.inl rfl, .dotString (.one ⟨by decide, .of_all (by decide)⟩), by decide,
          .one ⟨by decide, .of_all (by decide)⟩, by decide⟩⟩]
      lines := [text "x"]
      known := .nil
      addressed := List.cons_ne_nil _ _
      clean := by decide }]
  quits := false
  domain := .one ⟨by decide, .of_all (by decide)⟩
  short := by decide

theorem submits_pair : ∃ path contents, (spool emptySpool pairTrace).lookup path = some contents ∧
    Message.Filed (pair.env false)
      ⟨{ from_ := text "a", forwardPaths := [text "b@c"] }, [text "x"]⟩ contents := by
  have hfits : ∀ m ∈ visitor.mails, m.Fits := by
    intro m hm
    rw [List.mem_singleton.mp hm]
    exact ⟨by decide, by decide, by decide⟩
  obtain ⟨-, -, paths, hfiles⟩ := submits pair emptySpool pairTrace trace_pair ready_pair
    false 10 (by decide +kernel) own_pairTrace_ended (pair.env false 0).cfg (fun _ => rfl)
    (by decide) (by decide)
    (fun _ => ⟨rfl, rfl, rfl, nofun⟩) ⟨⟨by decide, by decide⟩, rfl⟩ visitor hfits
    (by decide +kernel)
  have haccepted : accepted (pair.env false 0).cfg visitor.name visitor.mails =
      [⟨{ from_ := text "a", forwardPaths := [text "b@c"] }, [text "x"]⟩] := by decide +kernel
  rw [haccepted] at hfiles
  cases hfiles.found with
  | cons hfirst hrest =>
      obtain ⟨contents, hlookup, hfiled⟩ := hfirst
      exact ⟨_, contents, hlookup, hfiled⟩

end Server

end Ervan.Smtp
