import Ervan.Smtp.Caller
import Ervan.Smtp.Submission

/-!
# A client and the server agree

A client that waits for every reply knows what has become of its mails: whichever files cannot be
opened, written or synchronised, the mails that it has a receipt for are those in the directory, and
no others. Only the position of a file is always told, without which a client would wait in vain.
-/

namespace Ervan.Smtp

open Framing Grammar Interleaving Parse

namespace Session

/-- A client that waits and a session, after so many turns. -/
def conversed (env : Env) (mem : Memory) (c : Client) (n : Nat) : Caller × Core :=
  (Conversation.turn Caller.speaker (Core.hear env) fun c => replies c.log)^[n]
    (Caller.start c, (start env mem).toCore)

/-- What the client has sent until then. -/
def spoken (env : Env) (mem : Memory) (c : Client) (n : Nat) : List Bytes :=
  Conversation.said Caller.speaker (Core.hear env) (fun c => replies c.log) n
    (Caller.start c, (start env mem).toCore)

variable {env : Env} {cfg : Config} {mem : Memory}

/-- What the receipts are for has been filed. -/
theorem receipts_filed {receipts : List Receipt} {messages : List Message} {files : List Bytes}
    (hreceipts : List.Forall₂ Receipt.For receipts messages)
    (hfiled : List.Forall₂ (Message.Filed env) messages files) :
    List.Forall₂ (fun (r : Receipt) contents => ∃ m : Message, r.For m ∧ m.Filed env contents)
      receipts files := by
  induction hreceipts generalizing files with
  | nil =>
      cases hfiled
      exact .nil
  | cons hfor _ ih =>
      cases hfiled with
      | cons hfirst hrest => exact .cons ⟨_, hfor, hfirst⟩ (ih hrest)

/-- A turn of a client and of the service that the session serves as. -/
theorem turn_agrees (fixed : ∀ n, (env n).cfg = cfg) (posix : ∀ n, (env n).told = true)
    (room : cfg.maxmessagesize + 1024 < 2 ^ 64) {removed : Nat → Bool} {c : Client} {p : Caller}
    {v : Service} {s : Core} {line : Bytes} (hline : p.line = some line) (ready : p.Ready c)
    (serves : Serves env cfg removed False v s) (agrees : p.Agrees v) :
    s.Argued line ∧ ∃ works, Serves env cfg removed False (v.hear cfg works line) (s.hear env line) ∧
      (p.hear (Conversation.answer (replies s.log) (replies (s.hear env line).log))).Agrees
        (v.hear cfg works line) := by
  have argued : s.Argued line := by
    intro hstate
    refine agrees.argued hline ?_
    have hphase := serves.state
    rw [hstate] at hphase
    cases hv : v.phase with
    | cmd => rfl
    | data => rw [hv] at hphase; cases hphase
    | closed => rw [hv] at hphase; cases hphase
  obtain ⟨works, -, hserves⟩ := serves.hear fixed posix room False.elim argued
  refine ⟨argued, works, hserves, ?_⟩
  rw [serves.replies, hserves.replies]
  exact agrees.hear ready hline works

/-- After every turn there is a service that the session serves as and the client agrees with. -/
theorem conversed_agrees (fixed : ∀ n, (env n).cfg = cfg) (posix : ∀ n, (env n).told = true)
    (room : cfg.maxmessagesize + 1024 < 2 ^ 64) (mem : Memory) (removed : Nat → Bool) (c : Client)
    (counted : ∀ m ∈ c.mails, m.Counted) (n : Nat) :
    Run.Along (Core.hear env) Core.Argued (start env mem).toCore (spoken env mem c n) ∧
      (conversed env mem c n).1.Ready c ∧
      ∃ v, Serves env cfg removed False v (conversed env mem c n).2 ∧
        (conversed env mem c n).1.Agrees v := by
  have hstart : (Caller.start c).Agrees (Service.start cfg) := ⟨rfl, .nil⟩
  have hserves : Serves env cfg removed False (Service.start cfg) (start env mem).toCore :=
    { serves_start fixed removed mem with clear := False.elim }
  refine Conversation.invariant Caller.speaker (Core.hear env) (fun s => replies s.log)
    (P := Core.Argued)
    (R := fun p s => p.Ready c ∧ ∃ v, Serves env cfg removed False v s ∧ p.Agrees v)
    (x := (Caller.start c, (start env mem).toCore)) ?_
    ⟨Caller.ready_start c counted, _, hserves, hstart⟩ n
  rintro p s line hline ⟨ready, v, serves, agrees⟩
  obtain ⟨argued, works, hserves, hagrees⟩ := turn_agrees fixed posix room hline ready serves agrees
  exact ⟨argued, ready.hear hline _, _, hserves, hagrees⟩

/-- The chunks of what the client has sent have brought the session to where the client has it. -/
theorem conversed_feedAll (unmatched : mem.Unmatched) (c : Client)
    (counted : ∀ m ∈ c.mails, m.Counted) (n : Nat)
    (argued : Run.Along (Core.hear env) Core.Argued (start env mem).toCore (spoken env mem c n))
    (chunks : List Bytes) (sent : chunks.flatten = terminated (spoken env mem c n)) :
    ((start env mem).feedAll env chunks).toCore = (conversed env mem c n).2 := by
  have hplain : ∀ line ∈ spoken env mem c n, Plain line :=
    Conversation.said_forall (fun p line (h : p.Ready c) hline => h.hear hline)
      (fun p line (h : p.Ready c) hline => h.plain hline) (Caller.ready_start c counted) n
  have hlines : splitCrlf [] chunks.flatten = (spoken env mem c n, []) := by
    rw [sent, splitCrlf_terminated fun line hline => (hplain line hline).clean]
  obtain ⟨t, follows, reads⟩ := exists_reads env mem unmatched.cmd unmatched.line
  rw [feedAll_reads env follows reads, hlines]
  · exact Conversation.said_foldl _ _ _ n (Caller.start c, (start env mem).toCore)
  · rw [hlines]
    exact fun line hline => (hplain line hline).short
  · rw [hlines]
    exact Nat.two_pow_pos 31
  · rwa [hlines]

/-- A client that waits never waits in vain, whichever files cannot be opened, written or
synchronised and in whatever chunks its lines arrive: the session has one reply for every line that
the client waits at and none for the others. After so many lines the client has no more to say, and
the session is closed if the client quits, and between two mails if not. -/
theorem answers_client (env : Env) (cfg : Config) (fixed : ∀ n, (env n).cfg = cfg)
    (posix : ∀ n, (env n).told = true) (room : cfg.maxmessagesize + 1024 < 2 ^ 64) (mem : Memory)
    (unmatched : mem.Unmatched) (c : Client) (counted : ∀ m ∈ c.mails, m.Counted)
    (chunks : Nat → List Bytes) (sent : ∀ n, (chunks n).flatten = terminated (spoken env mem c n)) :
    let p n := (conversed env mem c n).1
    let s n := (start env mem).feedAll env (chunks n)
    (∀ n line, (p n).line = some line →
      if (p n).waits then ∃ r, Smtp.replies (s (n + 1)).log = Smtp.replies (s n).log ++ [r]
      else Smtp.replies (s (n + 1)).log = Smtp.replies (s n).log) ∧
    (p c.turns).line = none ∧ (s c.turns).state = if c.quits then .closed else .cmd := by
  have hagrees (n : Nat) := conversed_agrees fixed posix room mem (fun _ => true) c counted n
  have hsession (n : Nat) : ((start env mem).feedAll env (chunks n)).toCore =
      (conversed env mem c n).2 :=
    conversed_feedAll unmatched c counted n (hagrees n).1 (chunks n) (sent n)
  have hsilent : (conversed env mem c c.turns).1.line = none :=
    Conversation.silent (S := Caller.speaker) (fun p reply line hline => p.hear_left reply line hline)
      (Nat.le_of_eq (Nat.add_comm 2 _))
  intro p s
  refine ⟨fun n line hline => ?_, hsilent, ?_⟩
  · obtain ⟨-, ready, v, serves, agrees⟩ := hagrees n
    obtain ⟨-, works, hserves, -⟩ := turn_agrees fixed posix room hline ready serves agrees
    have hnext : (conversed env mem c (n + 1)).2 = (conversed env mem c n).2.hear env line := by
      rw [conversed, Function.iterate_succ_apply', ← conversed, Conversation.turn_some hline]
    dsimp only [s]
    rw [hsession, hsession, hnext, serves.replies, hserves.replies]
    exact agrees.answered hline works
  · obtain ⟨-, ready, v, serves, agrees⟩ := hagrees c.turns
    dsimp only [s]
    rw [hsession, serves.state, agrees.silent ready hsilent]
    cases c.quits <;> rfl

/-- No file can be opened. -/
def refusing : Env := fun _ => { Answer.ideal with opened := false }

theorem counted_visitor : ∀ m ∈ Server.visitor.mails, m.Counted := by
  intro m hm
  rw [List.mem_singleton.mp hm]
  exact ⟨by decide, by decide, by decide⟩

/-- The mail is given up when DATA is refused. -/
theorem answers_client_refusing :
    ((start refusing .zeroed).feedAll refusing
      [terminated (spoken refusing .zeroed Server.visitor Server.visitor.turns)]).state = .cmd ∧
    (conversed refusing .zeroed Server.visitor Server.visitor.turns).1.receipts = [] := by
  obtain ⟨-, -, hstate⟩ := answers_client refusing (refusing 0).cfg (fun _ => rfl) (fun _ => rfl)
    (by decide) .zeroed ⟨by decide, by decide⟩ Server.visitor counted_visitor
    (fun n => [terminated (spoken refusing .zeroed Server.visitor n)])
    (fun n => List.append_nil _)
  rw [if_neg (by decide)] at hstate
  dsimp only at hstate
  exact ⟨hstate, by decide +kernel⟩

end Session

namespace Server

variable {ι : Type} [DecidableEq ι]

/-- In every interleaving of any number of sessions in any number of processes, whichever files
cannot be opened, written or synchronised, a client that waits for every reply has heard what its
session has replied, and the mails that it has a receipt for are in the directory with the
recipients that it knows of, each in a file of its own that no other session has created. Nothing
else is left of the session if it has cleaned up. -/
theorem receipts_agree (S : Server ι) (d : Directory (Option ι)) (trace : List (ι × Happening))
    (h : S.Trace trace) (ready : Ready d trace) (i : ι) (n : Nat) (ended : (S.reached i n).2 = [])
    (rests : own i trace = S.happened i n) (cfg : Config) (fixed : ∀ k, (S.env i k).cfg = cfg)
    (posix : ∀ k, (S.env i k).told = true) (room : cfg.maxmessagesize + 1024 < 2 ^ 64)
    (unmatched : (S.mem i).Unmatched) (c : Client) (counted : ∀ m ∈ c.mails, m.Counted)
    (turns : Nat) (sent : (S.chunks i).flatten = terminated (Session.spoken (S.env i) (S.mem i) c turns)) :
    let x := Session.conversed (S.env i) (S.mem i) c turns
    (S.reached i n).1.toCore = x.2 ∧
      ∃ paths, S.Files d trace i n
        (fun (r : Receipt) contents => ∃ m : Message, r.For m ∧ m.Filed (S.env i) contents)
        x.1.receipts paths := by
  obtain ⟨argued, -, v, hserves, hagrees⟩ :=
    Session.conversed_agrees fixed posix room (S.mem i) (S.removed i) c counted turns
  have hsession := Session.conversed_feedAll unmatched c counted turns argued (S.chunks i) sent
  rw [← reached_ended ended] at hsession
  refine ⟨hsession, h.files ready rests ?_⟩
  rw [hsession]
  exact Session.receipts_filed hagrees.receipts hserves.filed

theorem receipts_agree_pair : ∃ path contents, (spool emptySpool pairTrace).lookup path = some contents ∧
    ∃ m : Message, (Receipt.mk [] [text "b@c"] [text "x"]).For m ∧
      m.Filed (pair.env false) contents := by
  obtain ⟨-, paths, hfiles⟩ := receipts_agree pair emptySpool pairTrace trace_pair ready_pair
    false 10 (by decide +kernel) own_pairTrace_ended (pair.env false 0).cfg (fun _ => rfl)
    (fun _ => rfl) (by decide) ⟨by decide, by decide⟩ visitor
    Session.counted_visitor 6 (by decide +kernel)
  have hreceipts : (Session.conversed (pair.env false) (pair.mem false) visitor 6).1.receipts =
      [⟨[], [text "b@c"], [text "x"]⟩] := by decide +kernel
  have hfound := hfiles.found
  rw [hreceipts] at hfound
  cases hfound with
  | cons hfirst hrest =>
      obtain ⟨contents, hlookup, hm⟩ := hfirst
      exact ⟨_, contents, hlookup, hm⟩

end Server

end Ervan.Smtp
