import Ervan.Smtp.Server
import Ervan.Smtp.Serving

/-!
# The service of a busy server

Every session of a server that is shared by any number of clients and processes serves its client
as the service does, and every message that the service has accepted has a file of its own in the
spool directory, whatever the other sessions do.
-/

namespace Ervan.Smtp

open Framing Interleaving Session

/-- The paths of the files that are answered, closed and open. -/
def Trail.paths (t : Trail) : List Bytes :=
  t.delivered.map Prod.fst ++ (t.closed.toList.map Prod.fst ++ t.file.toList.map Prod.fst)

/-- A path is new only if it is that of a creation. -/
theorem follow_paths (t : Trail) (h : Happening) :
    (t.follow h).paths.Sublist (t.paths ++ creations [h]) := by
  obtain ⟨e, a, removed⟩ := h
  have hedited : (t.paths).Sublist (t.paths ++ creations [⟨e, a, removed⟩]) :=
    List.sublist_append_left _ _
  have hfile (f : DataFile → DataFile) :
      (t.file.map fun x => (x.1, f x.2)).toList.map Prod.fst = t.file.toList.map Prod.fst := by
    cases t.file <;> rfl
  cases e with
  | open_ path ok =>
      cases ok with
      | true => exact (List.sublist_append_left _ _).append (List.Sublist.refl _)
      | false =>
          rw [Trail.follow, Trail.paths, hfile]
          exact hedited
  | unlink path => exact hedited
  | close contents =>
      refine List.Sublist.trans ?_ hedited
      unfold Trail.follow Trail.paths
      refine (List.Sublist.refl _).append ?_
      dsimp only
      rw [Option.toList_none, List.map_nil, List.append_nil]
      split
      · cases t.file with
        | none => exact List.nil_sublist _
        | some x => exact List.sublist_append_right _ _
      · exact List.nil_sublist _
  | reply r =>
      refine List.Sublist.trans ?_ hedited
      unfold Trail.follow Trail.paths
      dsimp only
      split
      · rw [List.map_append, List.append_assoc]
        exact List.Sublist.refl _
      · exact (List.Sublist.refl _).append (List.sublist_append_right _ _)
  | _ =>
      rw [Trail.follow, Trail.paths, hfile]
      exact hedited

theorem paths_sublist (hs : List Happening) : (trail hs).paths.Sublist (creations hs) := by
  induction hs using List.reverseRecOn with
  | nil => exact List.Sublist.refl _
  | append_singleton hs h ih =>
      rw [trail_snoc, creations_append]
      exact (follow_paths _ h).trans (ih.append (List.Sublist.refl _))

namespace Server

variable {ι : Type} [DecidableEq ι] {S : Server ι}

omit [DecidableEq ι] in
/-- A session that has received all its chunks has been fed them. -/
theorem reached_ended {i : ι} {n : Nat} (ended : (S.reached i n).2 = []) :
    (S.reached i n).1 = (start (S.env i) (S.mem i)).feedAll (S.env i) (S.chunks i) := by
  obtain ⟨m, hm⟩ := feedAll_reached (S.env i) (start (S.env i) (S.mem i)) (S.chunks i)
  have hrests {x : Progress} (h : x.2 = []) (k : Nat) : (advance (S.env i))^[k] x = x := by
    obtain ⟨s, chunks⟩ := x
    cases h
    exact Function.iterate_fixed rfl k
  rcases Nat.le_total n m with hle | hle
  · have hsame : S.reached i n = (advance (S.env i))^[m] (start (S.env i) (S.mem i), S.chunks i) := by
      rw [← Nat.sub_add_cancel hle, Function.iterate_add_apply, ← reached, hrests ended]
    rw [hsame, hm]
  · have hsame : S.reached i n = (advance (S.env i))^[m] (start (S.env i) (S.mem i), S.chunks i) := by
      rw [reached, ← Nat.sub_add_cancel hle, Function.iterate_add_apply, hm]
      exact hrests rfl _
    rw [hsame, hm]

/-- The session has a file at a path of its own for each of these, and no other file when it rests
and has cleaned up. -/
structure Files {α : Type} (S : Server ι) (d : Directory (Option ι)) (trace : List (ι × Happening))
    (i : ι) (n : Nat) (P : α → Bytes → Prop) (xs : List α) (paths : List Bytes) : Prop where
  nodup : paths.Nodup
  own : ∀ path ∈ paths, owner trace path = some i
  found : List.Forall₂ (fun x path => ∃ contents, (spool d trace).lookup path = some contents ∧
    P x contents) xs paths
  others : Run.Always (advance (S.env i)) (Cleans (S.env i) (S.removed i)) (S.reached i 0) →
    (S.reached i n).1.state ≠ .data → ∀ path ∉ paths, owner trace path = some i →
      (spool d trace).lookup path = none

/-- The delivered files of a session are in the directory, at paths that no other session has
created. -/
theorem Trace.files {α : Type} {P : α → Bytes → Prop} {xs : List α} {d : Directory (Option ι)}
    {trace : List (ι × Happening)} (h : S.Trace trace) (ready : Ready d trace) {i : ι} {n : Nat}
    (rests : Interleaving.own i trace = S.happened i n)
    (hfiled : List.Forall₂ P xs
      (((S.reached i n).1.trail (S.env i) (S.removed i)).delivered.map Prod.snd)) :
    ∃ paths, S.Files d trace i n P xs paths := by
  have htrail : (S.reached i n).1.trail (S.env i) (S.removed i) =
      trail (Interleaving.own i trace) := by
    rw [rests]
    rfl
  rw [htrail] at hfiled
  have hpaths := (List.sublist_append_left _ _).trans (paths_sublist (Interleaving.own i trace))
  refine ⟨(trail (Interleaving.own i trace)).delivered.map Prod.fst, (h.nodup i).sublist hpaths,
    fun path hpath => h.owner_creations (hpaths.subset hpath), ?_, fun cleans hstate path hpath
    howner => h.cleaned ready cleans rests hstate (creations_of_owner howner) hpath⟩
  rw [List.forall₂_map_right_iff] at hfiled ⊢
  have hfound := (List.forall₂_and_left _ _).mpr ⟨fun x hx => h.delivered ready hx, hfiled.flip⟩
  exact hfound.flip.imp fun m x ⟨hlookup, hm⟩ => ⟨x.2, hlookup, hm⟩

/-- In every interleaving of any number of sessions in any number of processes, a session that has
received all its chunks, line by line and on regular files, has served its client as the service
does, and every message that the service has accepted has a file of its own in the directory, which
no other session has created. Nothing else is left of the session if it has cleaned up. -/
theorem serves (S : Server ι) (d : Directory (Option ι)) (trace : List (ι × Happening))
    (h : S.Trace trace) (ready : Ready d trace) (i : ι) (n : Nat) (ended : (S.reached i n).2 = [])
    (rests : own i trace = S.happened i n) (cfg : Config) (fixed : ∀ k, (S.env i k).cfg = cfg)
    (posix : ∀ k, (S.env i k).told = true) (room : cfg.maxmessagesize + 1024 < 2 ^ 64)
    (byLine : ByLine (S.env i) (S.mem i) (S.chunks i)) :
    ∃ outcomes : List Bool, outcomes.length = (splitCrlf [] (S.chunks i).flatten).1.length ∧
      ((∀ k, (S.env i k).Works) → (S.mem i).dataError = false → ∀ b ∈ outcomes, b = true) ∧
      let v := (Service.start cfg).hearAll cfg
        (outcomes.zip (splitCrlf [] (S.chunks i).flatten).1)
      Smtp.replies (S.reached i n).1.log = v.replies ∧
        ∃ paths, S.Files d trace i n (Message.Filed (S.env i)) v.messages paths := by
  obtain ⟨outcomes, hlength, hall, hserves⟩ := exists_serves (S.env i) cfg fixed posix room
    (S.removed i) (S.mem i) (S.chunks i) byLine
  rw [← reached_ended ended] at hserves
  exact ⟨outcomes, hlength, fun works clear b hb => hall b hb ⟨works, clear⟩, hserves.replies,
    h.files ready rests hserves.filed⟩

/-- The message of one line is found, while another process serves another client. -/
theorem serves_pair : ∃ v : Service, v.messages.map Message.lines = [[text "x"]] ∧
    ∃ paths : List Bytes, List.Forall₂ (fun m path => ∃ contents,
      (spool emptySpool pairTrace).lookup path = some contents ∧ m.Filed (pair.env false) contents)
      v.messages paths := by
  obtain ⟨outcomes, hlength, hall, -, paths, hfiles⟩ := serves pair emptySpool pairTrace
    trace_pair ready_pair false 10 (by decide +kernel) own_pairTrace_ended (pair.env false 0).cfg
    (fun _ => rfl) (fun _ => rfl) (by decide)
    ⟨by decide, by decide, by decide +kernel, by decide +kernel, by decide +kernel⟩
  have houtcomes : outcomes = List.replicate outcomes.length true :=
    List.eq_replicate_iff.mpr ⟨rfl, hall (fun _ => ⟨rfl, rfl, rfl, nofun⟩) rfl⟩
  rw [houtcomes, hlength] at hfiles
  exact ⟨_, by decide +kernel, paths, hfiles.found⟩

end Server

end Ervan.Smtp
