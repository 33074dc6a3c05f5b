import Ervan.Library.Disk
import Ervan.Smtp.Trail

/-!
# The spool directory of one session

A session that keeps to the rules, and whose paths are new, finds in the directory what its log
says: its open file has what it has written to it, and the files that it has answered with 250
have what they contained when they were closed. A file that has been created exists until it is
removed.
-/

namespace Ervan.Smtp

/-- A directory of regular files, whose clients have an offset in their open file. -/
abbrev Directory (ι : Type) := Disk ι Bytes Bytes Nat

/-- What a session's event does to the directory. -/
def Happening.op (h : Happening) : Disk.Op Bytes Bytes Nat :=
  match h.event with
  | .open_ path true => .open_ path
  | .unlink path => if h.removed then .unlink path else .access id
  | .close _ => .close
  | e => .access fun x =>
      let f := e.edit h.answer ⟨x.1, x.2⟩
      (f.contents, f.pos)

/-- The files that have been created. -/
def creations (hs : List Happening) : List Bytes :=
  hs.filterMap fun h => match h.event with
    | .open_ path true => some path
    | _ => none

theorem creations_append (hs hs' : List Happening) :
    creations (hs ++ hs') = creations hs ++ creations hs' := List.filterMap_append

theorem mem_creations {hs : List Happening} {path : Bytes} :
    path ∈ creations hs ↔ ∃ h ∈ hs, h.event = .open_ path true := by
  simp only [creations, List.mem_filterMap]
  refine exists_congr fun h => and_congr_right fun _ => ?_
  obtain ⟨e, a, removed⟩ := h
  cases e with
  | open_ path' ok => cases ok <;> simp
  | _ => simp

theorem creations_mono {hs hs' : List Happening} (hfront : hs <+: hs') {path : Bytes}
    (hmem : path ∈ creations hs) : path ∈ creations hs' := by
  obtain ⟨rest, rfl⟩ := hfront
  rw [creations_append]
  exact List.mem_append_left _ hmem

theorem creations_singleton_nodup (h : Happening) : (creations [h]).Nodup := by
  obtain ⟨e, a, removed⟩ := h
  cases e with
  | open_ path ok => cases ok <;> simp [creations]
  | _ => simp [creations]

/-- The open file is one that has been created. -/
theorem file_creations {hs : List Happening} {path : Bytes}
    (hfile : (trail hs).file.map Prod.fst = some path) : path ∈ creations hs := by
  induction hs using List.reverseRecOn with
  | nil => cases hfile
  | append_singleton hs h ih =>
      rw [trail_snoc] at hfile
      rw [creations_append, List.mem_append]
      obtain ⟨e, a, removed⟩ := h
      cases e with
      | open_ path' ok =>
          cases ok with
          | true =>
              rw [← Option.some.inj hfile]
              exact Or.inr (by simp [creations])
          | false =>
              rw [follow_refused] at hfile
              exact Or.inl (ih hfile)
      | unlink path' => exact Or.inl (ih hfile)
      | close contents => cases hfile
      | reply r => exact Or.inl (ih hfile)
      | _ =>
          rw [Trail.follow, Option.map_map] at hfile
          exact Or.inl (ih hfile)

theorem creations_other {h : Happening} (hevent : ∀ path, h.event ≠ .open_ path true) :
    creations [h] = [] := by
  refine List.eq_nil_iff_forall_not_mem.mpr fun path hmem => ?_
  obtain ⟨h', hh', heq⟩ := mem_creations.mp hmem
  rw [List.mem_singleton.mp hh'] at heq
  exact hevent path heq

/-- The files that have been removed. -/
def removals (hs : List Happening) : List Bytes :=
  hs.filterMap fun h => match h.event with
    | .unlink path => if h.removed then some path else none
    | _ => none

theorem removals_append (hs hs' : List Happening) : removals (hs ++ hs') = removals hs ++ removals hs' :=
  List.filterMap_append

/-- Only a file that has been created is removed. -/
theorem removals_creations {hs : List Happening} (hadmitted : Admitted hs) {path : Bytes}
    (hgone : path ∈ removals hs) : path ∈ creations hs := by
  obtain ⟨h, hmem, hpath⟩ := List.mem_filterMap.mp hgone
  obtain ⟨pre, post, rfl⟩ := List.append_of_mem hmem
  have hadmits := hadmitted pre h post rfl
  obtain ⟨e, a, removed⟩ := h
  cases e with
  | unlink path' =>
      cases removed with
      | true =>
          obtain rfl : path' = path := Option.some.inj hpath
          exact creations_mono (List.prefix_append _ _) (file_creations hadmits)
      | false => cases hpath
  | _ => cases hpath

variable {ι : Type} [DecidableEq ι] {owner : Bytes → ι} {d₀ d : Directory ι} {i : ι}
variable {hs : List Happening} {h : Happening} {t : Trail} {names : List Bytes}

/-- The directory is as the trail has it, for a client that has created files of these names in
`d₀`. -/
structure Matches (owner : Bytes → ι) (d₀ d : Directory ι) (i : ι) (names : List Bytes) (t : Trail) :
    Prop where
  separate : d.Separate owner
  opened : d.opened i = t.file.map fun x => (x.2.contents, x.2.pos)
  linked : t.linked = true → ∀ x, t.file = some x → d.Linked i x.1
  only : ∀ path, d.Linked i path → t.file.map Prod.fst = some path
  named : ∀ path, t.file.map Prod.fst = some path → path ∈ names
  kept : ∀ x, t.closed = some x ∨ x ∈ t.delivered →
    x.1 ∈ names ∧ d.lookup x.1 = some x.2 ∧ t.file.map Prod.fst ≠ some x.1
  untouched : ∀ path ∉ names, d.lookup path = d₀.lookup path

namespace Matches

theorem open_ (hd : Matches owner d₀ d i names t) {path : Bytes} (hnew : path ∉ names)
    (hfree : d₀.lookup path = none) (howns : owner path = i) :
    Matches owner d₀ (d.step (i, .open_ path)) i (names ++ [path])
      { t with file := some (path, ⟨[], 0⟩), linked := true, closed := none } := by
  have hempty : d.lookup path = none := (hd.untouched path hnew).trans hfree
  refine ⟨hd.separate.open_ howns, ?_, fun _ x hx => ?_, fun p hp => ?_, fun p hp => ?_,
    fun x hx => ?_, fun p hp => ?_⟩
  · rw [Disk.opened_open, hempty]
    rfl
  · rw [hd.separate.linked_open]
    exact (congrArg Prod.fst (Option.some.inj hx)).symm
  · rw [hd.separate.linked_open] at hp
    rw [hp]
    rfl
  · rw [← Option.some.inj hp]
    simp
  · obtain ⟨hname, hlookup, -⟩ := hd.kept x (Or.inr (hx.resolve_left (by simp)))
    have hne : x.1 ≠ path := fun heq => hnew (heq ▸ hname)
    refine ⟨List.mem_append_left _ hname, ?_, fun heq => hne (Option.some.inj heq).symm⟩
    rw [hd.separate.lookup_open, if_neg hne, hlookup]
  · rw [List.mem_append, List.mem_singleton, not_or] at hp
    rw [hd.separate.lookup_open, if_neg hp.2, hd.untouched p hp.1]

theorem access (hd : Matches owner d₀ d i names t) (edit : DataFile → DataFile) :
    Matches owner d₀ (d.step (i, .access fun x => ((edit ⟨x.1, x.2⟩).contents, (edit ⟨x.1, x.2⟩).pos)))
      i names { t with file := t.file.map fun x => (x.1, edit x.2) } := by
  have hpath : (t.file.map fun x => (x.1, edit x.2)).map Prod.fst = t.file.map Prod.fst := by
    rw [Option.map_map]
    rfl
  have hother (path : Bytes) (hne : t.file.map Prod.fst ≠ some path) (f) :
      (d.step (i, .access f)).lookup path = d.lookup path :=
    Disk.lookup_access_other (fun hlinked => hne (hd.only path hlinked)) f
  refine ⟨hd.separate.access i _, ?_, fun hlinked x hx => ?_, fun p hp => ?_, fun p hp => ?_,
    fun x hx => ?_, fun p hp => ?_⟩
  · rw [Disk.opened_access, hd.opened, Option.map_map, Option.map_map]
    rfl
  · obtain ⟨y, hy, rfl⟩ := Option.map_eq_some_iff.mp hx
    exact (Disk.linked_access _).mpr (hd.linked hlinked y hy)
  · rw [hpath]
    exact hd.only p ((Disk.linked_access _).mp hp)
  · rw [hpath] at hp
    exact hd.named p hp
  · obtain ⟨hname, hlookup, hne⟩ := hd.kept x hx
    exact ⟨hname, (hother x.1 hne _).trans hlookup, by rwa [hpath]⟩
  · rw [hother p (fun heq => hp (hd.named p heq)), hd.untouched p hp]

theorem close (hd : Matches owner d₀ d i names t) :
    Matches owner d₀ (d.step (i, .close)) i names
      { t with
        file := none
        closed := if t.linked then t.file.map fun x => (x.1, x.2.contents) else none } := by
  have hlookup (p : Bytes) : (d.step (i, .close)).lookup p = d.lookup p := rfl
  refine ⟨hd.separate.close i, Disk.opened_close d i, fun _ x hx => ?_,
    fun p hp => absurd hp (Disk.not_linked_close d i p), fun p hp => ?_, fun x hx => ?_,
    hd.untouched⟩
  · cases hx
  · cases hp
  · refine (and_iff_left (by simp)).mpr ?_ |> and_assoc.mp
    rw [hlookup]
    rcases hx with hx | hx
    · cases hlinked : t.linked with
      | false => simp [hlinked] at hx
      | true =>
          simp only [hlinked, if_true] at hx
          obtain ⟨y, hy, rfl⟩ := Option.map_eq_some_iff.mp hx
          refine ⟨hd.named y.1 (by rw [hy, Option.map_some]), ?_⟩
          rw [Disk.lookup_linked (hd.linked hlinked y hy), hd.opened, hy]
          rfl
    · obtain ⟨hname, hcontents, -⟩ := hd.kept x (Or.inr hx)
      exact ⟨hname, hcontents⟩

theorem unlink (hd : Matches owner d₀ d i names t) {path : Bytes}
    (hfile : t.file.map Prod.fst = some path) :
    Matches owner d₀ (d.step (i, .unlink path)) i names { t with linked := false } := by
  refine ⟨hd.separate.unlink i path, hd.opened, fun hlinked => Bool.noConfusion hlinked,
    fun p hp => ?_, hd.named, fun x hx => ?_, fun p hp => ?_⟩
  · exact hd.only p ((Disk.linked_unlink d i path p).mp hp).2
  · obtain ⟨hname, hlookup, hne⟩ := hd.kept x hx
    have hpath : x.1 ≠ path := fun heq => hne (heq ▸ hfile)
    exact ⟨hname, by rw [Disk.lookup_unlink, if_neg hpath, hlookup], hne⟩
  · have hpath : p ≠ path := fun heq => hp (heq ▸ hd.named path hfile)
    rw [Disk.lookup_unlink, if_neg hpath, hd.untouched p hp]

theorem access_id (hd : Matches owner d₀ d i names t) :
    Matches owner d₀ (d.step (i, .access id)) i names t := by
  have haccess := hd.access id
  have hfile : t.file.map (fun x => (x.1, id x.2)) = t.file := congrFun Option.map_id t.file
  rwa [hfile] at haccess

omit [DecidableEq ι] in
theorem unlinked (hd : Matches owner d₀ d i names t) :
    Matches owner d₀ d i names { t with linked := false } :=
  { hd with linked := fun hlinked => Bool.noConfusion hlinked }

omit [DecidableEq ι] in
theorem reply (hd : Matches owner d₀ d i names t) (code : Nat) :
    Matches owner d₀ d i names
      { t with
        closed := none
        delivered := if code = 250 then t.delivered ++ t.closed.toList else t.delivered } := by
  refine ⟨hd.separate, hd.opened, hd.linked, hd.only, hd.named, fun x hx => hd.kept x ?_,
    hd.untouched⟩
  rcases hx with hx | hx
  · cases hx
  · by_cases hcode : code = 250
    · simpa [hcode, or_comm] using hx
    · simp only [hcode, if_false] at hx
      exact Or.inr hx

/-- One more event. A file is only created at a new path. -/
theorem follow (hd : Matches owner d₀ d i names t) (hadmits : t.Admits h)
    (hnew : ∀ path ∈ creations [h], path ∉ names ∧ d₀.lookup path = none ∧ owner path = i) :
    Matches owner d₀ (d.step (i, h.op)) i (names ++ creations [h]) (t.follow h) := by
  obtain ⟨e, a, removed⟩ := h
  cases e with
  | open_ path ok =>
      cases ok with
      | true =>
          obtain ⟨hname, hfree, howns⟩ := hnew path (by simp [creations])
          exact hd.open_ hname hfree howns
      | false =>
          rw [creations_other (by simp), List.append_nil, follow_refused]
          exact hd.access_id
  | unlink path =>
      rw [creations_other (by simp), List.append_nil]
      cases removed with
      | true => exact hd.unlink hadmits
      | false => exact hd.access_id.unlinked
  | close contents =>
      rw [creations_other (by simp), List.append_nil]
      exact hd.close
  | reply r =>
      rw [creations_other (by simp), List.append_nil]
      exact hd.access_id.reply r.code
  | _ =>
      rw [creations_other (by simp), List.append_nil]
      exact hd.access _

/-- A session that has kept to the rules, and whose files are new. -/
theorem run (hd : Matches owner d₀ d₀ i [] {}) (hadmitted : Admitted hs)
    (hnodup : (creations hs).Nodup)
    (hnew : ∀ path ∈ creations hs, d₀.lookup path = none ∧ owner path = i) :
    Matches owner d₀ (d₀.run i (hs.map Happening.op)) i (creations hs) (trail hs) := by
  induction hs using List.reverseRecOn with
  | nil => exact hd
  | append_singleton hs h ih =>
      rw [creations_append] at hnodup hnew ⊢
      obtain ⟨hbefore, -, hdisjoint⟩ := List.nodup_append.mp hnodup
      have hearlier := ih (hadmitted.of_front (List.prefix_append hs [h])) hbefore
        fun path hmem => hnew path (List.mem_append_left _ hmem)
      rw [List.map_append, Disk.run_append, trail_snoc]
      exact hearlier.follow (hadmitted hs h [] rfl) fun path hmem =>
        ⟨fun hname => hdisjoint path hname path hmem rfl,
          hnew path (List.mem_append_right _ hmem)⟩

end Matches

/-- An event creates a file, removes one or leaves the names in the directory as they are. -/
theorem exists_step (d : Directory ι) (i : ι) (h : Happening) (path : Bytes) :
    ((d.step (i, h.op)).lookup path).isSome ↔
      path ∈ creations [h] ∨ (d.lookup path).isSome ∧ path ∉ removals [h] := by
  have hsame {h : Happening} (hcreated : creations [h] = []) (hgone : removals [h] = [])
      (hdirectory : (d.step (i, h.op)).directory = d.directory) :
      ((d.step (i, h.op)).lookup path).isSome ↔
        path ∈ creations [h] ∨ (d.lookup path).isSome ∧ path ∉ removals [h] := by
    rw [Disk.lookup_isSome, Disk.lookup_isSome, hdirectory, hcreated, hgone]
    simp
  obtain ⟨e, a, removed⟩ := h
  cases e with
  | open_ path' ok =>
      cases ok with
      | true =>
          have hopened := Disk.isSome_open d i path' path
          have hcreated : creations [⟨.open_ path' true, a, removed⟩] = [path'] := rfl
          have hgone : removals [⟨.open_ path' true, a, removed⟩] = [] := rfl
          rw [Disk.lookup_isSome, Disk.lookup_isSome, hcreated, hgone, List.mem_singleton]
          exact hopened.trans (or_congr_right (and_iff_left List.not_mem_nil).symm)
      | false => exact hsame (creations_other (by simp)) rfl (Disk.directory_access d i _)
  | unlink path' =>
      cases removed with
      | true =>
          have hremoved := Disk.lookup_unlink d i path' path
          have hgone : removals [⟨.unlink path', a, true⟩] = [path'] := rfl
          rw [creations_other (by simp), hgone, List.mem_singleton]
          change ((d.step (i, .unlink path')).lookup path).isSome ↔ _
          rw [hremoved]
          by_cases heq : path = path'
          · simp [heq]
          · simp [heq]
      | false => exact hsame (creations_other (by simp)) rfl (Disk.directory_access d i _)
  | close contents => exact hsame (creations_other (by simp)) rfl rfl
  | _ => exact hsame (creations_other (by simp)) rfl (Disk.directory_access d i _)

/-- A file that has been created exists until it is removed. -/
theorem exists_run (d : Directory ι) (i : ι) (hadmitted : Admitted hs) (hnodup : (creations hs).Nodup)
    {path : Bytes} (hcreated : path ∈ creations hs) :
    ((d.run i (hs.map Happening.op)).lookup path).isSome ↔ path ∉ removals hs := by
  induction hs using List.reverseRecOn with
  | nil => cases hcreated
  | append_singleton hs h ih =>
      have hbefore := hadmitted.of_front (List.prefix_append hs [h])
      rw [creations_append] at hnodup hcreated
      obtain ⟨hnodup, -, hdisjoint⟩ := List.nodup_append.mp hnodup
      rw [List.map_append, Disk.run_append, List.map_singleton]
      change ((Disk.step _ (i, h.op)).lookup path).isSome ↔ _
      rw [exists_step, removals_append, List.mem_append, not_or]
      by_cases hearlier : path ∈ creations hs
      · have hlater : path ∉ creations [h] := fun hnew => hdisjoint path hearlier path hnew rfl
        rw [ih hbefore hnodup hearlier, or_iff_right hlater]
      · have hnew := (List.mem_append.mp hcreated).resolve_left hearlier
        refine iff_of_true (Or.inl hnew) ⟨fun hgone => hearlier (removals_creations hbefore hgone), ?_⟩
        obtain ⟨h', hh', hopens⟩ := mem_creations.mp hnew
        rw [List.mem_singleton.mp hh'] at hopens
        simp [removals, hopens]

end Ervan.Smtp
