import Ervan.Main.Exchange
import Ervan.Main.Reload
import Mathlib.Data.List.Basic

/-!
# From the config file to the SMTP process

A key has the value of the last line that names it, or its default. The SMTP process runs with
these values, whatever is in the memory that `reload_config` and the exchange leave uninitialised.
-/

namespace Ervan.Main

/-- The pairs that are read. A line that cannot be applied ends the reading. -/
def pairs (stack : Bytes → UInt64) : List Content → List (Bytes × Bytes)
  | [] => []
  | .blank :: lines => pairs stack lines
  | .word key :: lines => if comment key then pairs stack lines else []
  | .pair key value :: lines =>
      match applyPair stack ⟨fun _ => none⟩ key value with
      | none => []
      | some _ => (key, value) :: pairs stack lines

/-- What a pair says about a key. -/
def told (stack : Bytes → UInt64) (k : Key) (pair : Bytes × Bytes) : Option k.type.Val :=
  if Config.compare k pair.1 then transform (stack pair.2) pair.2 k.type else none

/-- What the text says about a key. -/
def setting (stack : Bytes → UInt64) (file : Bytes) (k : Key) : Option k.type.Val :=
  ((pairs stack (contents file)).filterMap (told stack k)).getLast?

/-- The value is not a number that `size_t` cannot hold, if the key is that of a number. -/
def Held (key value : Bytes) : Prop :=
  ∀ k, Config.compare k key = true → k.type ≠ .string → fromChars value ≠ .outOfRange

def InRange (file : Bytes) : Prop :=
  ∀ key value, Content.pair key value ∈ contents file → Held key value

/-- What the text sets a key to. -/
def ordered (file : Bytes) (k : Key) : k.type.Val :=
  (setting (fun _ => 0) file k).getD k.defaultValue

/-- A config that gives the SMTP process a hostname: every line counts for itself, its numbers fit,
and the hostname does. -/
structure Legible (file : Bytes) (name : Bytes) : Prop where
  clean : nul ∉ file
  inRange : InRange file
  separate : Separate (fun _ => 0) (contents file)
  named : setting (fun _ => 0) file .hostname = some name
  fits : name.length ≤ 255

/-- The settings of the SMTP process once the monitor has read the text. -/
def boot (stack : Bytes → UInt64) (g : Leftovers) (file : Bytes) (localCfg : LocalConfig) :
    LocalConfig :=
  exchange g (reload stack file ⟨fun _ => none⟩).cfg localCfg

section Pairs

variable {stack : Bytes → UInt64} {k : Key} {key value : Bytes}

/-- Two keys have different names. -/
theorem compare_unique {k' : Key} (h : Config.compare k key = true)
    (h' : Config.compare k' key = true) : k = k' := by
  have hname : k.name = k'.name := (beq_iff_eq.mp h).trans (beq_iff_eq.mp h').symm
  revert hname
  cases k <;> cases k' <;> decide

/-- No key has the name of a comment. -/
theorem compare_comment (h : comment key = true) : Config.compare k key = false := by
  cases key with
  | nil => cases h
  | cons c key =>
      have hc : c = 35 := by simpa [comment] using h
      subst hc
      cases k <;> rfl

theorem told_none (h : Config.compare k key = false) : told stack k (key, value) = none := by
  simp [told, h]

theorem existsStep_false {keys : List Key} (h : Config.existsStep key keys = false)
    (hk : k ∈ keys) : Config.compare k key = false := by
  induction keys with
  | nil => cases hk
  | cons k' keys ih =>
      rw [Config.existsStep] at h
      split at h
      · cases h
      · rcases List.mem_cons.mp hk with rfl | hk
        · exact Bool.eq_false_iff.mpr ‹_›
        · exact ih h hk

/-- A pair does not set a key that it does not name. -/
theorem setByKeyStep_other {all : List Key} (c : Config all) (keys : List Key)
    (h : Config.compare k key = false) :
    ((c.setByKeyStep stack key value keys).getD c).value k = c.value k := by
  induction keys with
  | nil => rfl
  | cons k' keys ih =>
      rw [Config.setByKeyStep]
      split
      · rename_i hname
        have hother : k ≠ k' := by
          rintro rfl
          exact absurd hname (Bool.eq_false_iff.mp h)
        cases transform (stack value) value k'.type with
        | none => rfl
        | some v => exact Function.update_of_ne hother _ _
      · exact ih

theorem setByKeyStep_named {all keys : List Key} (c : Config all) (hk : k ∈ keys)
    (h : Config.compare k key = true) :
    ((c.setByKeyStep stack key value keys).getD c).value k =
      (transform (stack value) value k.type).or (c.value k) := by
  induction keys with
  | nil => cases hk
  | cons k' keys ih =>
      rw [Config.setByKeyStep]
      split
      · rename_i hname
        obtain rfl := compare_unique h hname
        cases transform (stack value) value k.type with
        | none => rfl
        | some v => exact Function.update_self _ _ _
      · rename_i hname
        refine ih ((List.mem_cons.mp hk).resolve_left ?_)
        rintro rfl
        exact hname h

/-- A pair that is applied says what it says about every key, and nothing else. -/
theorem applyPair_value (cfg : ConfigAll) :
    ((applyPair stack cfg key value).getD cfg).value k =
      (told stack k (key, value)).or (cfg.value k) := by
  have hkeys : k ∈ [Key.hostname, .port, .submissionport, .debug, .maxmessagesize, .maxrcpt] := by
    cases k <;> decide
  unfold applyPair
  cases hname : Config.compare k key with
  | false =>
      rw [told_none hname, Option.none_or]
      split
      · rfl
      · split
        · rfl
        · exact setByKeyStep_other cfg _ hname
  | true =>
      have htold : told stack k (key, value) = transform (stack value) value k.type := if_pos hname
      rw [htold, if_neg, if_neg]
      · exact setByKeyStep_named cfg hkeys hname
      · intro habsent
        have hnone := existsStep_false (by simpa [Config.existsKey] using habsent) hkeys
        exact absurd hname (Bool.eq_false_iff.mp hnone)
      · intro hcomment
        exact absurd hname (Bool.eq_false_iff.mp (compare_comment hcomment))

/-- The settings line by line are those of the pairs that are read. -/
theorem applyLines_eq (stack : Bytes → UInt64) (lines : List Content) (cfg : ConfigAll) :
    applyLines stack lines cfg =
      (pairs stack lines).foldl (fun cfg p => (applyPair stack cfg p.1 p.2).getD cfg) cfg := by
  induction lines generalizing cfg with
  | nil => rfl
  | cons line lines ih =>
      cases line with
      | blank => exact ih cfg
      | word key =>
          rw [applyLines, pairs]
          split
          · exact ih cfg
          · rfl
      | pair key value =>
          rw [applyLines, pairs]
          cases hnone : applyPair stack ⟨fun _ => none⟩ key value with
          | none =>
              rw [(applyPair_eq_none stack cfg key value).mpr hnone]
              rfl
          | some cfg₀ =>
              have hsome : applyPair stack cfg key value ≠ none := by
                rw [ne_eq, applyPair_eq_none, Invalid, hnone]
                exact fun h => by cases h
              obtain ⟨cfg', hcfg'⟩ := Option.ne_none_iff_exists'.mp hsome
              rw [hcfg', List.foldl_cons, hcfg']
              exact ih cfg'

/-- After the reading a key has the value that the text gives it, or the one it had. -/
theorem reload_value {file : Bytes} (separate : Separate stack (contents file)) (cfg : ConfigAll)
    (k : Key) :
    (reload stack file cfg).cfg.value k = (setting stack file k).or (cfg.value k) := by
  have hlines : (reload stack file cfg).cfg = applyLines stack (contents file) cfg :=
    (reads stack file ⟨0, cfg, false⟩ rfl (Nat.zero_le _)).applies separate _ (Nat.lt_succ_self _)
  have hstep (cfg : ConfigAll) (p : Bytes × Bytes) :
      ((applyPair stack cfg p.1 p.2).getD cfg).value k = (told stack k p).or (cfg.value k) :=
    applyPair_value cfg
  rw [hlines, applyLines_eq]
  exact Run.foldl_latest (fun cfg : ConfigAll => cfg.value k) hstep cfg _

end Pairs

section Memory

variable {stack stack' : Bytes → UInt64} {lines : List Content} {file key value : Bytes}

/-- A number in range does not show what `value` was before. -/
theorem transform_stack {t : KeyType} (h : t ≠ .string → fromChars value ≠ .outOfRange)
    (before before' : UInt64) : transform before value t = transform before' value t := by
  cases t with
  | string => rfl
  | number m =>
      have hnumber (largest : Nat) :
          transformNumber before largest value = transformNumber before' largest value := by
        unfold transformNumber
        split
        · rfl
        · exact absurd ‹_› (h fun heq => by cases heq)
        · rfl
      cases m with
      | bool => rfl
      | uint16 => simp only [transform, hnumber]
      | size => simp only [transform, hnumber]

theorem told_stack (h : Held key value) (k : Key) :
    told stack k (key, value) = told stack' k (key, value) := by
  unfold told
  split
  · exact transform_stack (h k ‹_›) _ _
  · rfl

theorem applyPair_stack (h : Held key value) (cfg : ConfigAll) :
    applyPair stack cfg key value = applyPair stack' cfg key value := by
  have hset (keys : List Key) : cfg.setByKeyStep stack key value keys =
      cfg.setByKeyStep stack' key value keys := by
    induction keys with
    | nil => rfl
    | cons k keys ih =>
        rw [Config.setByKeyStep, Config.setByKeyStep, ih]
        split
        · rw [transform_stack (h k ‹_›) (stack value) (stack' value)]
        · rfl
  simp only [applyPair, Config.setByKey, hset]

theorem mem_pairs {p : Bytes × Bytes} (h : p ∈ pairs stack lines) :
    Content.pair p.1 p.2 ∈ lines := by
  induction lines with
  | nil => cases h
  | cons line lines ih =>
      cases line with
      | blank => exact List.mem_cons_of_mem _ (ih h)
      | word key =>
          rw [pairs] at h
          split at h
          · exact List.mem_cons_of_mem _ (ih h)
          · cases h
      | pair key value =>
          rw [pairs] at h
          split at h
          · cases h
          · rcases List.mem_cons.mp h with rfl | h
            · exact List.mem_cons_self
            · exact List.mem_cons_of_mem _ (ih h)

/-- Nor do the pairs that are read. -/
theorem pairs_stack (h : ∀ key value, .pair key value ∈ lines → Held key value) :
    pairs stack lines = pairs stack' lines := by
  induction lines with
  | nil => rfl
  | cons line lines ih =>
      have ih := ih fun key value hmem => h key value (List.mem_cons_of_mem _ hmem)
      cases line with
      | blank => exact ih
      | word key => simp only [pairs, ih]
      | pair key value =>
          have hpair : applyPair stack ⟨fun _ => none⟩ key value =
              applyPair stack' ⟨fun _ => none⟩ key value :=
            applyPair_stack (h key value List.mem_cons_self) _
          simp only [pairs, ih, hpair]

theorem setting_stack (h : InRange file) (k : Key) : setting stack file k = setting stack' file k := by
  have htold : (pairs stack' (contents file)).filterMap (told stack k) =
      (pairs stack' (contents file)).filterMap (told stack' k) := by
    apply List.filterMap_congr
    intro p hp
    exact told_stack (h p.1 p.2 (mem_pairs hp)) k
  rw [setting, setting, pairs_stack h, htold]

theorem separate_stack (h : ∀ key value, .pair key value ∈ lines → Held key value)
    (separate : Separate stack lines) : Separate stack' lines := by
  induction lines with
  | nil => trivial
  | cons line lines ih =>
      have ih := ih fun key value hmem => h key value (List.mem_cons_of_mem _ hmem)
      cases line with
      | blank => exact ih separate
      | word key => exact separate
      | pair key value =>
          refine separate.imp (fun hinvalid => ?_) ih
          rw [Invalid, applyPair_stack (h key value List.mem_cons_self)]
          exact hinvalid

end Memory

section Strings

variable {stack : Bytes → UInt64} {file line : Bytes} {c : UInt8}

theorem mem_splitLines (h : line ∈ splitLines file) (hc : c ∈ line) : c ∈ file := by
  induction file generalizing line with
  | nil =>
      rw [List.mem_singleton.mp h] at hc
      cases hc
  | cons b file ih =>
      rw [splitLines] at h
      split at h
      · rcases List.mem_cons.mp h with rfl | h
        · cases hc
        · exact List.mem_cons_of_mem b (ih h hc)
      · obtain ⟨first, rest, hfirst⟩ := List.exists_cons_of_ne_nil (splitLines_ne file)
        rw [hfirst] at h ih
        rcases List.mem_cons.mp h with rfl | h
        · rcases List.mem_cons.mp hc with rfl | hc
          · exact List.mem_cons_self
          · exact List.mem_cons_of_mem b (ih List.mem_cons_self hc)
        · exact List.mem_cons_of_mem b (ih (List.mem_cons_of_mem first h) hc)

/-- A value is made of bytes of its line. -/
theorem mem_value {key value : Bytes} (h : content line = .pair key value) (hc : c ∈ value) :
    c ∈ line := by
  unfold content at h
  dsimp only at h
  split at h
  · cases h
  · split at h
    · cases h
    · injection h with _ hvalue
      rw [← hvalue] at hc
      have hsuffix {p : UInt8 → Bool} {bs : Bytes} (hc : c ∈ bs.dropWhile p) : c ∈ bs :=
        (List.dropWhile_suffix p).subset hc
      exact hsuffix (hsuffix (hsuffix hc))

/-- The hostname is made of bytes of the text. -/
theorem mem_hostname {name : Bytes} (h : setting stack file .hostname = some name)
    (hc : c ∈ name) : c ∈ file := by
  obtain ⟨p, hp, htold⟩ := List.mem_filterMap.mp (List.mem_of_getLast? h)
  have hname : p.2 = name := by
    unfold told at htold
    split at htold
    · exact Option.some_inj.mp htold
    · cases htold
  have hmem := (List.mem_filter.mp (mem_pairs hp)).1
  obtain ⟨line, hline, hcontent⟩ := List.mem_map.mp hmem
  exact mem_splitLines hline (mem_value hcontent (hname ▸ hc))

end Strings

section Boot

variable {file name : Bytes}

/-- What the monitor has read does not depend on the memory it has read it with. -/
theorem Legible.value (h : Legible file name) (stack : Bytes → UInt64) (k : Key) :
    (reload stack file ⟨fun _ => none⟩).cfg.value k = setting (fun _ => 0) file k := by
  rw [reload_value (separate_stack h.inRange h.separate), setting_stack h.inRange, Option.or_none]

theorem Legible.intact (h : Legible file name) (stack : Bytes → UInt64) (g : Leftovers)
    (localCfg : LocalConfig) :
    Intact (reload stack file ⟨fun _ => none⟩).cfg (boot stack g file localCfg) := by
  have hname := (h.value stack .hostname).trans h.named
  have hreceived := hostnameReceived_fits g hname (fun hc => h.clean (mem_hostname h.named hc)) h.fits
  exact (intact_iff g _ localCfg).mpr (hname.trans (congrArg some hreceived.symm))

theorem Legible.get (h : Legible file name) (stack : Bytes → UInt64) (g : Leftovers)
    (localCfg : LocalConfig) {k : Key} (hk : k ∈ localKeys) :
    (boot stack g file localCfg).get k = ordered file k := by
  rw [(h.intact stack g localCfg).1 k hk, Config.get, h.value, ordered]

theorem Legible.ensure (h : Legible file name) (stack : Bytes → UInt64) (g : Leftovers)
    (localCfg : LocalConfig) : (boot stack g file localCfg).ensure .hostname = true := by
  rw [(h.intact stack g localCfg).2, Config.ensure, h.value, h.named]
  rfl

/-- The SMTP process runs with the settings of the text and the defaults of the other keys,
whatever is in the memory that was not initialised and whatever it was set to before. -/
theorem boot_settings (stack : Bytes → UInt64) (g : Leftovers) (localCfg : LocalConfig)
    (h : Legible file name) :
    (∀ k ∈ localKeys, (boot stack g file localCfg).get k = ordered file k) ∧
      (boot stack g file localCfg).ensure .hostname = true :=
  ⟨fun _ hk => h.get stack g localCfg hk, h.ensure stack g localCfg⟩

/-- A config with a comment and a port that is set twice. -/
def sample : Bytes := text "hostname mx\n# port 1\nport 2525\r\n\nport 26\nmaxrcpt 3"

theorem contents_sample : contents sample =
    [.pair (text "hostname") (text "mx"), .pair (text "#") (text "port 1"),
      .pair (text "port") (text "2525"), .pair (text "port") (text "26"),
      .pair (text "maxrcpt") (text "3")] := by decide +kernel

theorem inRange_sample : InRange sample := by
  intro key value hmem k _ _
  rw [contents_sample] at hmem
  have hvalue : value ∈ [text "mx", text "port 1", text "2525", text "26", text "3"] := by
    simp only [List.mem_cons, Content.pair.injEq, List.not_mem_nil, or_false] at hmem
    rcases hmem with h | h | h | h | h <;> simp [h.2]
  revert hvalue
  generalize value = v
  decide +revert

theorem legible_sample : Legible sample (text "mx") where
  clean := by decide +kernel
  inRange := inRange_sample
  separate := by
    rw [contents_sample]
    exact Or.inr (Or.inr (Or.inr (Or.inr (Or.inr trivial))))
  named := by
    rw [setting, contents_sample]
    decide +kernel
  fits := by decide

theorem boot_settings_sample :
    let cfg := boot (fun _ => 7) .zeroed sample ⟨fun _ => none⟩
    cfg.get .hostname = text "mx" ∧ cfg.get .port = (26 : UInt16) ∧
      cfg.get .submissionport = (587 : UInt16) ∧ cfg.get .maxrcpt = (3 : UInt64) := by
  obtain ⟨hget, -⟩ := boot_settings (fun _ => 7) .zeroed ⟨fun _ => none⟩ legible_sample
  refine ⟨?_, ?_, ?_, ?_⟩
  all_goals
    rw [hget _ (by decide), ordered, setting, contents_sample]
    decide +kernel

end Boot

end Ervan.Main
