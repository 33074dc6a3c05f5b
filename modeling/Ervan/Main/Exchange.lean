import Ervan.Common.Config

/-!
# The configuration on its way to the SMTP process

The monitor answers FUNC_READCONFIG with one FUNC_WRITECONFIGKEY for every key of the list, and
the SMTP process sets each as it arrives. Every number arrives, set or not. A hostname arrives if
it is set and leaves room for its NUL in the buffer; otherwise the SMTP process sets its hostname
to whatever the buffer had in it.
-/

namespace Ervan.Main

/-- `config_all`. -/
abbrev ConfigAll :=
  Config [.hostname, .port, .submissionport, .debug, .maxmessagesize, .maxrcpt]

/-- The keys of `local_config`. -/
abbrev localKeys : List Key := [.hostname, .port, .submissionport, .maxmessagesize, .maxrcpt]

abbrev LocalConfig := Config localKeys

/-- `config_update`, with `data` of 256 bytes. -/
structure Update where
  key : UInt16
  data : Block 256

/-- What the `i`th request meets in memory. -/
structure Leftovers where
  /-- The bytes of an uninitialised `update.data`. -/
  data : Nat → Block 256
  /-- The bytes behind the `update.data` that is received. -/
  behind : Nat → Bytes
  /-- What is left of an uninitialised buffer when the default string is assigned to it as to a
  string object. The assignment frees and copies by the pointers that it finds there, so that the
  monitor may crash at it; this is for when it does not. -/
  assign : Nat → Block 256 → Block 256

/-- `key_list`. -/
def keyList (keys : List Key) : List UInt16 := keys.map Key.id

/-- The requests that the monitor's `handle_eipc` sends for the keys from the `i`th on. What
`dump` returns is not looked at. -/
def requests (g : Leftovers) (cfg : ConfigAll) (i : Nat) : List UInt16 → List Update
  | [] => []
  | key :: keys => ⟨key, (cfg.dump (g.assign i) key (g.data i)).2⟩ :: requests g cfg (i + 1) keys

/-- The SMTP process's `handle_eipc` on the requests from the `i`th on. -/
def handled (g : Leftovers) (i : Nat) (cfg : LocalConfig) : List Update → LocalConfig
  | [] => cfg
  | update :: updates =>
      handled g (i + 1) (cfg.setById update.key update.data (g.behind i)).1 updates

/-- FUNC_READCONFIG with the key list of the SMTP process, until it is answered. -/
def exchange (g : Leftovers) (cfg : ConfigAll) (localCfg : LocalConfig) : LocalConfig :=
  handled g 0 localCfg (requests g cfg 0 (keyList localKeys))

/-- The settings of the SMTP process are those of the monitor. -/
def Intact (cfg : ConfigAll) (localCfg : LocalConfig) : Prop :=
  (∀ k ∈ localKeys, localCfg.get k = cfg.get k) ∧
    localCfg.ensure .hostname = cfg.ensure .hostname

section Exchange

variable {g : Leftovers} {cfg : ConfigAll} {localCfg : LocalConfig}

/-- A number is read back, whichever template has written it. -/
theorem setWrite_number {t : KeyType} (ht : t ≠ .string) (v : t.Val) (b : Block 256)
    (behind : Bytes) (assign : Block 256 → Block 256) :
    setWrite (dumpDefault assign t v b).2 behind t = some v ∧
      setWrite (dumpWrite t v b).2 behind t = some v := by
  cases t with
  | string => exact absurd rfl ht
  | number m =>
      have hsize : m.bytes ≤ 256 := by cases m <;> decide
      exact ⟨setWrite_dumpNumber m v b behind hsize, setWrite_dumpNumber m v b behind hsize⟩

/-- A number arrives, set or not. -/
theorem setWrite_dumpFound {k : Key} (hnumber : k ≠ .hostname) (b : Block 256) (behind : Bytes)
    (assign : Block 256 → Block 256) :
    setWrite (cfg.dumpFound assign k b).2 behind k.type = some (cfg.get k) := by
  have htype : k.type ≠ .string := by cases k <;> first | exact absurd rfl hnumber | decide
  unfold Config.dumpFound Config.get
  cases cfg.value k with
  | none => exact (setWrite_number htype k.defaultValue b behind assign).1
  | some v => exact (setWrite_number htype v b behind assign).2

theorem setById_dump {k : Key} (hk : k ∈ localKeys) (assign : Block 256 → Block 256)
    (b : Block 256) (behind : Bytes) {v : k.type.Val}
    (h : setWrite (cfg.dumpFound assign k b).2 behind k.type = some v) :
    (localCfg.setById k.id (cfg.dump assign k.id b).2 behind).1 = localCfg.set k v := by
  have hdump : cfg.dump assign k.id b = cfg.dumpFound assign k b := by cases k <;> rfl
  have hset : (localCfg.setById k.id (cfg.dumpFound assign k b).2 behind).1 =
      ((setWrite (cfg.dumpFound assign k b).2 behind k.type).elim (localCfg, false)
        fun v => (localCfg.set k v, true)).1 := by
    cases k <;> first | rfl | exact absurd hk (by decide)
  rw [hdump, hset, h]
  rfl

/-- The string that the SMTP process takes for its hostname. -/
def hostnameReceived (g : Leftovers) (cfg : ConfigAll) : Bytes :=
  cString ((cfg.dumpFound (g.assign 0) .hostname (g.data 0)).2.bytes ++ g.behind 0)

theorem exchange_eq (g : Leftovers) (cfg : ConfigAll) (localCfg : LocalConfig) :
    exchange g cfg localCfg =
      ((((localCfg.set .hostname (hostnameReceived g cfg)).set .port (cfg.get .port)).set
        .submissionport (cfg.get .submissionport)).set
        .maxmessagesize (cfg.get .maxmessagesize)).set .maxrcpt (cfg.get .maxrcpt) := by
  have hhostname : setWrite (cfg.dumpFound (g.assign 0) .hostname (g.data 0)).2 (g.behind 0)
      (Key.type .hostname) = some (hostnameReceived g cfg) := rfl
  have hnumber (k : Key) (hother : k ≠ .hostname) (i : Nat) :
      setWrite (cfg.dumpFound (g.assign i) k (g.data i)).2 (g.behind i) k.type =
        some (cfg.get k) := setWrite_dumpFound hother _ _ _
  simp only [exchange, keyList, localKeys, List.map_cons, List.map_nil, requests, handled,
    Nat.zero_add, Nat.reduceAdd]
  rw [setById_dump (by decide) _ _ _ hhostname,
    setById_dump (by decide) _ _ _ (hnumber .port (by decide) 1),
    setById_dump (by decide) _ _ _ (hnumber .submissionport (by decide) 2),
    setById_dump (by decide) _ _ _ (hnumber .maxmessagesize (by decide) 3),
    setById_dump (by decide) _ _ _ (hnumber .maxrcpt (by decide) 4)]

theorem exchange_hostname (g : Leftovers) (cfg : ConfigAll) (localCfg : LocalConfig) :
    (exchange g cfg localCfg).get .hostname = hostnameReceived g cfg ∧
      (exchange g cfg localCfg).ensure .hostname = true := by
  rw [exchange_eq]
  exact ⟨rfl, rfl⟩

theorem exchange_number (g : Leftovers) (cfg : ConfigAll) (localCfg : LocalConfig) {k : Key}
    (hk : k ∈ localKeys) (hother : k ≠ .hostname) :
    (exchange g cfg localCfg).get k = cfg.get k := by
  rw [exchange_eq]
  cases k with
  | hostname => exact absurd rfl hother
  | debug => exact absurd hk (by decide)
  | port => rfl
  | submissionport => rfl
  | maxmessagesize => rfl
  | maxrcpt => rfl

/-- Only the hostname can arrive as something else. -/
theorem intact_iff (g : Leftovers) (cfg : ConfigAll) (localCfg : LocalConfig) :
    Intact cfg (exchange g cfg localCfg) ↔ cfg.value .hostname = some (hostnameReceived g cfg) := by
  obtain ⟨hreceived, hensured⟩ := exchange_hostname g cfg localCfg
  constructor
  · rintro ⟨hget, hensure⟩
    have hhostname := hget .hostname (by decide)
    rw [hreceived] at hhostname
    rw [hensured] at hensure
    obtain ⟨val, hval⟩ := Option.isSome_iff_exists.mp hensure.symm
    rw [Config.get, hval] at hhostname
    rw [hval, hhostname]
    rfl
  · intro hvalue
    refine ⟨fun k hk => ?_, ?_⟩
    · by_cases hother : k = .hostname
      · subst hother
        rw [hreceived, Config.get, hvalue]
        rfl
      · exact exchange_number g cfg localCfg hk hother
    · rw [hensured, Config.ensure, hvalue]
      rfl

theorem hostnameReceived_fits (g : Leftovers) {val : Bytes} (h : cfg.value .hostname = some val)
    (clean : nul ∉ val) (fits : val.length ≤ 255) : hostnameReceived g cfg = val := by
  have hset := setWrite_dumpString val clean (g.data 0) (g.behind 0) (Nat.lt_succ_of_le fits)
  have hfound : cfg.dumpFound (g.assign 0) .hostname (g.data 0) = dumpString val (g.data 0) := by
    simp only [Config.dumpFound, h, dumpWrite]
  rw [hostnameReceived, hfound]
  exact Option.some_inj.mp hset

/-- Uninitialised memory that is all NULs. -/
def Leftovers.zeroed : Leftovers where
  data _ := ⟨List.replicate 256 nul, List.length_replicate⟩
  behind _ := []
  assign _ b := b

theorem hostnameReceived_long {val : Bytes} (h : cfg.value .hostname = some val)
    (long : 255 < val.length) : hostnameReceived .zeroed cfg = [] := by
  have hfound : cfg.dumpFound (Leftovers.zeroed.assign 0) .hostname (Leftovers.zeroed.data 0) =
      (false, Leftovers.zeroed.data 0) := by
    simp only [Config.dumpFound, h, dumpWrite]
    exact dumpString_long _ long
  rw [hostnameReceived, hfound]
  rfl

/-- A hostname that does not fit the buffer is lost, which is sent as it was found. -/
theorem not_intact_long {val : Bytes} (h : cfg.value .hostname = some val)
    (long : 255 < val.length) : ¬ Intact cfg (exchange .zeroed cfg localCfg) := by
  rw [intact_iff, h, hostnameReceived_long h long]
  intro hintact
  rw [Option.some_inj.mp hintact] at long
  exact Nat.not_lt_zero 255 long

/-- Whatever the memory holds, the settings arrive intact, if and only if the hostname is set and
is at most 255 bytes long. -/
theorem config_intact (cfg : ConfigAll) (localCfg : LocalConfig)
    (clean : ∀ val, cfg.value .hostname = some val → nul ∉ val) :
    (∀ g, Intact cfg (exchange g cfg localCfg)) ↔
      ∃ val, cfg.value .hostname = some val ∧ val.length ≤ 255 := by
  constructor
  · intro intact
    have hzeroed := (intact_iff .zeroed cfg localCfg).mp (intact .zeroed)
    refine ⟨_, hzeroed, ?_⟩
    by_contra hlong
    exact not_intact_long hzeroed (Nat.lt_of_not_le hlong) (intact .zeroed)
  · rintro ⟨val, hvalue, hfits⟩ g
    rw [intact_iff, hostnameReceived_fits g hvalue (clean val hvalue) hfits]
    exact hvalue

/-- Without a hostname the SMTP process has one nevertheless, whatever the memory holds. -/
theorem not_intact_unset (g : Leftovers) (localCfg : LocalConfig)
    (unset : cfg.value .hostname = none) : ¬ Intact cfg (exchange g cfg localCfg) := by
  rw [intact_iff, unset]
  exact fun h => by cases h

/-- A monitor with the hostname `a` and the port 2525. -/
def configured : ConfigAll := (Config.set ⟨fun _ => none⟩ .hostname (text "a")).set .port (2525 : UInt16)

theorem config_intact_configured :
    (∀ g, Intact configured (exchange g configured ⟨fun _ => none⟩)) ↔
      ∃ val, configured.value .hostname = some val ∧ val.length ≤ 255 := by
  apply config_intact
  intro val hval
  cases hval
  decide

/-- The hostname is 256 bytes long. -/
theorem not_config_intact_long :
    ¬ ∀ (g : Leftovers) (cfg : ConfigAll) (localCfg : LocalConfig),
      (∀ val, cfg.value .hostname = some val → nul ∉ val) →
        Intact cfg (exchange g cfg localCfg) := by
  intro h
  have hvalue : (Config.set ⟨fun _ => none⟩ .hostname (List.replicate 256 (97 : UInt8)) :
      ConfigAll).value .hostname = some (List.replicate 256 97) := rfl
  refine not_intact_long hvalue ?_ (h .zeroed _ ⟨fun _ => none⟩ fun val hval => ?_)
  · rw [List.length_replicate]
    decide
  · rw [hvalue] at hval
    rw [← Option.some_inj.mp hval]
    exact fun hmem => absurd (List.eq_of_mem_replicate hmem) (by decide)

end Exchange

end Ervan.Main
