import Ervan.Smtp.DataPhase
import Ervan.Smtp.Service

/-!
# The limits of the service

What holds of every message that the service has accepted, after whatever lines: it has between one
and `maxrcpt` recipients, none of its lines is too long, and with its line breaks it is not larger
than `maxmessagesize`.
-/

namespace Ervan.Smtp

/-- The message is within the limits. -/
structure Message.Within (cfg : Config) (m : Message) : Prop where
  addressed : m.envelope.forwardPaths ≠ []
  recipients : m.envelope.forwardPaths.length ≤ cfg.maxrcpt
  short : ∀ line ∈ m.lines, line.length ≤ 996
  size : (terminated m.lines).length ≤ cfg.maxmessagesize

/-- The accepted messages are within the limits, and the one that is being received has
recipients, of whom there are not too many. -/
structure Service.Within (cfg : Config) (v : Service) : Prop where
  recipients : v.envelope.forwardPaths.length ≤ cfg.maxrcpt
  addressed : ∀ lines, v.phase = .data lines → v.envelope.forwardPaths ≠ []
  messages : ∀ m ∈ v.messages, m.Within cfg

/-- The size that is received is that of the lines as they are kept. -/
theorem length_terminated_unstuff (lines : List Bytes) :
    (terminated (lines.map unstuff)).length = wireSize lines := by
  simp [terminated, wireSize, List.length_flatMap, Function.comp_def, crlf]

/-- Lines that are not too long fit the line buffer. -/
theorem receivedSize_of_short {lines : List Bytes} (h : overlong lines = false) :
    receivedSize lines = wireSize lines := by
  have hall : (lines.filter fun line => line.length ≤ 1022) = lines := by
    apply List.filter_eq_self.mpr
    intro line hline
    have hshort : ¬ 996 < (unstuff line).length := by
      simpa using List.any_eq_false.mp h line hline
    have hlen : line.length ≤ (unstuff line).length + 1 := by
      unfold unstuff
      split
      · rw [List.length_tail]
        omega
      · omega
    exact decide_eq_true (by omega)
  rw [receivedSize, hall]

namespace Service

variable {cfg : Config} {v : Service} {line : Bytes}

theorem Within.start (cfg : Config) : (Service.start cfg).Within cfg :=
  ⟨Nat.zero_le _, nofun, fun _ hm => absurd hm List.not_mem_nil⟩

theorem Within.say (h : v.Within cfg) (r : Reply) : (v.say r).Within cfg :=
  ⟨h.recipients, h.addressed, h.messages⟩

theorem Within.renew (h : v.Within cfg) : v.renew.Within cfg := ⟨Nat.zero_le _, nofun, h.messages⟩

theorem Within.greet (h : v.Within cfg) (r : Reply) : (v.greet line r).Within cfg := by
  unfold Service.greet
  split
  · exact h.say _
  · refine Within.say ?_ r
    exact ⟨Nat.zero_le _, nofun, h.messages⟩

theorem Within.mail (h : v.Within cfg) (hphase : v.phase = .cmd) : (v.mail line).Within cfg := by
  unfold Service.mail
  split
  · exact h.say _
  · split
    · exact h.say _
    · split
      · exact h.say _
      · refine Within.say ?_ _
        exact ⟨Nat.zero_le _, fun lines hdata => (by cases hphase.symm.trans hdata), h.messages⟩

/-- A recipient is added only below the limit. -/
theorem Within.rcpt (h : v.Within cfg) (hphase : v.phase = .cmd) :
    (v.rcpt cfg line).Within cfg := by
  unfold Service.rcpt
  split
  · exact h.say _
  · split
    · exact h.say _
    · split
      · exact h.say _
      · rename_i hroom
        split
        · exact h.say _
        · refine Within.say ?_ _
          refine ⟨?_, fun lines hdata => ?_, h.messages⟩
          · simpa [Nat.succ_le_iff] using Nat.not_le.mp hroom
          · cases hphase.symm.trans hdata

/-- A message begins only with a recipient. -/
theorem Within.data (h : v.Within cfg) (works : Bool) : (v.data works).Within cfg := by
  unfold Service.data
  split
  · exact h.say _
  · rename_i hready
    split
    · exact h.say _
    · refine Within.say ?_ _
      refine ⟨h.recipients, fun lines _ hnone => hready ?_, h.messages⟩
      rw [show v.envelope.forwardPaths = [] from hnone]
      simp

theorem Within.command (h : v.Within cfg) (hphase : v.phase = .cmd) (works : Bool) :
    (v.command cfg works line).Within cfg := by
  unfold Service.command
  cases verbOf line with
  | none => exact h.say _
  | some verb =>
      cases verb with
      | ehlo => exact h.greet _
      | helo => exact h.greet _
      | mail => exact h.mail hphase
      | rcpt => exact h.rcpt hphase
      | data => exact h.data works
      | rset => exact h.renew.say _
      | vrfy => exact h.say _
      | noop => exact h.say _
      | quit => exact ⟨h.recipients, nofun, h.messages⟩

/-- A message is accepted only within the limits. -/
theorem Within.finish (h : v.Within cfg) {lines : List Bytes} (hphase : v.phase = .data lines)
    (works : Bool) : (v.finish cfg works lines).Within cfg := by
  by_cases hbig : cfg.maxmessagesize < receivedSize lines
  · rw [finish_big hbig]
    exact h.renew.say _
  · cases hlong : overlong lines with
    | true =>
        rw [finish_long hbig hlong]
        exact h.renew.say _
    | false =>
        rw [finish_within hbig hlong]
        split
        · exact h.renew.say _
        · refine Within.say ?_ _
          refine ⟨Nat.zero_le _, nofun, fun m hm => ?_⟩
          rcases List.mem_append.mp hm with hm | hm
          · exact h.messages m hm
          · rw [List.mem_singleton.mp hm]
            refine ⟨h.addressed lines hphase, h.recipients, fun line hline => ?_, ?_⟩
            · obtain ⟨line, hmem, rfl⟩ := List.mem_map.mp hline
              simpa using List.any_eq_false.mp hlong line hmem
            · rw [length_terminated_unstuff, ← receivedSize_of_short hlong]
              exact Nat.not_lt.mp hbig

theorem Within.hear (h : v.Within cfg) (works : Bool) (line : Bytes) :
    (v.hear cfg works line).Within cfg := by
  unfold Service.hear
  split
  · exact h
  · split
    · exact h.command ‹_› works
    · exact h.say _
  · rename_i lines hphase
    split
    · exact h.finish hphase works
    · exact ⟨h.recipients, fun _ _ => h.addressed lines hphase, h.messages⟩

/-- Whatever the lines are, and whatever works, the accepted messages are within the limits. -/
theorem Within.hearAll (h : v.Within cfg) (lines : List (Bool × Bytes)) :
    (v.hearAll cfg lines).Within cfg := by
  induction lines generalizing v with
  | nil => exact h
  | cons x lines ih => exact ih (h.hear x.1 x.2)

/-- The lines that have been received are lines with `P`, without the dots. -/
structure Made (P : Bytes → Prop) (v : Service) : Prop where
  lines : ∀ lines, v.phase = .data lines → ∀ line ∈ lines, P line
  messages : ∀ m ∈ v.messages, ∀ line ∈ m.lines, ∃ received, P received ∧ line = unstuff received

variable {P : Bytes → Prop}

theorem Made.start (cfg : Config) : (Service.start cfg).Made P :=
  ⟨nofun, fun _ hm => absurd hm List.not_mem_nil⟩

theorem Made.keeps {v' : Service} (h : v.Made P) (hkeeps : v.Keeps v') : v'.Made P := by
  refine ⟨fun lines hdata line hline => ?_, hkeeps.messages ▸ h.messages⟩
  rw [hkeeps.phase lines hdata] at hline
  cases hline

theorem Made.finish (h : v.Made P) {lines : List Bytes} (hphase : v.phase = .data lines)
    (works : Bool) : (v.finish cfg works lines).Made P := by
  have hrenew (r : Reply) : (v.renew.say r).Made P := ⟨nofun, h.messages⟩
  by_cases hbig : cfg.maxmessagesize < receivedSize lines
  · rw [finish_big hbig]
    exact hrenew _
  · cases hlong : overlong lines with
    | true =>
        rw [finish_long hbig hlong]
        exact hrenew _
    | false =>
        rw [finish_within hbig hlong]
        split
        · exact hrenew _
        · refine ⟨nofun, fun m hm => ?_⟩
          rcases List.mem_append.mp hm with hm | hm
          · exact h.messages m hm
          · rw [List.mem_singleton.mp hm]
            intro line hline
            obtain ⟨received, hmem, rfl⟩ := List.mem_map.mp hline
            exact ⟨received, h.lines lines hphase received hmem, rfl⟩

theorem Made.hear (h : v.Made P) (works : Bool) (hline : P line) :
    (v.hear cfg works line).Made P := by
  unfold Service.hear
  split
  · exact h
  · split
    · exact h.keeps (command_keeps ‹_› works)
    · exact h.keeps ((Keeps.refl ‹_›).say _)
  · rename_i lines hphase
    split
    · exact h.finish hphase works
    · refine ⟨fun lines' hdata => ?_, h.messages⟩
      cases hdata
      intro line' hline'
      rcases List.mem_append.mp hline' with hline' | hline'
      · exact h.lines lines hphase line' hline'
      · rw [List.mem_singleton.mp hline']
        exact hline

theorem Made.hearAll (h : v.Made P) {lines : List (Bool × Bytes)} (hlines : ∀ x ∈ lines, P x.2) :
    (v.hearAll cfg lines).Made P := by
  induction lines generalizing v with
  | nil => exact h
  | cons x lines ih =>
      exact ih (h.hear x.1 (hlines x List.mem_cons_self)) fun y hy =>
        hlines y (List.mem_cons_of_mem x hy)

end Service

end Ervan.Smtp
