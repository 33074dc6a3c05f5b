import Ervan.Main.Settings
import Ervan.Smtp.Limits
import Ervan.Smtp.Serving

/-!
# The server as its config file orders it

The text of the config is read by the monitor, the settings go to the SMTP process, and its
sessions serve with them: from the bytes of the file and the bytes of a client to the replies and
the files in the spool directory.
-/

namespace Ervan.Main

open Smtp Framing

/-- What a session reads of the settings. -/
def sessionConfig (cfg : LocalConfig) : Smtp.Config where
  hostname := cfg.get .hostname
  maxmessagesize := UInt64.toNat (cfg.get .maxmessagesize)
  maxrcpt := UInt64.toNat (cfg.get .maxrcpt)

/-- What the text orders for the sessions. -/
def orderedConfig (file : Bytes) : Smtp.Config where
  hostname := ordered file .hostname
  maxmessagesize := UInt64.toNat (ordered file .maxmessagesize)
  maxrcpt := UInt64.toNat (ordered file .maxrcpt)

variable {file name : Bytes}

theorem Legible.sessionConfig (h : Legible file name) (stack : Bytes → UInt64) (g : Leftovers)
    (localCfg : LocalConfig) :
    sessionConfig (boot stack g file localCfg) = orderedConfig file := by
  simp only [Main.sessionConfig, orderedConfig, h.get stack g localCfg (k := .hostname) (by decide),
    h.get stack g localCfg (k := .maxmessagesize) (by decide),
    h.get stack g localCfg (k := .maxrcpt) (by decide)]

/-- A session of a server that has read the text serves as the text orders: its replies are those
of a service with these settings, and so are the messages in its delivered files, all of which are
within the limits of the text. -/
theorem serves_ordered (h : Legible file name) (stack : Bytes → UInt64) (g : Leftovers)
    (localCfg : LocalConfig) (env : Env)
    (configured : ∀ n, (env n).cfg = sessionConfig (boot stack g file localCfg))
    (posix : ∀ n, (env n).told = true)
    (room : (orderedConfig file).maxmessagesize + 1024 < 2 ^ 64) (removed : Nat → Bool)
    (mem : Memory) (chunks : List Bytes) (byLine : Session.ByLine env mem chunks) :
    ∃ outcomes : List Bool, outcomes.length = (splitCrlf [] chunks.flatten).1.length ∧
      let v := (Service.start (orderedConfig file)).hearAll (orderedConfig file)
        (outcomes.zip (splitCrlf [] chunks.flatten).1)
      let c := ((Session.start env mem).feedAll env chunks).toCore
      Smtp.replies c.log = v.replies ∧
        List.Forall₂ (Message.Filed env) v.messages
          ((c.trail env removed).delivered.map Prod.snd) ∧
        ∀ m ∈ v.messages, m.Within (orderedConfig file) := by
  have fixed (n : Nat) : (env n).cfg = orderedConfig file :=
    (configured n).trans (h.sessionConfig stack g localCfg)
  obtain ⟨outcomes, hlength, -, hserves⟩ := Session.exists_serves env (orderedConfig file) fixed
    posix room removed mem chunks byLine
  exact ⟨outcomes, hlength, hserves.replies, hserves.filed,
    ((Service.Within.start _).hearAll _).messages⟩

theorem orderedConfig_sample : orderedConfig sample = ⟨text "mx", 33554432, 3⟩ := by
  rw [orderedConfig, ordered, ordered, ordered, setting, setting, setting, contents_sample]
  decide +kernel

/-- Everything works, with the settings of `sample`. -/
def deployed : Env := fun _ =>
  { Answer.ideal with cfg := sessionConfig (boot (fun _ => 7) .zeroed sample ⟨fun _ => none⟩) }

theorem serves_ordered_sample :
    ∃ v : Service, v.messages.all (·.envelope.forwardPaths.length ≤ 3) = true ∧
      Smtp.replies ((Session.start deployed .zeroed).feedAll deployed Session.twoMessages).log =
        v.replies := by
  have hconfig := orderedConfig_sample
  obtain ⟨outcomes, -, hreplies, -, hwithin⟩ := serves_ordered legible_sample (fun _ => 7) .zeroed
    ⟨fun _ => none⟩ deployed (fun _ => rfl) (fun _ => rfl) (by rw [hconfig]; decide)
    (fun _ => true) .zeroed Session.twoMessages
    (Session.byLine_twoMessages deployed)
  refine ⟨_, ?_, hreplies⟩
  rw [hconfig] at hwithin ⊢
  exact List.all_eq_true.mpr fun m hm => decide_eq_true (hwithin m hm).recipients

end Ervan.Main
