import Ervan.Smtp.Record
import Ervan.Smtp.Server

/-!
# What is found in the spool directory

The file of an acknowledged transaction can be read from the directory at any later time, whatever
other sessions do, if it can be read at all.
-/

namespace Ervan.Smtp

open Session

namespace Server

variable {ι : Type} [DecidableEq ι]

/-- In every interleaving, the regular file of a message that has been answered with 250 is read
from the directory as an archive of the lines received since DATA, behind the trace information, and
of the envelope record, which is the list of its entries, if and only if the message does not end at
the end of a block and the sizes fit their headers. -/
theorem read_back (S : Server ι) (d : Directory (Option ι)) (trace : List (ι × Happening))
    (h : S.Trace trace) (ready : Ready d trace) (i : ι) (n : Nat) (sent : S.Sent trace i n)
    (posix : ∀ k, (S.env i k).told = true) :
    let message := ((S.reached i n).1.traced (S.env i)).flatten ++
      terminated ((dataLines (S.env i) (S.reached i 0) n).map unstuff)
    let md := (S.reached i n).1.metadata
    (((spool d trace).lookup (S.reached i n).1.dataPath).bind Archive.members =
        some [⟨text "message.mbox", message⟩, ⟨text "metadata.ervan", md.record⟩] ↔
      message.length % 512 ≠ 0 ∧ message.length < 8 ^ 11 ∧ md.record.length < 8 ^ 11) ∧
    splitCrlf [] (md.record.drop 184) = (md.entries, []) := by
  have hbody : (S.reached i n).1.body = ((S.reached i n).1.traced (S.env i)).flatten ++
      terminated ((dataLines (S.env i) (S.reached i 0) n).map unstuff) := body_acknowledged sent.1
  obtain ⟨contents, hclose⟩ := sent.closed
  have hlookup := h.delivered ready ((delivered_grows sent.2).mem (sent.delivered hclose))
  have hspooled := spooled_always (S.env i) (S.mem i) (S.chunks i) n
  have harchived := archived_iff posix hspooled sent.1
  have hclean := always_clean (S.env i) (S.mem i) (S.chunks i) n
  refine ⟨?_, hclean.split⟩
  have hread : Archived (S.env i) (S.reached i n) ↔ Archive.members contents =
      some [⟨text "message.mbox", (S.reached i n).1.body⟩,
        ⟨text "metadata.ervan", (S.reached i n).1.metadata.record⟩] := by
    refine ⟨fun harchived => harchived contents hclose, fun hmembers contents' hclose' => ?_⟩
    rw [sent.closed_unique hclose' hclose]
    exact hmembers
  rw [hlookup, Option.bind_some, ← hbody]
  exact hread.symm.trans harchived

theorem read_back_pair :
    ((spool emptySpool pairTrace).lookup (pair.reached false 8).1.dataPath).bind Archive.members =
      some [⟨text "message.mbox", ((pair.reached false 8).1.traced (pair.env false)).flatten ++
          terminated ((dataLines (pair.env false) (pair.reached false 0) 8).map unstuff)⟩,
        ⟨text "metadata.ervan", (pair.reached false 8).1.metadata.record⟩] :=
  (read_back pair emptySpool pairTrace trace_pair ready_pair false 8 sent_pair fun _ => rfl).1.mpr
    (by decide +kernel)

end Server

end Ervan.Smtp
