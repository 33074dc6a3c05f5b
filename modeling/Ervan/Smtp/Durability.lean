import Ervan.Smtp.History

/-!
# Durability

The error flag of a transaction is clear only if every write since its file was opened
has succeeded, so the one way to a 250 for a message that is not safe is a
synchronisation that is accepted and fails later.
-/

namespace Ervan.Smtp

/-- The operations since a spool file was last opened. -/
def transaction (log : List Event) : List Event :=
  log.foldl (fun ops e => match e with
    | .open_ _ _ => [e]
    | _ => ops ++ [e]) []

theorem transaction_append_opened (log : List Event) (path : Bytes) (ok : Bool) :
    transaction (log ++ [.open_ path ok]) = [.open_ path ok] := by
  simp [transaction]

/-- Operations that open no file belong to the same transaction. -/
theorem transaction_append (log : List Event) {es : List Event}
    (h : ∀ e ∈ es, ∀ path ok, e ≠ Event.open_ path ok) :
    transaction (log ++ es) = transaction log ++ es := by
  induction es using List.reverseRecOn with
  | nil => simp
  | append_singleton es e ih =>
      have hlast := h e (by simp)
      rw [← List.append_assoc, transaction, List.foldl_append, ← transaction,
        ih fun e he => h e (List.mem_append_left _ he)]
      cases e with
      | open_ path ok => exact absurd rfl (hlast path ok)
      | _ => simp

/-- The transaction starts where the file is opened. -/
theorem transaction_opened (log : List Event) (path : Bytes) (ok : Bool) {es : List Event}
    (h : ∀ e ∈ es, ∀ path ok, e ≠ Event.open_ path ok) :
    transaction (log ++ .open_ path ok :: es) = .open_ path ok :: es := by
  rw [List.append_cons, transaction_append _ h, transaction_append_opened]
  rfl

theorem isFile_ne_open {e : Event} (h : e.isFile = true) (path : Bytes) (ok : Bool) :
    e ≠ Event.open_ path ok := by
  rintro rfl
  cases h

namespace Core

/-- In the data state the error flag tells whether the transaction has failed so far. -/
def Tracked (c : Core) : Prop :=
  c.state = .data → c.dataError = false → ∀ e ∈ transaction c.log, e.succeeded = true

variable {env : Env} {exact : Prop} {c c' : Core}

theorem Tracked.turned (h : c.Tracked) (step : Turned env exact c c') : c'.Tracked := by
  intro hdata hclear
  cases step with
  | idle => exact h hdata hclear
  | longCommand state => exact absurd (state.symm.trans hdata) (by decide)
  | command state line _ step =>
      obtain ⟨-, -, -, hopened, rfl⟩ := step.entered_of_data state hdata
      obtain ⟨path, ok, es, hlog, hfile, hok⟩ := (openFiles_opened env (c.emit (.line line))).log
      obtain ⟨rfl, hsucceeded⟩ := hok hopened
      have hlater : ∀ e ∈ es ++ [.reply .startData], ∀ path ok, e ≠ Event.open_ path ok := by
        intro e he
        rcases List.mem_append.mp he with he | he
        · exact isFile_ne_open (hfile e he)
        · rw [List.mem_singleton.mp he]
          simp
      rw [reply_log, dataEntered, hlog, List.append_assoc, List.cons_append,
        transaction_opened _ path true hlater]
      intro e he
      simp only [List.mem_cons, List.mem_append, List.not_mem_nil, or_false] at he
      rcases he with rfl | he | rfl
      · rfl
      · exact hsucceeded e he
      · rfl
  | longData state => exact h hdata hclear
  | stored state line =>
      obtain ⟨es, hlog, hfile, hok⟩ := (store_steps env line c).log
      obtain ⟨hbefore, hsucceeded⟩ := hok.mp hclear
      rw [measureLine_eq] at hlog hbefore
      rw [hlog, transaction_append c.log fun e he => isFile_ne_open (hfile e he)]
      intro e he
      rcases List.mem_append.mp he with he | he
      · exact h state hbefore e he
      · exact hsucceeded e he
  | ended state =>
      rw [(endData_ended env c).eq.1] at hdata
      cases hdata

/-- When the file is completed, only its synchronisation can still have failed. -/
theorem Tracked.completed (h : c.Tracked) (state : c.state = .data) {c₁ : Core}
    (done : Completed env c c₁) :
    transaction ((c₁.syncFile env).1.finishReply env).log =
      transaction c₁.log ++ [.fsync (c₁.answer env).fsync,
        .close ((c₁.dataFile.map DataFile.contents).getD []), .reply .ok] ∧
      ∀ e ∈ transaction c₁.log, e.succeeded = true := by
  obtain ⟨es, hlog, hfile, hok⟩ := done.steps.log
  obtain ⟨hbefore, hsucceeded⟩ := hok.mp done.clear
  refine ⟨?_, ?_⟩
  · rw [finishReply_eq, transaction_append]
    simp
  · rw [hlog, transaction_append c.log fun e he => isFile_ne_open (hfile e he)]
    intro e he
    rcases List.mem_append.mp he with he | he
    · exact h state hbefore e he
    · exact hsucceeded e he

end Core

namespace Session

theorem tracked_always (env : Env) (mem : Memory) (chunks : List Bytes) :
    Run.Always (advance env) (fun x => x.1.Tracked) (start env mem, chunks) := by
  refine Run.always_of_step (advance env) ?_ fun x h => h.turned (advance_turned env x)
  intro hdata
  cases hdata

end Session

end Ervan.Smtp
