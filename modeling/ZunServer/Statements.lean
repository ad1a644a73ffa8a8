import ZunServer.Schema

/-!
# The SQL statements on `jobs`

Every statement of the repository that writes the `jobs` table, under the name
of the function that runs it. A statement is one step: SQLite runs it on its
own, and one that fails has changed nothing.
-/
namespace ZunServer.Statements

open KeyedTable
open Schema

/-- `worker::reset_running_jobs`. -/
def resetRunningJobs : Update JobRow.id where
  cond r := r.status = .running
  set r := { r with status := .queued, startedAt := none, comfyPromptId := none,
                    errorMessage := none, progress := 0 }
  keeps _ := rfl

/-- `worker::mark_running`: the claim. -/
def markRunning (now : Int) (jobId : String) : Update JobRow.id where
  cond r := r.id = jobId ∧ r.status = .queued ∧ r.deletedAt = none
  set r := { r with status := .running, startedAt := some now, progress := 0 }
  keeps _ := rfl

/-- `worker::update_comfy_prompt_id`; not gated on the status. -/
def updateComfyPromptId (jobId comfyId : String) : Update JobRow.id where
  cond r := r.id = jobId
  set r := { r with comfyPromptId := some comfyId }
  keeps _ := rfl

/-- The progress writer of `process_job`. -/
def writeProgress (jobId : String) (p : ℚ) : Update JobRow.id where
  cond r := r.id = jobId ∧ r.status = .running
  set r := { r with progress := p }
  keeps _ := rfl

/-- `worker::mark_done`. -/
def markDone (now : Int) (jobId : String) (outputPath : DataPath) (width height : Option Int) :
    Update JobRow.id where
  cond r := r.id = jobId ∧ r.status = .running
  set r := { r with status := .done, outputPath := some outputPath, completedAt := some now,
                    width := width, height := height, progress := 1 }
  keeps _ := rfl

/-- `worker::requeue`. -/
def requeue (jobId : String) : Update JobRow.id where
  cond r := r.id = jobId ∧ r.status = .running
  set r := { r with status := .queued, startedAt := none, comfyPromptId := none, progress := 0 }
  keeps _ := rfl

/-- `worker::mark_failed`. -/
def markFailed (now : Int) (jobId errorMessage : String) : Update JobRow.id where
  cond r := r.id = jobId ∧ r.status = .running
  set r := { r with status := .failed, errorMessage := some errorMessage, completedAt := some now }
  keeps _ := rfl

/-- `UPDATE jobs SET status = 'cancelled' .. WHERE id = ? AND status = ?`. -/
def cancelFrom (status : Status) (now : Int) (jobId : String) : Update JobRow.id where
  cond r := r.id = jobId ∧ r.status = status
  set r := { r with status := .cancelled, completedAt := some now }
  keeps _ := rfl

/-- The first and the third `UPDATE` of `cancel_job`. -/
def cancelRunning : Int → String → Update JobRow.id := cancelFrom .running

/-- The second `UPDATE` of `cancel_job`. -/
def cancelQueued : Int → String → Update JobRow.id := cancelFrom .queued

/-- `handlers::delete_job`. -/
def deleteJob (now : Int) (jobId : String) : Update JobRow.id where
  cond r := r.id = jobId ∧ r.deletedAt = none
  set r := { r with deletedAt := some now }
  keeps _ := rfl

/-- `handlers::restore_job`. -/
def restoreJob (jobId : String) : Update JobRow.id where
  cond r := r.id = jobId ∧ r.deletedAt ≠ none
  set r := { r with deletedAt := none }
  keeps _ := rfl

/-- `derived_images::render_and_persist`; not gated on the status. -/
def setDerivedPath (column : Column) (jobId : String) (rel : DataPath) : Update JobRow.id where
  cond r := r.id = jobId
  set r := match column with
    | .thumb => { r with thumbPath := some rel }
    | .preview => { r with previewPath := some rel }
  keeps r := by cases column <;> rfl

/-- The row `submit_job` inserts: every column it does not name is NULL, and
`progress` takes its default. -/
def newJob (id : String) (inputId : Int) (sourcePromptId : Option Int)
    (promptText workflow : String) (timeoutSeconds seed now : Int) : JobRow where
  id := id
  inputId := inputId
  sourcePromptId := sourcePromptId
  promptText := promptText
  workflow := workflow
  timeoutSeconds := some timeoutSeconds
  seed := seed
  status := .queued
  comfyPromptId := none
  outputPath := none
  thumbPath := none
  errorMessage := none
  width := none
  height := none
  createdAt := now
  startedAt := none
  completedAt := none
  deletedAt := none
  previewPath := none
  progress := 0

/-- The `UPDATE` statements as data. -/
inductive JobStmt where
  | resetRunningJobs
  | markRunning (now : Int) (jobId : String)
  | updateComfyPromptId (jobId comfyId : String)
  | writeProgress (jobId : String) (p : ℚ)
  | markDone (now : Int) (jobId : String) (outputPath : DataPath) (width height : Option Int)
  | requeue (jobId : String)
  | markFailed (now : Int) (jobId errorMessage : String)
  | cancelRunning (now : Int) (jobId : String)
  | cancelQueued (now : Int) (jobId : String)
  | deleteJob (now : Int) (jobId : String)
  | restoreJob (jobId : String)
  | setDerivedPath (column : Column) (jobId : String) (rel : DataPath)
  deriving DecidableEq, Repr

def JobStmt.update : JobStmt → Update JobRow.id
  | .resetRunningJobs => Statements.resetRunningJobs
  | .markRunning now id => Statements.markRunning now id
  | .updateComfyPromptId id c => Statements.updateComfyPromptId id c
  | .writeProgress id p => Statements.writeProgress id p
  | .markDone now id out w h => Statements.markDone now id out w h
  | .requeue id => Statements.requeue id
  | .markFailed now id e => Statements.markFailed now id e
  | .cancelRunning now id => Statements.cancelRunning now id
  | .cancelQueued now id => Statements.cancelQueued now id
  | .deleteJob now id => Statements.deleteJob now id
  | .restoreJob id => Statements.restoreJob id
  | .setDerivedPath col id rel => Statements.setDerivedPath col id rel

/-- The one row a statement is about; the startup reset is about all. -/
def JobStmt.target : JobStmt → Option String
  | .resetRunningJobs => none
  | .markRunning _ id | .updateComfyPromptId id _ | .writeProgress id _ | .markDone _ id _ _ _
  | .requeue id | .markFailed _ id _ | .cancelRunning _ id | .cancelQueued _ id
  | .deleteJob _ id | .restoreJob id
  | .setDerivedPath _ id _ => some id

theorem JobStmt.cond_target {st : JobStmt} {id : String} (ht : st.target = some id) {r : JobRow}
    (h : st.update.cond r = true) : r.id = id := by
  cases st with
  | resetRunningJobs => simp [target] at ht
  | updateComfyPromptId j c | setDerivedPath j c p =>
    simp_all [target, update, Statements.updateComfyPromptId, Statements.setDerivedPath]
  | _ =>
    simp only [target, Option.some.injEq] at ht
    simp only [update, Statements.markRunning, Statements.writeProgress, Statements.markDone,
      Statements.requeue, Statements.markFailed, Statements.cancelRunning,
      Statements.cancelQueued, Statements.cancelFrom, Statements.deleteJob, Statements.restoreJob, decide_eq_true_eq] at h
    exact h.1.trans ht

/-- `rows_affected` of a statement about one row tells whether it met its guard. -/
theorem JobStmt.affected_target {st : JobStmt} {id : String} (ht : st.target = some id) (t : Jobs) :
    t.affected st.update = if (t.find? id).any st.update.cond then 1 else 0 :=
  Table.affected_keyed (fun _ h => st.cond_target ht h)

theorem JobStmt.affected_eq_one {st : JobStmt} {id : String} (ht : st.target = some id) {t : Jobs} :
    t.affected st.update = 1 ↔ ∃ r, t.find? id = some r ∧ st.update.cond r = true := by
  rw [affected_target ht]
  cases t.find? id with
  | none => simp
  | some r => cases h : st.update.cond r <;> simp [h]

end ZunServer.Statements
