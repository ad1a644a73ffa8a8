import ZunServer.Statements

/-!
# The database

All statements of the modelled functions as one type, with what each returns
and what it leaves. Only the statements of `JobStmt`, the `INSERT` of a job and
the `DELETE` of purge write the `jobs` table.
-/
namespace ZunServer.Database

open KeyedTable
open Schema Statements

structure Db where
  jobs : Jobs
  inputs : Inputs
  prompts : Prompts

def Db.empty : Db := ⟨Table.empty, Table.empty, Table.empty⟩

/-- What `fetch_oldest_queued` returns of a row. -/
structure QueuedJob where
  id : String
  inputId : Int
  promptText : String
  workflow : String
  timeoutSeconds : Option Int
  seed : Int
  deriving DecidableEq, Repr

def QueuedJob.of (r : JobRow) : QueuedJob :=
  ⟨r.id, r.inputId, r.promptText, r.workflow, r.timeoutSeconds, r.seed⟩

/-- `created_at ASC, id ASC`. -/
def olderThan (a b : JobRow) : Bool :=
  a.createdAt < b.createdAt ∨ (a.createdAt = b.createdAt ∧ a.id < b.id)

def runnable (r : JobRow) : Bool := r.status = .queued ∧ r.deletedAt = none

/-- What the first `SELECT` of `purge::run` returns of a row. -/
structure StaleJob where
  id : String
  outputPath : Option DataPath
  thumbPath : Option DataPath
  previewPath : Option DataPath
  deriving DecidableEq, Repr

def StaleJob.of (r : JobRow) : StaleJob := ⟨r.id, r.outputPath, r.thumbPath, r.previewPath⟩

/-- `deleted_at IS NOT NULL AND deleted_at < cutoff`. -/
def deletedBefore (cutoff : Int) (r : JobRow) : Bool := r.deletedAt.any (· < cutoff)

/-- The columns of `inputs` that `resolve_input` writes along with the file. -/
structure InputFields where
  path : DataPath
  originalName : Option String
  contentType : String
  sizeBytes : Int
  width : Option Int
  height : Option Int
  deriving DecidableEq, Repr

/-- `UPDATE inputs SET last_used_at = ? WHERE id = ?`. -/
def touchInput (now id : Int) : Update InputRow.id where
  cond r := r.id = id
  set r := { r with lastUsedAt := now }
  keeps _ := rfl

/-- `UPDATE inputs SET path = NULL WHERE id = ?`, in `resolve_input` and in purge. -/
def clearInputPath (id : Int) : Update InputRow.id where
  cond r := r.id = id
  set r := { r with path := none }
  keeps _ := rfl

/-- The `UPDATE` of `resolve_input` after a re-upload. -/
def storeInput (now id : Int) (f : InputFields) : Update InputRow.id where
  cond r := r.id = id
  set r := { r with path := some f.path, originalName := f.originalName,
                    contentType := some f.contentType, sizeBytes := some f.sizeBytes,
                    width := f.width, height := f.height, lastUsedAt := now }
  keeps _ := rfl

/-- SQLite gives a new row the largest rowid plus one. -/
def nextRowId (t : Inputs) : Int := (t.rows.map InputRow.id).foldl max 0 + 1

def newInput (id : Int) (sha256 : String) (now : Int) (f : InputFields) : InputRow where
  id := id
  sha256 := sha256
  path := some f.path
  originalName := f.originalName
  contentType := some f.contentType
  sizeBytes := some f.sizeBytes
  width := f.width
  height := f.height
  createdAt := now
  lastUsedAt := now

/-- What `fetch_job_row` returns of a row. -/
structure JobFullRow where
  id : String
  inputId : Int
  sourcePromptId : Option Int
  promptText : String
  workflow : String
  seed : Int
  status : Status
  progress : ℚ
  errorMessage : Option String
  createdAt : Int
  startedAt : Option Int
  completedAt : Option Int
  width : Option Int
  height : Option Int
  deriving DecidableEq, Repr

def JobFullRow.of (r : JobRow) : JobFullRow :=
  ⟨r.id, r.inputId, r.sourcePromptId, r.promptText, r.workflow, r.seed, r.status, r.progress,
    r.errorMessage, r.createdAt, r.startedAt, r.completedAt, r.width, r.height⟩

/-- The queued jobs that `get_job` counts in front of one. -/
def queuedBefore (createdAt : Int) (jobId : String) (r : JobRow) : Bool :=
  r.status = .queued ∧ r.deletedAt = none ∧
    (r.createdAt < createdAt ∨ (r.createdAt = createdAt ∧ r.id < jobId))

/-- What `custom_prompts::fetch` returns of a row. -/
structure CustomPromptRow where
  id : Int
  label : String
  description : Option String
  text : String
  workflow : String
  timeoutSeconds : Option Int
  createdAt : Int
  updatedAt : Int
  deriving DecidableEq, Repr

def CustomPromptRow.of (r : PromptRow) : CustomPromptRow :=
  ⟨r.id, r.label, r.description, r.text, r.workflow, r.timeoutSeconds, r.createdAt, r.updatedAt⟩

/-- The columns of `custom_prompts` that a client chooses. -/
structure PromptFields where
  label : String
  description : Option String
  text : String
  workflow : String
  timeoutSeconds : Option Int
  deriving DecidableEq, Repr

def nextPromptId (t : Prompts) : Int := (t.rows.map PromptRow.id).foldl max 0 + 1

/-- The `INSERT` of `custom_prompts::create`. -/
def newPrompt (id now : Int) (f : PromptFields) : PromptRow where
  id := id
  label := f.label
  description := f.description
  text := f.text
  workflow := f.workflow
  timeoutSeconds := f.timeoutSeconds
  createdAt := now
  updatedAt := now
  deletedAt := none

/-- The `UPDATE` of `custom_prompts::update`; not gated on `deleted_at`. -/
def updatePrompt (now id : Int) (f : PromptFields) : Update PromptRow.id where
  cond r := r.id = id
  set r := { r with label := f.label, description := f.description, text := f.text,
                    workflow := f.workflow, timeoutSeconds := f.timeoutSeconds, updatedAt := now }
  keeps _ := rfl

/-- The `UPDATE` of `custom_prompts::delete`. -/
def deletePrompt (now id : Int) : Update PromptRow.id where
  cond r := r.id = id ∧ r.deletedAt = none
  set r := { r with deletedAt := some now }
  keeps _ := rfl

inductive Sql where
  | job (st : JobStmt)
  | insertJob (row : JobRow)
  | deleteJobRow (jobId : String)
  | fetchOldestQueued
  | selectDerived (column : Column) (jobId : String)
  | selectStaleJobs (cutoff : Int)
  | selectInputBySha (sha256 : String)
  | selectInputById (id : Int)
  | touchInput (now id : Int)
  | clearInputPath (id : Int)
  | storeInput (now id : Int) (f : InputFields)
  | insertInput (sha256 : String) (now : Int) (f : InputFields)
  | selectStaleInputs (cutoff : Int)
  | selectPrompt (id : Int)
  | fetchJobRow (jobId : String)
  | countAhead (createdAt : Int) (jobId : String)
  | fetchPrompt (id : Int)
  | insertPrompt (now : Int) (f : PromptFields)
  | updatePrompt (now id : Int) (f : PromptFields)
  | deletePrompt (now id : Int)
  deriving DecidableEq, Repr

/-- What a statement returns: rows, `rows_affected` or `last_insert_rowid`. -/
@[reducible] def Sql.Result : Sql → Type
  | .job _ => Nat
  | .fetchOldestQueued => Option QueuedJob
  | .selectDerived _ _ => Option (Status × Option DataPath × Option DataPath)
  | .selectStaleJobs _ => List StaleJob
  | .selectInputBySha _ => Option (Int × Option DataPath)
  | .selectInputById _ => Option (Option DataPath × String)
  | .insertInput _ _ _ => Int
  | .selectStaleInputs _ => List (Int × DataPath)
  | .selectPrompt _ => Option (String × String × Option Int)
  | .fetchJobRow _ => Option JobFullRow
  | .fetchPrompt _ => Option CustomPromptRow
  | .insertPrompt _ _ => Int
  | .countAhead _ _ | .deletePrompt _ _ => Nat
  | .updatePrompt _ _ _ => Unit
  | .insertJob _ | .deleteJobRow _ | .touchInput _ _ | .clearInputPath _ | .storeInput _ _ _ => Unit

/-- The input rows no live job refers to, with a file and unused since the cutoff. -/
def staleInputs (cutoff : Int) (db : Db) : List (Int × DataPath) :=
  db.inputs.rows.filterMap fun i =>
    if i.lastUsedAt < cutoff ∧ ∀ j ∈ db.jobs.rows, ¬ (j.inputId = i.id ∧ j.deletedAt = none) then
      i.path.map (i.id, ·)
    else none

/-- Run one statement; an error is a violated constraint. No statement deletes
an `inputs` or `custom_prompts` row, so the foreign keys of `jobs` never fire. -/
def Sql.run (db : Db) : (q : Sql) → Except String (Db × q.Result)
  | .job st => .ok ({ db with jobs := db.jobs.update st.update }, db.jobs.affected st.update)
  | .insertJob row => match db.jobs.insert? row with
    | some t => .ok ({ db with jobs := t }, ())
    | none => .error "UNIQUE constraint failed: jobs.id"
  | .deleteJobRow id => .ok ({ db with jobs := db.jobs.delete (fun r => r.id = id) }, ())
  | .fetchOldestQueued =>
    .ok (db, (first? olderThan (db.jobs.rows.filter runnable)).map QueuedJob.of)
  | .selectDerived col id =>
    .ok (db, ((db.jobs.find? id).filter (fun r => r.deletedAt = none)).map
      (fun r => (r.status, r.outputPath, col.get r)))
  | .selectStaleJobs cutoff =>
    .ok (db, (db.jobs.rows.filter (deletedBefore cutoff)).map StaleJob.of)
  | .selectInputBySha sha =>
    .ok (db, (db.inputs.rows.find? (fun r => r.sha256 = sha)).map (fun r => (r.id, r.path)))
  | .selectInputById id => .ok (db, (db.inputs.find? id).map (fun r => (r.path, r.sha256)))
  | .touchInput now id => .ok ({ db with inputs := db.inputs.update (Database.touchInput now id) }, ())
  | .clearInputPath id => .ok ({ db with inputs := db.inputs.update (Database.clearInputPath id) }, ())
  | .storeInput now id f =>
    .ok ({ db with inputs := db.inputs.update (Database.storeInput now id f) }, ())
  | .insertInput sha now f =>
    if ∃ r ∈ db.inputs.rows, r.sha256 = sha then .error "UNIQUE constraint failed: inputs.sha256"
    else match db.inputs.insert? (newInput (nextRowId db.inputs) sha now f) with
      | some t => .ok ({ db with inputs := t }, nextRowId db.inputs)
      | none => .error "UNIQUE constraint failed: inputs.id"
  | .selectStaleInputs cutoff => .ok (db, staleInputs cutoff db)
  | .selectPrompt id =>
    .ok (db, ((db.prompts.find? id).filter (fun r => r.deletedAt = none)).map
      (fun r => (r.text, r.workflow, r.timeoutSeconds)))
  | .fetchJobRow id =>
    .ok (db, ((db.jobs.find? id).filter (fun r => r.deletedAt = none)).map JobFullRow.of)
  | .countAhead createdAt id => .ok (db, db.jobs.rows.countP (queuedBefore createdAt id))
  | .fetchPrompt id =>
    .ok (db, ((db.prompts.find? id).filter (fun r => r.deletedAt = none)).map CustomPromptRow.of)
  | .insertPrompt now f => match db.prompts.insert? (newPrompt (nextPromptId db.prompts) now f) with
    | some t => .ok ({ db with prompts := t }, nextPromptId db.prompts)
    | none => .error "UNIQUE constraint failed: custom_prompts.id"
  | .updatePrompt now id f =>
    .ok ({ db with prompts := db.prompts.update (Database.updatePrompt now id f) }, ())
  | .deletePrompt now id =>
    .ok ({ db with prompts := db.prompts.update (Database.deletePrompt now id) },
      db.prompts.affected (Database.deletePrompt now id))

/-- Every way a statement can write the `jobs` table. -/
theorem Sql.run_jobs {q : Sql} {db db' : Db} {a : q.Result} (h : q.run db = .ok (db', a)) :
    (∃ st, q = .job st ∧ db'.jobs = db.jobs.update st.update) ∨
    (∃ row, q = .insertJob row ∧ db.jobs.insert? row = some db'.jobs) ∨
    (∃ id, q = .deleteJobRow id ∧ db'.jobs = db.jobs.delete (fun r => r.id = id)) ∨
    ((∀ st, q ≠ .job st) ∧ (∀ row, q ≠ .insertJob row) ∧ (∀ id, q ≠ .deleteJobRow id) ∧
      db'.jobs = db.jobs) := by
  cases q with
  | job st =>
    simp only [run, Except.ok.injEq, Prod.mk.injEq] at h
    exact .inl ⟨st, rfl, by rw [← h.1]⟩
  | insertJob row =>
    simp only [run] at h
    split at h
    · rename_i t ht
      simp only [Except.ok.injEq, Prod.mk.injEq] at h
      exact .inr (.inl ⟨row, rfl, by rw [← h.1]; exact ht⟩)
    · cases h
  | deleteJobRow id =>
    simp only [run, Except.ok.injEq, Prod.mk.injEq] at h
    exact .inr (.inr (.inl ⟨id, rfl, by rw [← h.1]⟩))
  | insertInput sha now f =>
    refine .inr (.inr (.inr ⟨by simp, by simp, by simp, ?_⟩))
    simp only [run] at h
    split at h
    · cases h
    · split at h
      · simp only [Except.ok.injEq, Prod.mk.injEq] at h
        rw [← h.1]
      · cases h
  | insertPrompt now f =>
    refine .inr (.inr (.inr ⟨by simp, by simp, by simp, ?_⟩))
    simp only [run] at h
    split at h
    · simp only [Except.ok.injEq, Prod.mk.injEq] at h
      rw [← h.1]
    · cases h
  | _ =>
    simp only [run, Except.ok.injEq, Prod.mk.injEq] at h
    exact .inr (.inr (.inr ⟨by simp, by simp, by simp, by rw [← h.1]⟩))

/-- Every way a statement can write the `inputs` table. -/
theorem Sql.run_inputs {q : Sql} {db db' : Db} {a : q.Result} (h : q.run db = .ok (db', a)) :
    (∃ now id, q = .touchInput now id ∧
      db'.inputs = db.inputs.update (Database.touchInput now id)) ∨
    (∃ id, q = .clearInputPath id ∧ db'.inputs = db.inputs.update (Database.clearInputPath id)) ∨
    (∃ now id f, q = .storeInput now id f ∧
      db'.inputs = db.inputs.update (Database.storeInput now id f)) ∨
    (∃ sha now f, q = .insertInput sha now f ∧ (∀ r ∈ db.inputs.rows, r.sha256 ≠ sha) ∧
      db.inputs.insert? (newInput (nextRowId db.inputs) sha now f) = some db'.inputs) ∨
    ((∀ now id, q ≠ .touchInput now id) ∧ (∀ id, q ≠ .clearInputPath id) ∧
      (∀ now id f, q ≠ .storeInput now id f) ∧ (∀ sha now f, q ≠ .insertInput sha now f) ∧
      db'.inputs = db.inputs) := by
  cases q with
  | touchInput now id =>
    simp only [run, Except.ok.injEq, Prod.mk.injEq] at h
    exact .inl ⟨now, id, rfl, by rw [← h.1]⟩
  | clearInputPath id =>
    simp only [run, Except.ok.injEq, Prod.mk.injEq] at h
    exact .inr (.inl ⟨id, rfl, by rw [← h.1]⟩)
  | storeInput now id f =>
    simp only [run, Except.ok.injEq, Prod.mk.injEq] at h
    exact .inr (.inr (.inl ⟨now, id, f, rfl, by rw [← h.1]⟩))
  | insertInput sha now f =>
    simp only [run] at h
    split at h
    · cases h
    · rename_i hsha
      split at h
      · rename_i t ht
        simp only [Except.ok.injEq, Prod.mk.injEq] at h
        refine .inr (.inr (.inr (.inl ⟨sha, now, f, rfl, ?_, by rw [← h.1]; exact ht⟩)))
        intro r hr he
        exact hsha ⟨r, hr, he⟩
      · cases h
  | insertJob row | insertPrompt now f =>
    simp only [run] at h
    split at h
    · simp only [Except.ok.injEq, Prod.mk.injEq] at h
      exact .inr (.inr (.inr (.inr ⟨by simp, by simp, by simp, by simp, by rw [← h.1]⟩)))
    · cases h
  | _ =>
    simp only [run, Except.ok.injEq, Prod.mk.injEq] at h
    exact .inr (.inr (.inr (.inr ⟨by simp, by simp, by simp, by simp, by rw [← h.1]⟩)))

end ZunServer.Database
