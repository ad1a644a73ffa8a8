import ZunServer.Lifecycle
import ZunServer.Migrations

/-!
# The server on an upgraded database

What the server reads from a database that the migrations were run on, and how
the progress of its jobs goes with their status from then on.
-/
namespace ZunServer.Upgraded

open KeyedTable
open Schema Statements Database Calls Worker Handlers Server Rows Lifecycle Migrations

/-- The text of a status. No statement asks for a text that is none of the five, so a job with
such a one stays as it is, like one that has failed. -/
def readStatus : String → Status
  | "queued" => .queued
  | "running" => .running
  | "done" => .done
  | "cancelled" => .cancelled
  | _ => .failed

theorem readStatus_done {text : String} (h : readStatus text = .done) : text = "done" := by
  unfold readStatus at h
  split at h <;> first | rfl | cases h

section
variable (toPath : String → DataPath)

def readInput (r : V3.InputRow) : InputRow where
  id := r.id
  sha256 := r.sha256
  path := r.path.map toPath
  originalName := r.originalName
  contentType := r.contentType
  sizeBytes := r.sizeBytes
  width := r.width
  height := r.height
  createdAt := r.createdAt
  lastUsedAt := r.lastUsedAt

def readJob (r : V4.JobRow) : JobRow where
  id := r.id
  inputId := r.inputId
  sourcePromptId := r.sourcePromptId
  promptText := r.promptText
  workflow := r.workflow
  timeoutSeconds := r.timeoutSeconds
  seed := r.seed
  status := readStatus r.status
  comfyPromptId := r.comfyPromptId
  outputPath := r.outputPath.map toPath
  thumbPath := r.thumbPath.map toPath
  errorMessage := r.errorMessage
  width := r.width
  height := r.height
  createdAt := r.createdAt
  startedAt := r.startedAt
  completedAt := r.completedAt
  deletedAt := r.deletedAt
  previewPath := r.previewPath.map toPath
  progress := r.progress

/-- The database as the server reads it, for a reading of its path columns. -/
def readDb (db : V4.Db) : Db where
  inputs := ⟨db.inputs.rows.map (readInput toPath), by
    simpa [Function.comp_def, readInput] using db.inputs.nodup⟩
  prompts := db.customPrompts
  jobs := ⟨db.jobs.rows.map (readJob toPath), by
    simpa [Function.comp_def, readJob] using db.jobs.nodup⟩

end

/-- What the progress of a job says about one that is done, and about one that waits. -/
structure Shows (r : JobRow) : Prop where
  done : r.status = .done → r.progress = 1
  queued : r.status = .queued → r.progress = 0

theorem stmt_shows (st : JobStmt) {r : JobRow} (h : Shows r) : Shows (st.update.row r) := by
  refine row_cases _ r (fun hc => ?_) h
  cases st with
  | writeProgress id p =>
    have hs : r.id = id ∧ r.status = .running := of_decide_eq_true hc
    constructor <;> simp [JobStmt.update, writeProgress, hs.2]
  | updateComfyPromptId id c | deleteJob now id | restoreJob id => exact ⟨h.done, h.queued⟩
  | setDerivedPath col id rel => cases col <;> exact ⟨h.done, h.queued⟩
  | _ =>
    constructor <;> simp [JobStmt.update, resetRunningJobs, markRunning, markDone, requeue,
      markFailed, cancelRunning, cancelQueued, cancelFrom]

/-- From whatever database the server starts, what its jobs show stays so. -/
theorem run_shows {cfg : Config} {as : List Act} {s t : State} (h : run cfg as s = some t)
    (hs : ∀ r ∈ s.world.db.jobs.rows, Shows r) : ∀ r ∈ t.world.db.jobs.rows, Shows r := by
  refine Runs.invariant (I := fun s => ∀ r ∈ s.world.db.jobs.rows, Shows r) ?_ h hs
  intro s a t hs hstep
  apply rows_moved (step_moved hstep) hs
  · intro st _ r hr
    exact stmt_shows st (hs r hr)
  · intro i p inputId n id _
    constructor <;> simp [newJob]

/-- Rows paired off: each has one on the other side. -/
theorem forall₂_right {α β : Type} {R : α → β → Prop} {l : List α} {l' : List β}
    (h : List.Forall₂ R l l') : ∀ b ∈ l', ∃ a ∈ l, R a b := by
  induction h with
  | nil => simp
  | cons hab _ ih =>
    intro b hb
    rcases List.mem_cons.mp hb with rfl | hb
    · exact ⟨_, List.mem_cons_self, hab⟩
    · obtain ⟨a, ha, hR⟩ := ih b hb
      exact ⟨a, List.mem_cons_of_mem _ ha, hR⟩

/-- The jobs of an upgraded database are user 1's, with the status they had and no progress. -/
theorem upgraded_jobs {old : V2.Db} {new : V4.Db} (h : upgrade old = .ok new) :
    (∀ r ∈ new.jobs.rows, r.progress = 0 ∧ ∃ j ∈ ownJobs old, r.status = j.status) ∧
    ∀ j ∈ ownJobs old, ∃ r ∈ new.jobs.rows, r.status = j.status := by
  cases hmid : singleUserSchema old with
  | error e =>
    rw [upgrade, hmid] at h
    cases h
  | ok mid =>
    rw [upgrade, hmid] at h
    cases h
    have hall := singleUserSchema_jobs hmid
    constructor
    · intro r hr
      obtain ⟨r₀, hr₀, rfl⟩ := List.mem_map.mp hr
      obtain ⟨j, hj, text, rfl⟩ := forall₂_right hall r₀ hr₀
      exact ⟨rfl, j, hj, rfl⟩
    · intro j hj
      obtain ⟨r₀, hr₀, text, rfl⟩ := forall₂_right hall.flip j hj
      exact ⟨_, List.mem_map_of_mem hr₀, rfl⟩

/-- After an upgrade the progress of a job goes with its status, in every run of the server,
exactly where user 1 had no job that was done. -/
theorem upgraded_progress {old : V2.Db} {new : V4.Db} (h : upgrade old = .ok new)
    (toPath : String → DataPath) (cfg : Config) :
    (∀ (w : World) (as : List Act) (s : State), w.db = readDb toPath new →
      run cfg as ⟨w, .start, []⟩ = some s → ∀ r ∈ s.world.db.jobs.rows,
        (r.status = .done → r.progress = 1) ∧ (r.status = .queued → r.progress = 0)) ↔
    ∀ j ∈ ownJobs old, j.status ≠ "done" := by
  obtain ⟨hrows, hjobs⟩ := upgraded_jobs h
  constructor
  · intro hruns j hj hdone
    obtain ⟨r, hr, hstatus⟩ := hjobs j hj
    have hread : readJob toPath r ∈ (readDb toPath new).jobs.rows := List.mem_map_of_mem hr
    have hone := (hruns { World.empty with db := readDb toPath new } [] _ rfl rfl _ hread).1
    have hprogress : (1 : ℚ) = 0 := by
      rw [← (hrows r hr).1]
      exact (hone (by simp [readJob, hstatus, hdone, readStatus])).symm
    exact absurd hprogress (by decide)
  · intro hnone w as s hw hrun r hr
    have hshows : Shows r := by
      apply run_shows hrun _ r hr
      intro r₀ hr₀
      change r₀ ∈ w.db.jobs.rows at hr₀
      rw [hw] at hr₀
      obtain ⟨r₁, hr₁, rfl⟩ := List.mem_map.mp hr₀
      obtain ⟨hzero, j, hj, hstatus⟩ := hrows r₁ hr₁
      constructor
      · intro hdone
        exact absurd (hstatus.symm.trans (readStatus_done hdone)) (hnone j hj)
      · intro _
        exact hzero
    exact ⟨hshows.done, hshows.queued⟩

/-- A reading of path texts that is enough where none is there. -/
def samplePath (text : String) : DataPath := ⟨.outputs, text⟩

theorem upgraded_progress_sample : ∃ new, upgrade sampleDb = .ok new ∧
    ¬ ∀ (w : World) (as : List Act) (s : State), w.db = readDb samplePath new →
      run sampleConfig as ⟨w, .start, []⟩ = some s → ∀ r ∈ s.world.db.jobs.rows,
        (r.status = .done → r.progress = 1) ∧ (r.status = .queued → r.progress = 0) := by
  have hok : (upgrade sampleDb).toOption.isSome = true := by decide +kernel
  cases hup : upgrade sampleDb with
  | error e =>
    rw [hup] at hok
    cases hok
  | ok new =>
    refine ⟨new, rfl, fun hruns => ?_⟩
    have hdone : ∃ j ∈ ownJobs sampleDb, j.status = "done" := by decide
    obtain ⟨j, hj, hstatus⟩ := hdone
    exact (upgraded_progress hup samplePath sampleConfig).mp hruns j hj hstatus

/-- The job of user 1 that was done has no progress once the server is up. -/
theorem done_shows_nothing : ∃ new s, upgrade sampleDb = .ok new ∧
    run sampleConfig [.worker .ok] ⟨{ World.empty with db := readDb samplePath new }, .start, []⟩ =
      some s ∧
    ∃ r ∈ s.world.db.jobs.rows, r.id = "a" ∧ r.status = .done ∧ r.progress = 0 := by
  have hrun : ((upgrade sampleDb).toOption.bind fun new =>
      (run sampleConfig [.worker .ok]
        ⟨{ World.empty with db := readDb samplePath new }, .start, []⟩).map fun s =>
          s.world.db.jobs.rows.any fun r => r.id = "a" ∧ r.status = .done ∧ r.progress = 0) =
      some true := by
    decide +kernel
  obtain ⟨new, hnew, hrest⟩ := Option.bind_eq_some_iff.mp hrun
  obtain ⟨s, hs, hany⟩ := Option.map_eq_some_iff.mp hrest
  obtain ⟨r, hr, hrow⟩ := List.any_eq_true.mp hany
  refine ⟨new, s, ?_, hs, r, hr, of_decide_eq_true hrow⟩
  cases hup : upgrade sampleDb with
  | error e =>
    rw [hup] at hnew
    cases hnew
  | ok new' =>
    rw [hup] at hnew
    cases hnew
    rfl

end ZunServer.Upgraded
