import ZunServer.RowInvariant

/-!
# One running job

`cancel_job` interrupts whatever ComfyUI executes because "the worker runs
exactly one job at a time". Nothing in the schema says so. It holds as long as
the statements of the worker succeed: a running row is then the row of the job
the worker is inside of.
-/
namespace ZunServer.SingleRunner

open KeyedTable
open Schema Statements Database Comfy Calls Renditions Worker Handlers Purge Server Rows Lifecycle
open WorkerSteps RowInvariant

/-- No statement of this step is made to fail. -/
def sqlSucceeds : Act → Bool
  | .worker (.sqlFails _) | .task _ (.sqlFails _) | .writer (.sqlFails _) => false
  | _ => true

/-- The running rows are those of the job the worker is inside of. -/
def RunsInside (s : State) : Prop :=
  ∀ r ∈ s.world.db.jobs.rows, r.status = .running → inside s.worker = some r.id

/-- Only the claim makes a row running. -/
theorem stmt_running (st : JobStmt) {r : JobRow} (h : (st.update.row r).status = .running) :
    r.status = .running ∨ ∃ now, st = .markRunning now r.id := by
  revert h
  refine row_cases (P := fun r' => r'.status = .running → _) _ r (fun hc h => ?_) .inl
  cases st with
  | markRunning now id =>
    simp only [JobStmt.update, markRunning, decide_eq_true_eq] at hc
    exact .inr ⟨now, by rw [hc.1]⟩
  | updateComfyPromptId id c | writeProgress id p | deleteJob now id | restoreJob id => exact .inl h
  | setDerivedPath col id rel =>
    simp only [JobStmt.update, setDerivedPath] at h
    cases col <;> exact .inl h
  | _ => cases h

/-- Where a running row comes from. -/
theorem running_before {cfg : Config} {s t : State} {a : Act} (hm : Moved cfg s t a) {r' : JobRow}
    (hr' : r' ∈ t.world.db.jobs.rows) (hrun : r'.status = .running) :
    (∃ r ∈ s.world.db.jobs.rows, r.id = r'.id ∧ r.status = .running) ∨
      ∃ job f, s.worker = .claim job ∧ a = .worker f ∧ job.id = r'.id := by
  cases hm.jobs with
  | same he => exact .inl ⟨r', he ▸ hr', rfl, hrun⟩
  | update hst he =>
    rename_i st
    rw [he] at hr'
    obtain ⟨r, hr, rfl⟩ := Table.mem_update.mp hr'
    have hid : ∀ st : JobStmt, (st.update.row r).id = r.id := fun st => st.update.row_key r
    rcases stmt_running st hrun with h | ⟨now, rfl⟩
    · exact .inl ⟨r, hr, (hid _).symm, h⟩
    · obtain ⟨job, hw, hjob, ha⟩ := issues_markRunning hst
      exact .inr ⟨job, .ok, hw, ha, hjob.trans (hid _).symm⟩
  | insert ha hi hins =>
    rw [(Table.insert?_eq_some.mp hins).2] at hr'
    rcases List.mem_append.mp hr' with hr' | hr'
    · exact .inl ⟨r', hr', rfl, hrun⟩
    · obtain rfl := List.mem_singleton.mp hr'
      cases hrun
  | delete ha hi he =>
    rw [he] at hr'
    exact .inl ⟨r', (Table.mem_delete.mp hr').1, rfl, hrun⟩

/-- A statement that takes the running row of the one job ends the running. -/
theorem none_running {s t : State} {u : Update JobRow.id}
    (ht : t.world.db.jobs = s.world.db.jobs.update u)
    (hcond : ∀ r ∈ s.world.db.jobs.rows, r.status = .running → u.cond r = true)
    (hset : ∀ r ∈ s.world.db.jobs.rows, u.cond r = true → (u.set r).status ≠ .running) :
    ∀ r ∈ t.world.db.jobs.rows, r.status ≠ .running := by
  intro r' hr'
  rw [ht] at hr'
  obtain ⟨r, hr, rfl⟩ := Table.mem_update.mp hr'
  by_cases hc : u.cond r = true
  · rw [u.row_of_cond hc]
    exact hset r hr hc
  · have hc' : u.cond r = false := by simpa using hc
    rw [u.row_of_not hc']
    exact fun hrun => hc (hcond r hr hrun)

theorem runsInside_of_none {s : State} (h : ∀ r ∈ s.world.db.jobs.rows, r.status ≠ .running) :
    RunsInside s := fun r hr hrun => absurd hrun (h r hr)

/-- Nothing runs while the worker is inside no job. -/
theorem RunsInside.none {s : State} (h : RunsInside s) (hin : inside s.worker = none) :
    ∀ r ∈ s.world.db.jobs.rows, r.status ≠ .running := by
  intro r hr hrun
  have := h r hr hrun
  rw [hin] at this
  cases this

theorem RunsInside.of_job {s : State} (h : RunsInside s) {job : QueuedJob} {stage : Stage}
    (hw : s.worker = .process job stage) :
    ∀ r ∈ s.world.db.jobs.rows, r.status = .running → r.id = job.id := by
  intro r hr hrun
  have := h r hr hrun
  rw [hw] at this
  exact (Option.some.inj this).symm

theorem free_inside {pc : WorkerPc} (h : free pc = true) : inside pc = none := by
  cases pc <;> first | rfl | cases h

theorem errorArm_inside {job : QueuedJob} {pc : WorkerPc} (h : ErrorArm job pc) :
    inside pc = some job.id := by
  cases h <;> rfl

/-- What the worker does without a claim keeps the running rows where they are. -/
theorem runsInside_keep {cfg : Config} {s t : State} {a : Act} (hm : Moved cfg s t a)
    (h : RunsInside s) (hin : inside t.worker = inside s.worker)
    (hclaim : ∀ job f, s.worker = .claim job → a ≠ .worker f) : RunsInside t := by
  intro r' hr' hrun
  rcases running_before hm hr' hrun with ⟨r, hr, hid, hrun'⟩ | ⟨job, f, hw, ha, -⟩
  · rw [hin, ← hid]
    exact h r hr hrun'
  · exact absurd ha (hclaim job f hw)

theorem stage_runsInside {cfg : Config} {s t : State} {f : Fate} {l : List GeneratePc}
    {job : QueuedJob} {stage : Stage} (hm : Moved cfg s t (.worker f)) (h : RunsInside s)
    (hpc : s.worker = .process job stage)
    (hs : StageStep s.world t.world f job stage t.worker l) (hf : ∀ e, f ≠ .sqlFails e) :
    RunsInside t := by
  have hjob := h.of_job hpc
  have keep : inside t.worker = some job.id → RunsInside t := fun hin =>
    runsInside_keep hm h (by rw [hin, hpc]; rfl) (fun job' f' he => by rw [hpc] at he; cases he)
  generalize hpc' : t.worker = pc' at hs
  cases hs with
  | goes _ => exact keep (by rw [hpc']; rfl)
  | fails _ he => exact keep (by rw [hpc']; exact errorArm_inside he)
  | done _ hran | refused _ hran =>
    refine runsInside_of_none (none_running hran.ok (fun r hr hrun => ?_) fun r _ _ => ?_)
    · simp [JobStmt.update, markDone, hjob r hr hrun, hrun]
    · exact Status.noConfusion
  | requeued hran =>
    refine runsInside_of_none (none_running (hran.of_ne hf) (fun r hr hrun => ?_) fun r _ _ => ?_)
    · simp [JobStmt.update, requeue, hjob r hr hrun, hrun]
    · exact Status.noConfusion
  | failed hran =>
    refine runsInside_of_none (none_running (hran.of_ne hf) (fun r hr hrun => ?_) fun r _ _ => ?_)
    · simp [JobStmt.update, markFailed, hjob r hr hrun, hrun]
    · exact Status.noConfusion

theorem runsInside_step {cfg : Config} {s t : State} {a : Act} (hm : Moved cfg s t a)
    (hsql : sqlSucceeds a = true) (h : s.worker = .start ∨ RunsInside s) :
    t.worker = .start ∨ RunsInside t := by
  rcases worker_cases hm with ⟨f, l, rfl, hw, -⟩ | ⟨hw, hne, -⟩ | ⟨-, rfl⟩
  · right
    have hf : ∀ e, f ≠ .sqlFails e := by
      rintro e rfl
      cases hsql
    generalize hpc : s.worker = pc at hw
    generalize hpc' : t.worker = pc' at hw
    cases hw with
    | reset hran =>
      refine runsInside_of_none (none_running (hran.of_ne hf) (fun r _ hrun => ?_) fun r _ _ => ?_)
      · simp [JobStmt.update, resetRunningJobs, hrun]
      · exact Status.noConfusion
    | fetched hr hq he =>
      have h := h.resolve_left (by simp [hpc])
      exact runsInside_of_none (by rw [he]; exact h.none (by rw [hpc]; rfl))
    | won hn hran =>
      rename_i job
      have h := (h.resolve_left (by simp [hpc])).none (by rw [hpc]; rfl)
      intro r' hr' hrun
      rcases running_before hm hr' hrun with ⟨r, hr, -, hrun'⟩ | ⟨job', f', hw', -, hid⟩
      · exact absurd hrun' (h r hr)
      · rw [hpc] at hw'
        cases hw'
        rw [hpc', ← hid]
        rfl
    | lost hn hran =>
      rename_i job
      have h := (h.resolve_left (by simp [hpc])).none (by rw [hpc]; rfl)
      refine runsInside_of_none (none_running hran.ok (fun r hr hrun => absurd hrun (h r hr)) ?_)
      intro r hr hc
      have hid : r.id = job.id := JobStmt.cond_target rfl hc
      exact absurd ((JobStmt.affected_eq_one rfl).mpr ⟨r, hid ▸ mem_row hr, hc⟩) hn
    | claimFails he _ => exact absurd he (hf _)
    | stage hs =>
      exact stage_runsInside hm (h.resolve_left (by simp [hpc])) hpc (hpc' ▸ hs) hf
    | free hfree hfree' _ =>
      have h := h.resolve_left (by rintro he; rw [he] at hpc; subst hpc; cases hfree)
      refine runsInside_keep hm h ?_ ?_
      · rw [hpc, hpc', free_inside hfree, free_inside hfree']
      · rintro job f' he
        rw [he] at hpc
        subst hpc
        cases hfree
  · rcases h with h | h
    · exact .inl (hw.trans h)
    · exact .inr (runsInside_keep hm h (by rw [hw]) fun job f _ => hne f)
  · exact .inl rfl

/-- While no statement fails, and once the startup reset has run: a running row
is the row of the job the worker is inside of, so there is at most one. -/
theorem single_runner {cfg : Config} {as : List Act} {s : State}
    (h : run cfg as State.init = some s)
    (hsql : Along cfg (fun _ a => sqlSucceeds a = true) as State.init)
    (hstart : s.worker ≠ .start) :
    (∀ r ∈ s.world.db.jobs.rows, r.status = .running → inside s.worker = some r.id) ∧
    (∀ r ∈ s.world.db.jobs.rows, ∀ r' ∈ s.world.db.jobs.rows, r.status = .running →
      r'.status = .running → r = r') := by
  have hinv : s.worker = .start ∨ RunsInside s :=
    Runs.Along.invariant (I := fun u => u.worker = .start ∨ RunsInside u)
      (fun u a v hu ha hs => runsInside_step (step_moved hs) ha hu) hsql h (.inl rfl)
  have hin := hinv.resolve_left hstart
  refine ⟨hin, fun r hr r' hr' hrun hrun' => ?_⟩
  have hid : r.id = r'.id := Option.some.inj ((hin r hr hrun).symm.trans (hin r' hr' hrun'))
  have hrow := mem_row hr
  rw [hid] at hrow
  exact Option.some.inj (hrow.symm.trans (mem_row hr'))

theorem single_runner_claimed : ∃ s r,
    run sampleConfig (firstSubmit 0 jobA ++ startAndClaim) State.init = some s ∧
    r ∈ s.world.db.jobs.rows ∧ r.status = .running ∧ inside s.worker = some r.id := by
  have hrun : ((run sampleConfig (firstSubmit 0 jobA ++ startAndClaim) State.init).bind fun s =>
      (row? s jobA).map fun r => (r.status, inside s.worker)) = some (.running, some jobA) := by
    simp only [run_first]
    decide +kernel
  have hsql : Along sampleConfig (fun _ a => sqlSucceeds a = true)
      (firstSubmit 0 jobA ++ startAndClaim) State.init := by
    simp only [along_first]
    decide +kernel
  obtain ⟨s, hs, h⟩ := Option.bind_eq_some_iff.mp hrun
  obtain ⟨r, hr, h⟩ := Option.map_eq_some_iff.mp h
  obtain ⟨hstat, hin⟩ := Prod.mk.inj h
  have hstart : s.worker ≠ .start := by
    intro he
    rw [he] at hin
    cases hin
  have hmem := (row_mem hr).1
  exact ⟨s, r, hs, hmem, hstat, (single_runner hs hsql hstart).1 r hmem hstat⟩

end ZunServer.SingleRunner
