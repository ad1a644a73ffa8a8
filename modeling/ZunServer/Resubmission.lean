import ZunServer.Provenance
import ZunServer.Submission

/-!
# How often a job is submitted

ComfyUI is asked to run a job once for each time the worker claims it, and it
is claimed once, and once more each time the startup reset or a requeue puts it
back. Each of the two is a balance kept step by step.
-/
namespace ZunServer.Resubmission

open KeyedTable
open Schema Statements Database Comfy Calls Renditions Worker Handlers Server Rows Lifecycle
open WorkerSteps RowInvariant Submission Provenance

/-- ComfyUI accepts a prompt of the job. -/
def submits (id : String) (s : State) : Act → Nat
  | .worker (.name _) | .worker (.answerLost _ _) => match s.worker with
    | .process job (.submitPrompt _ _) => if job.id = id then 1 else 0
    | _ => 0
  | _ => 0

/-- The worker claims the job. -/
def claims (id : String) (s : State) : Act → Nat
  | .worker .ok => match s.worker with
    | .claim job => if job.id = id ∧ (row? s id).any runnable = true then 1 else 0
    | _ => 0
  | _ => 0

def running (s : State) (id : String) : Bool := (row? s id).any fun r => r.status = .running

/-- The job goes back from `running` to `queued`. -/
def returns (id : String) (s : State) : Act → Nat
  | .worker .ok => match s.worker with
    | .start => if running s id then 1 else 0
    | .process job .requeue => if job.id = id ∧ running s id = true then 1 else 0
    | _ => 0
  | _ => 0

/-- The worker has claimed the job and not submitted it yet. -/
def toSubmit (id : String) (s : State) : Nat := if preparing s = some id then 1 else 0

/-- The job is queued, or its id may still be given to a new job. -/
def claimable (id : String) (s : State) : Nat := match row? s id with
  | some r => if r.status = .queued then 1 else 0
  | none => if id ∈ s.world.issued ∧ ∀ τ ∈ s.tasks, reserves τ ≠ some id then 0 else 1

/-- The prompts of the job that ComfyUI has not ended yet. -/
def unended (id : String) (s : State) : Nat :=
  s.world.comfy.unfinished.countP fun p => p.job = some id

theorem settled_iff {s : State} {id : String} :
    Settled s id ↔ id ∈ s.world.issued ∧ ∀ τ ∈ s.tasks, reserves τ ≠ some id := by
  refine and_congr_right fun _ => ⟨fun h τ hτ => ?_, fun h i τ hi => h τ (List.mem_of_getElem? hi)⟩
  obtain ⟨i, hi⟩ := List.mem_iff_getElem?.mp hτ
  exact h i τ hi

theorem claimable_le (id : String) (s : State) : claimable id s ≤ 1 := by
  unfold claimable
  split <;> split <;> simp

theorem claimable_row {s : State} {id : String} {r : JobRow} (h : row? s id = some r) :
    claimable id s = if r.status = .queued then 1 else 0 := by
  simp only [claimable, h]

theorem claimable_gone {s : State} {id : String} (h : row? s id = none) (hset : Settled s id) :
    claimable id s = 0 := by
  simp only [claimable, h]
  exact if_pos (settled_iff.mp hset)

/-- A claim that counts is won. -/
theorem claims_won {cfg : Config} {s t : State} {a : Act} (hm : Moved cfg s t a) {id : String}
    (h : claims id s a ≠ 0) : ∃ job r, a = .worker .ok ∧ s.worker = .claim job ∧ job.id = id ∧
      row? s id = some r ∧ r.status = .queued ∧ (OnRow t id fun r => r.status = .running) ∧
      t.worker = .process job .notifyRunning := by
  unfold claims at h
  split at h
  · split at h
    · rename_i job hs
      obtain ⟨⟨rfl, hrun⟩, -⟩ := ite_ne_right_iff.mp h
      obtain ⟨r, hr, hrun⟩ := (Option.any_eq_true _ _).mp hrun
      obtain ⟨hq, hlive⟩ := of_decide_eq_true hrun
      have hcond : (JobStmt.markRunning s.world.now job.id).update.cond r = true :=
        decide_eq_true ⟨Table.find?_key hr, hq, hlive⟩
      have hn : s.world.db.jobs.affected (JobStmt.markRunning s.world.now job.id).update = 1 :=
        (JobStmt.affected_eq_one rfl).mpr ⟨r, hr, hcond⟩
      rcases worker_cases hm with ⟨f, l, ha, hw, -⟩ | ⟨-, hne, -⟩ | ⟨ha, -⟩
      · cases ha
        rw [hs] at hw
        generalize hpc : t.worker = pc at hw
        cases hw with
        | won _ hran => exact ⟨job, r, rfl, hs, rfl, hr, hq, claim_won hn hran, rfl⟩
        | lost hn' _ => exact absurd hn hn'
        | claimFails hf _ => cases hf
        | free hf _ => cases hf
      · exact absurd rfl (hne .ok)
      · cases ha
    · exact absurd rfl h
  · exact absurd rfl h

/-- Whoever comes out of the claim with the job has won it. -/
theorem claims_of {cfg : Config} {s t : State} {f : Fate} (hm : Moved cfg s t (.worker f))
    {job job' : QueuedJob} {stage : Stage} (hs : s.worker = .claim job)
    (ht : t.worker = .process job' stage) (hc : claimed stage = true) :
    claims job.id s (.worker f) = 1 := by
  cases hm with
  | worker h _ =>
    obtain ⟨c, k, x, hk, hex, he⟩ := perform_eq_some.mp h
    rw [hs] at hk
    cases hk
    rw [ht] at he
    rcases exec_job hex with ⟨rfl, rfl, -⟩ | ⟨e, -, rfl, -⟩
    · dsimp only at he
      split at he
      · rename_i hn
        obtain ⟨r, hr, hcond⟩ := (JobStmt.affected_eq_one rfl).mp hn
        simp only [JobStmt.update, markRunning, decide_eq_true_eq] at hcond
        have hany : (row? s job.id).any runnable = true := by
          unfold row?
          rw [hr]
          exact decide_eq_true hcond.2
        simp only [claims, hs, hany, and_self, ↓reduceIte]
      · cases he
    · exact absurd he (errorArm_ne hc _ _ _ _ _)

theorem claims_le (id : String) (s : State) (a : Act) : claims id s a ≤ 1 := by
  unfold claims
  split
  · split
    · split <;> simp
    · simp
  · simp

/-- Two statements put a row back. -/
theorem stmt_queued {st : JobStmt} {r : JobRow} (hq : r.status ≠ .queued)
    (h : (st.update.row r).status = .queued) :
    r.status = .running ∧ (st = .resetRunningJobs ∨ st = .requeue r.id) := by
  revert h
  refine row_cases (P := fun r' => r'.status = .queued → _) _ r (fun hc h => ?_) fun h => absurd h hq
  cases st with
  | resetRunningJobs => exact ⟨of_decide_eq_true hc, .inl rfl⟩
  | requeue id =>
    simp only [JobStmt.update, requeue, decide_eq_true_eq] at hc
    exact ⟨hc.2, .inr (by rw [hc.1])⟩
  | updateComfyPromptId id c | writeProgress id p | deleteJob now id | restoreJob id =>
    exact absurd h hq
  | setDerivedPath col id rel =>
    simp only [JobStmt.update, setDerivedPath] at h
    cases col <;> exact absurd h hq
  | _ => cases h

/-- When the row is put back, that counts. -/
theorem returns_of {s : State} {a : Act} {st : JobStmt} (hst : Issues s a st) {r : JobRow}
    (hr : row? s r.id = some r) (hq : r.status ≠ .queued)
    (hq' : (st.update.row r).status = .queued) : returns r.id s a = 1 := by
  obtain ⟨hrun, hwhich⟩ := stmt_queued hq hq'
  have hany : running s r.id = true := by simp [running, hr, hrun]
  rcases hwhich with rfl | rfl
  · obtain ⟨hs, rfl⟩ := issues_reset hst
    simp only [returns, hs, hany, ↓reduceIte]
  · obtain ⟨job, hs, hid, rfl⟩ := issues_requeue hst
    simp only [returns, hs, hid, hany, and_self, ↓reduceIte]

theorem claimable_step {cfg : Config} {s t : State} {a : Act} (hinv : Inv s) (hm : Moved cfg s t a)
    (id : String) : claims id s a + claimable id t ≤ returns id s a + claimable id s := by
  by_cases hclaim : claims id s a = 0
  · rw [hclaim]
    have hle := claimable_le id t
    cases hr : row? s id with
    | none =>
      by_cases hset : Settled s id
      · -- a settled id without a row never has one again
        have ht : row? t id = none := by
          cases row_step hm hset with
          | same h => rw [h, hr]
          | update _ h => rw [h, hr]; rfl
          | delete _ _ _ h => exact h
        rw [claimable_gone ht (hset.step hm)]
        omega
      · have hs : claimable id s = 1 := by
          simp only [claimable, hr]
          exact if_neg fun h => hset (settled_iff.mpr h)
        omega
    | some r =>
      have hset := hinv.ids.settled hr
      have hid : r.id = id := Table.find?_key hr
      cases row_step hm hset with
      | same h => rw [claimable_row hr, claimable_row (h.trans hr)]; omega
      | update hst h =>
        rename_i st
        rw [hr, Option.map_some] at h
        rw [claimable_row hr, claimable_row h]
        by_cases hq : r.status = .queued
        · rw [if_pos hq]
          split <;> omega
        · by_cases hq' : (st.update.row r).status = .queued
          · have hret := returns_of hst (hid ▸ hr) hq hq'
            rw [hid] at hret
            rw [if_pos hq', hret]
            omega
          · rw [if_neg hq']
            omega
      | delete _ _ _ h =>
        rw [claimable_gone h (hset.step hm)]
        omega
  · obtain ⟨job, r, -, -, -, hr, hq, hrun, -⟩ := claims_won hm hclaim
    have hone := claims_le id s a
    have hs : claimable id s = 1 := by rw [claimable_row hr, if_pos hq]
    have ht : claimable id t = 0 := by
      have hset := (hinv.ids.settled hr).step hm
      cases hr' : row? t id with
      | none => exact claimable_gone hr' hset
      | some r' =>
        rw [claimable_row hr', if_neg]
        rw [hrun r' hr']
        exact Status.noConfusion
    omega

theorem submits_eq {id : String} {s : State} {a : Act} (h : submits id s a ≠ 0) :
    ∃ f job name client, a = .worker f ∧ s.worker = .process job (.submitPrompt name client) ∧
      job.id = id ∧ submits id s a = 1 ∧ ∃ pid, f = .name pid ∨ ∃ e, f = .answerLost pid e := by
  have hworker : ∀ f, a = .worker f → (submits id s a = match s.worker with
      | .process job (.submitPrompt _ _) => if job.id = id then 1 else 0
      | _ => 0) → ∃ job name client, s.worker = .process job (.submitPrompt name client) ∧
        job.id = id ∧ submits id s a = 1 := by
    intro f _ he
    rw [he] at h ⊢
    split at h
    · rename_i job name client hs
      obtain ⟨hid, -⟩ := ite_ne_right_iff.mp h
      exact ⟨job, name, client, hs, hid, if_pos hid⟩
    · exact absurd rfl h
  cases a with
  | worker f =>
    cases f with
    | name pid =>
      obtain ⟨job, name, client, hs, hid, hone⟩ := hworker _ rfl rfl
      exact ⟨_, job, name, client, rfl, hs, hid, hone, pid, .inl rfl⟩
    | answerLost pid e =>
      obtain ⟨job, name, client, hs, hid, hone⟩ := hworker _ rfl rfl
      exact ⟨_, job, name, client, rfl, hs, hid, hone, pid, .inr ⟨e, rfl⟩⟩
    | _ => exact absurd rfl h
  | _ => exact absurd rfl h

/-- After the submit the worker is past it, or out of the job. -/
theorem submitted_past {cfg : Config} {s t : State} {f : Fate} (hm : Moved cfg s t (.worker f))
    {job : QueuedJob} {name client : String}
    (hs : s.worker = .process job (.submitPrompt name client)) (id : String) :
    preparing t ≠ some id := by
  intro hp
  obtain ⟨job', stage, ht, hle, -⟩ := preparing_eq hp
  rcases stage_origin hm ht (claimed_of_order hle) with ⟨-, -, hs'⟩ | ⟨_, stage', -, hs', hg⟩ |
    ⟨-, hne⟩
  · rw [hs] at hs'
    cases hs'
  · rw [hs] at hs'
    cases hs'
    cases hg
    simp only [order] at hle
    omega
  · exact hne f rfl

theorem toSubmit_le (id : String) (s : State) : toSubmit id s ≤ 1 := by
  unfold toSubmit
  split <;> simp

theorem toSubmit_step {cfg : Config} {s t : State} {a : Act} (hm : Moved cfg s t a) (id : String) :
    submits id s a + toSubmit id t ≤ claims id s a + toSubmit id s := by
  by_cases hsub : submits id s a = 0
  · rw [hsub, Nat.zero_add]
    by_cases ht : preparing t = some id
    · obtain ⟨job, stage, hw, hle, rfl⟩ := preparing_eq ht
      rcases stage_origin hm hw (claimed_of_order hle) with ⟨-, -, hs⟩ | ⟨f, stage', -, hs, hg⟩ |
        ⟨hs, -⟩
      · have hone : claims job.id s a = 1 := by
          rcases worker_cases hm with ⟨f, l, rfl, -⟩ | ⟨hw', -⟩ | ⟨-, rfl⟩
          · exact claims_of hm hs hw (claimed_of_order hle)
          · rw [hw', hs] at hw
            cases hw
          · cases hw
        have hle := toSubmit_le job.id t
        omega
      · have hp := preparing_of hs (hg.order_le.trans hle)
        simp only [toSubmit, hp, ht, ↓reduceIte]
        omega
      · have hp := preparing_of hs hle
        simp only [toSubmit, hp, ht, ↓reduceIte]
        omega
    · simp only [toSubmit, ht, ↓reduceIte]
      omega
  · obtain ⟨f, job, name, client, rfl, hs, hid, hone, -⟩ := submits_eq hsub
    have ht : toSubmit id t = 0 := if_neg (submitted_past hm hs id)
    have hp : toSubmit id s = 1 := if_pos (hid ▸ preparing_of hs le_rfl)
    omega

theorem stop_sublist (b : Backend) : b.stop.unfinished.Sublist b.unfinished := by
  unfold Backend.stop
  split
  · rename_i p hp
    simp only [Backend.unfinished, hp, Option.toList_none, Option.toList_some, List.nil_append]
    exact List.sublist_append_right _ _
  · exact List.Sublist.refl _

theorem unended_stop {s t : State} (he : t.world.comfy = s.world.comfy.stop) (id : String) :
    unended id t ≤ unended id s := by
  unfold unended
  rw [he]
  exact (stop_sublist _).countP_le

theorem unended_accept {s t : State} {p : Prompt} (h : s.world.comfy.accept p = some t.world.comfy)
    (id : String) : unended id t = unended id s + if p.job = some id then 1 else 0 := by
  obtain ⟨-, he⟩ := Backend.accept_eq_some.mp h
  unfold unended
  rw [he]
  simp only [Backend.unfinished, ← List.append_assoc, List.countP_append, List.countP_singleton,
    decide_eq_true_eq]

theorem unended_step {cfg : Config} {s t : State} {a : Act} (hm : Moved cfg s t a) (id : String) :
    unended id t ≤ submits id s a + unended id s := by
  cases hm.comfy with
  | same he =>
    unfold unended
    rw [he]
    omega
  | submit hs hf hacc =>
    rename_i f job name client pid
    rw [unended_accept hacc]
    have hone : submits id s (.worker f) = if job.id = id then 1 else 0 := by
      rcases hf with rfl | ⟨e, rfl⟩ <;> simp only [submits, hs]
    rw [hone]
    simp only [promptOf, Prompt.job, Option.map_some, Option.some.injEq]
    omega
  | timeout _ he | cancel _ _ he => exact (unended_stop he id).trans (Nat.le_add_left _ _)
  | alone he =>
    rename_i e
    refine Nat.le_trans ?_ (Nat.le_add_left _ _)
    cases e with
    | start =>
      simp only [Backend.step] at he
      split at he
      · rename_i p ps hnone hpending
        unfold unended
        rw [← Option.some.inj he]
        simp [Backend.unfinished, hnone, hpending]
      · cases he
    | finish => exact unended_stop (Option.some.inj (Option.ite_none_right_eq_some.mp he).2).symm id
    | foreign p =>
      obtain ⟨hforeign, hacc⟩ := Option.ite_none_right_eq_some.mp he
      rw [unended_accept hacc]
      simp [Prompt.job, hforeign]

/-- In every run and for every job: ComfyUI has been given the job to run at most as
often as the worker has claimed it, that is at most once and once more for each time
it was put back from `running`; so it holds at most that many prompts of it. -/
theorem submissions_bounded {cfg : Config} {as : List Act} {s : State}
    (h : run cfg as State.init = some s) (id : String) :
    unended id s ≤ Runs.total (step cfg) (submits id) as State.init ∧
    Runs.total (step cfg) (submits id) as State.init ≤
      Runs.total (step cfg) (claims id) as State.init ∧
    Runs.total (step cfg) (claims id) as State.init ≤
      Runs.total (step cfg) (returns id) as State.init + 1 := by
  have hsubmits : Runs.total (step cfg) (submits id) as State.init + toSubmit id s ≤
      Runs.total (step cfg) (claims id) as State.init + toSubmit id State.init :=
    Runs.balance (I := fun _ => True) (fun _ _ _ _ _ => trivial)
      (fun u a v _ hs => toSubmit_step (step_moved hs) id) h trivial
  have hclaims : Runs.total (step cfg) (claims id) as State.init + claimable id s ≤
      Runs.total (step cfg) (returns id) as State.init + claimable id State.init :=
    Runs.balance (fun u a v hu hs => Inv.step hu (step_moved hs))
      (fun u a v hu hs => claimable_step hu (step_moved hs) id) h Inv.init
  have hunended : unended id s ≤
      Runs.total (step cfg) (submits id) as State.init + unended id State.init :=
    Runs.accumulate (I := fun _ => True) (fun _ _ _ _ _ => trivial)
      (fun u a v _ hs => unended_step (step_moved hs) id) h trivial
  have hsubmit₀ : toSubmit id State.init = 0 := rfl
  have hunended₀ : unended id State.init = 0 := rfl
  have hclaim₀ := claimable_le id State.init
  omega

theorem submissions_bounded_done : ∃ s, run sampleConfig doneRun State.init = some s ∧
    Runs.total (step sampleConfig) (submits jobA) doneRun State.init = 1 ∧ unended jobA s ≤ 1 := by
  have hrun : (run sampleConfig doneRun State.init).isSome = true := by
    simp only [doneRun, List.append_assoc, run_first]
    decide +kernel
  obtain ⟨s, hs⟩ := Option.isSome_iff_exists.mp hrun
  have hone : Runs.total (step sampleConfig) (submits jobA) doneRun State.init = 1 := by
    simp only [doneRun, List.append_assoc]
    exact (first_trace.total_append _).trans (by decide +kernel)
  exact ⟨s, hs, hone, hone ▸ (submissions_bounded hs jobA).1⟩

end ZunServer.Resubmission
