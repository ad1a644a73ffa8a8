import ZunServer.Cancel

/-!
# Submitting a cancelled job

`process_job` looks at the row when it claims the job and then not before
`mark_done`. A cancel that takes effect between the claim and `POST /prompt`
does not keep the worker from submitting; one that takes effect at any other
time does.
-/
namespace ZunServer.Submission

open KeyedTable
open Schema Statements Database Comfy Calls Renditions Worker Handlers Purge Server Rows Lifecycle
open WorkerSteps RowInvariant Cancel

/-- The job the worker has claimed and not yet submitted. -/
def preparing (s : State) : Option String :=
  match s.worker with
  | .process job stage => if order stage ≤ order (.submitPrompt "" "") then some job.id else none
  | _ => none

/-- The job whose prompt the worker is about to `POST`. -/
def submitting (s : State) : Option String :=
  match s.worker with
  | .process job (.submitPrompt _ _) => some job.id
  | _ => none

/-- The jobs of the cancels that have been answered 204. -/
def confirmed (s : State) : List String :=
  s.tasks.filterMap fun
    | .cancel (.answered id .noContent) => some id
    | _ => none

/-- No cancel takes a job from `running` that the worker has yet to submit. -/
def TakesSubmitted (s : State) (a : Act) : Prop :=
  ∀ id ∈ takesRunning s a, preparing s ≠ some id

instance (s : State) (a : Act) : Decidable (TakesSubmitted s a) :=
  inferInstanceAs (Decidable (∀ id ∈ takesRunning s a, _))

/-- The job is cancelled, and the worker is not about to submit it. -/
structure Over (s : State) (id : String) : Prop where
  row : RowCancelled s id
  idle : preparing s ≠ some id

theorem preparing_eq {s : State} {id : String} (h : preparing s = some id) :
    ∃ job stage, s.worker = .process job stage ∧ order stage ≤ 6 ∧ job.id = id := by
  unfold preparing at h
  split at h
  · rename_i job stage hw
    split at h
    · rename_i hle
      exact ⟨job, stage, hw, hle, Option.some.inj h⟩
    · cases h
  · cases h

theorem preparing_of {s : State} {job : QueuedJob} {stage : Stage}
    (hw : s.worker = .process job stage) (hle : order stage ≤ 6) : preparing s = some job.id := by
  unfold preparing
  rw [hw]
  exact if_pos hle

theorem claimed_of_order {stage : Stage} (h : order stage ≤ 6) : claimed stage = true := by
  cases stage with
  | requeue | markFailed e =>
    simp only [order] at h
    omega
  | _ => rfl

/-- The worker prepares a job that it prepared before, or that it claims now. -/
theorem preparing_step {cfg : Config} {s t : State} {a : Act} (hm : Moved cfg s t a) {id : String}
    (h : preparing t = some id) :
    preparing s = some id ∨ ∃ r, row? s id = some r ∧ r.status = .queued := by
  obtain ⟨job, stage, ht, hle, rfl⟩ := preparing_eq h
  rcases stage_origin hm ht (claimed_of_order hle) with ⟨hn, -⟩ | ⟨f, stage', -, hpc, hg⟩ |
    ⟨hpc, -⟩
  · obtain ⟨r, hr, hcond⟩ := (JobStmt.affected_eq_one rfl).mp hn
    simp only [JobStmt.update, markRunning, decide_eq_true_eq] at hcond
    exact .inr ⟨r, hr, hcond.2.1⟩
  · exact .inl (preparing_of hpc (hg.order_le.trans hle))
  · exact .inl (preparing_of hpc hle)

theorem Over.step {cfg : Config} {s t : State} {a : Act} (hm : Moved cfg s t a) {id : String}
    (h : Over s id) : Over t id where
  row := h.row.step hm
  idle ht := by
    rcases preparing_step hm ht with hs | ⟨r, hr, hq⟩
    · exact h.idle hs
    · have hcancelled : r.status = .cancelled := h.row.row r hr
      rw [hq] at hcancelled
      cases hcancelled

/-- A row that an `UPDATE` of `cancel_job` takes is over. -/
theorem over_of_update {cfg : Config} {s t : State} {a : Act} (hinv : Inv s)
    (hm : Moved cfg s t a) {id : String} {st : Status} {now : Int}
    (hrow : status? s.world id = some st)
    (hjobs : t.world.db.jobs = s.world.db.jobs.update (cancelFrom st now id))
    (hidle : preparing s ≠ some id) (hw : t.worker = s.worker) : Over t id := by
  refine ⟨rowCancelled_of_update hinv.ids hm hrow hjobs, fun ht => hidle ?_⟩
  obtain ⟨job, stage, ht', hle, rfl⟩ := preparing_eq ht
  exact preparing_of (hw ▸ ht') hle

theorem queued_not_preparing {s : State} (hinv : Inv s) {id : String}
    (hrow : status? s.world id = some .queued) : preparing s ≠ some id := by
  intro hp
  obtain ⟨job, stage, hw, hle, rfl⟩ := preparing_eq hp
  obtain ⟨r, hr, hst⟩ := Option.map_eq_some_iff.mp hrow
  have hc : claimed stage = true := by
    cases stage <;> first | rfl | (simp only [order] at hle; omega)
  exact (hinv.process job stage hw hc).2 r hr hst

/-- Every cancel that has taken effect is of a job that is over. -/
structure CancelledOver (s : State) : Prop where
  inv : Inv s
  cancelled : ∀ (i : Nat) τ id, s.tasks[i]? = some τ → landed τ = some id → Over s id

theorem cancelledOver_step {cfg : Config} {s t : State} {a : Act} (hm : Moved cfg s t a)
    (hcond : TakesSubmitted s a) (h : CancelledOver s) : CancelledOver t where
  inv := h.inv.step hm
  cancelled i τ id hi hτ := by
    cases τ with
    | cancel pc =>
      rcases cancel_origin hm hi with ⟨hi₀, -⟩ | ⟨id', -, -, rfl⟩ | ⟨f, pc₀, rfl, hi₀, hstep⟩
      · exact (h.cancelled i _ id hi₀ hτ).step hm
      · cases hτ
      · have hw : t.worker = s.worker := by
          cases hm with
          | task _ _ worker _ => exact worker
        cases hstep with
        | fails _ _ _ => cases hτ
        | taken hf hrow hjobs =>
          cases hτ
          subst hf
          exact over_of_update h.inv hm hrow hjobs (hcond id (takesRunning_try hi₀ hrow)) hw
        | notRunning _ _ _ => cases hτ
        | queued _ hrow hjobs =>
          cases hτ
          exact over_of_update h.inv hm hrow hjobs (queued_not_preparing h.inv hrow) hw
        | notQueued _ _ _ => cases hτ
        | retaken hf hrow hjobs =>
          cases hτ
          subst hf
          exact over_of_update h.inv hm hrow hjobs (hcond id (takesRunning_retry hi₀ hrow)) hw
        | notFound _ _ _ => cases hτ
        | interrupted _ => exact (h.cancelled i _ id hi₀ hτ).step hm
        | answered _ => exact (h.cancelled i _ id hi₀ hτ).step hm
    | _ => cases hτ

/-- However the run goes on after a cancel was answered 204, the worker submits
the job no more, provided that no cancel so far took a job between its claim and
its submission. -/
theorem no_submit_after_cancel {cfg : Config} {as bs : List Act} {s t : State} {id : String}
    (hs : run cfg as State.init = some s) (hcond : Along cfg TakesSubmitted as State.init)
    (h204 : id ∈ confirmed s) (ht : run cfg bs s = some t) : submitting t ≠ some id := by
  have hover : CancelledOver s := by
    refine Runs.Along.invariant (fun u a v hu ha hstep => cancelledOver_step (step_moved hstep) ha hu)
      hcond hs ⟨Inv.init, fun i τ id hi => ?_⟩
    simp [State.init] at hi
  obtain ⟨τ, hτ, hid⟩ := List.mem_filterMap.mp h204
  obtain ⟨i, hi⟩ := List.getElem?_of_mem hτ
  have hc : landed τ = some id := by
    split at hid
    · exact hid
    · cases hid
  have hend : Over t id :=
    Runs.invariant (I := fun u => Over u id) (fun u a v hu hstep => hu.step (step_moved hstep)) ht
      (hover.cancelled i τ id hi hc)
  intro hsub
  refine hend.idle ?_
  unfold submitting at hsub
  split at hsub
  · rename_i job name client hw
    obtain rfl := Option.some.inj hsub
    exact preparing_of hw (Nat.le_refl 6)
  · cases hsub

theorem no_submit_after_cancel_sample : ∃ s t, run sampleConfig cancelRun State.init = some s ∧
    jobA ∈ confirmed s ∧ run sampleConfig [.worker .ok, .worker .ok] s = some t ∧
    submitting t ≠ some jobA := by
  have hrun : ((run sampleConfig cancelRun State.init).bind fun s =>
      if jobA ∈ confirmed s then run sampleConfig [.worker .ok, .worker .ok] s else none).isSome =
      true := by
    simp only [cancelRun, List.append_assoc, run_first]
    decide +kernel
  obtain ⟨t, h⟩ := Option.isSome_iff_exists.mp hrun
  obtain ⟨s, hs, h⟩ := Option.bind_eq_some_iff.mp h
  obtain ⟨h204, ht⟩ := Option.ite_none_right_eq_some.mp h
  exact ⟨s, t, hs, h204, ht, no_submit_after_cancel hs (by decide +kernel) h204 ht⟩

/-- The worker has claimed the job and is yet to read its input; the cancel
interrupts nothing and is answered 204. -/
def earlyCancelRun : List Act :=
  firstSubmit 0 jobA ++ startAndClaim ++
    [.arrive (.cancel jobA), .task 1 .ok, .task 1 .ok, .task 1 .ok]

/-- The worker then submits the cancelled job. -/
theorem submit_after_cancel : ∃ s t, run sampleConfig earlyCancelRun State.init = some s ∧
    jobA ∈ confirmed s ∧
    run sampleConfig ((processToSubmit clientA "p1").take 6) s = some t ∧
    submitting t = some jobA ∧ (step sampleConfig t (.worker (.name "p1"))).isSome = true := by
  have hrun : ((run sampleConfig earlyCancelRun State.init).bind fun s =>
      if jobA ∈ confirmed s then
        (run sampleConfig ((processToSubmit clientA "p1").take 6) s).bind fun t =>
          if submitting t = some jobA then step sampleConfig t (.worker (.name "p1")) else none
      else none).isSome = true := by
    simp only [earlyCancelRun, List.append_assoc, run_first]
    decide +kernel
  obtain ⟨u, h⟩ := Option.isSome_iff_exists.mp hrun
  obtain ⟨s, hs, h⟩ := Option.bind_eq_some_iff.mp h
  obtain ⟨h204, h⟩ := Option.ite_none_right_eq_some.mp h
  obtain ⟨t, ht, h⟩ := Option.bind_eq_some_iff.mp h
  obtain ⟨hsub, h⟩ := Option.ite_none_right_eq_some.mp h
  exact ⟨s, t, hs, h204, ht, hsub, by rw [h]; rfl⟩

end ZunServer.Submission
