import ZunServer.RowInvariant

/-!
# One call of a cancel request

`cancel_job` tries `running`, then `queued`, then `running` again. What each of
its calls leads to is said once, with what the row was when the `UPDATE` ran.
-/
namespace ZunServer.Cancel

open KeyedTable
open Schema Statements Database Comfy Calls Renditions Worker Handlers Purge Server Rows Lifecycle
open WorkerSteps RowInvariant

/-- The status of a job's row, if it has one. -/
def status? (w : World) (id : String) : Option Status := (w.db.jobs.find? id).map JobRow.status

theorem cancel_affected {w : World} {st : Status} {now : Int} {id : String} :
    w.db.jobs.affected (cancelFrom st now id) = if status? w id = some st then 1 else 0 := by
  rw [Table.affected_keyed (k := id) (fun r h => by simp [cancelFrom] at h; exact h.1)]
  unfold status?
  cases h : w.db.jobs.find? id with
  | none => rfl
  | some r =>
    have hid : r.id = id := Table.find?_key h
    simp [cancelFrom, hid]

/-- An `UPDATE` of `cancel_job` has taken the row, has not, or has failed. -/
theorem exec_cancel {w w' : World} {q : JobStmt} {st : Status} {now : Int} {id : String} {f : Fate}
    {x : Except String Nat} (hq : q.update = cancelFrom st now id)
    (h : exec w (.sql (.job q)) f = some (w', x)) :
    (f = .ok ∧ status? w id = some st ∧ x = .ok 1 ∧
      w'.db.jobs = w.db.jobs.update (cancelFrom st now id)) ∨
    (f = .ok ∧ status? w id ≠ some st ∧ x = .ok 0 ∧
      w'.db.jobs = w.db.jobs.update (cancelFrom st now id)) ∨
    (∃ e, f = .sqlFails e ∧ x = .error e ∧ w' = w) := by
  rcases exec_job h with ⟨hf, hx, hw⟩ | hfail
  · rw [hq] at hx hw
    rw [cancel_affected] at hx
    by_cases hrow : status? w id = some st
    · rw [if_pos hrow] at hx
      exact .inl ⟨hf, hrow, hx, by rw [hw]⟩
    · rw [if_neg hrow] at hx
      exact .inr (.inl ⟨hf, hrow, hx, by rw [hw]⟩)
  · exact .inr (.inr hfail)

/-- The job of a cancel that is still to run one of its three `UPDATE`s. -/
def updating : ServerTask → Option String
  | .cancel (.tryRunning id _) | .cancel (.tryQueued id _) | .cancel (.retryRunning id _) => some id
  | _ => none

/-- What a call of `cancel_job` leads to. -/
inductive CancelStep (w w' : World) (f : Fate) : CancelPc → CancelPc → Prop
  | fails {pc : CancelPc} {id e : String} (hpc : updating (.cancel pc) = some id) (hf : f = .sqlFails e)
      (hw : w' = w) : CancelStep w w' f pc (.answered id (.error (.internal e)))
  | taken {id : String} {now : Int} (hf : f = .ok) (hrow : status? w id = some .running)
      (hjobs : w'.db.jobs = w.db.jobs.update (cancelRunning now id)) :
      CancelStep w w' f (.tryRunning id now) (.interrupt id)
  | notRunning {id : String} {now : Int} (hf : f = .ok) (hrow : status? w id ≠ some .running)
      (hjobs : w'.db.jobs = w.db.jobs.update (cancelRunning now id)) :
      CancelStep w w' f (.tryRunning id now) (.tryQueued id now)
  | queued {id : String} {now : Int} (hf : f = .ok) (hrow : status? w id = some .queued)
      (hjobs : w'.db.jobs = w.db.jobs.update (cancelQueued now id)) :
      CancelStep w w' f (.tryQueued id now) (.notify id)
  | notQueued {id : String} {now : Int} (hf : f = .ok) (hrow : status? w id ≠ some .queued)
      (hjobs : w'.db.jobs = w.db.jobs.update (cancelQueued now id)) :
      CancelStep w w' f (.tryQueued id now) (.retryRunning id now)
  | retaken {id : String} {now : Int} (hf : f = .ok) (hrow : status? w id = some .running)
      (hjobs : w'.db.jobs = w.db.jobs.update (cancelRunning now id)) :
      CancelStep w w' f (.retryRunning id now) (.interrupt id)
  | notFound {id : String} {now : Int} (hf : f = .ok) (hrow : status? w id ≠ some .running)
      (hjobs : w'.db.jobs = w.db.jobs.update (cancelRunning now id)) :
      CancelStep w w' f (.retryRunning id now) (.answered id (.error .notFound))
  | interrupted {id : String} (hf : ∀ e, f ≠ .sqlFails e) : CancelStep w w' f (.interrupt id) (.notify id)
  | answered {id : String} (hf : ∀ e, f ≠ .sqlFails e) : CancelStep w w' f (.notify id) (.answered id .noContent)

theorem cancel_step {w w' : World} {f : Fate} {pc pc' : CancelPc}
    (h : perform pc.next f w = some (w', pc')) : CancelStep w w' f pc pc' := by
  obtain ⟨c, k, x, hc, hex, hk⟩ := perform_eq_some.mp h
  cases pc with
  | tryRunning id now =>
    cases hc
    rcases exec_cancel rfl hex with ⟨hf, hrow, rfl, hjobs⟩ | ⟨hf, hrow, rfl, hjobs⟩ |
      ⟨e, hf, rfl, hw⟩ <;> cases hk
    · exact .taken hf hrow hjobs
    · exact .notRunning hf hrow hjobs
    · exact .fails rfl hf hw
  | tryQueued id now =>
    cases hc
    rcases exec_cancel rfl hex with ⟨hf, hrow, rfl, hjobs⟩ | ⟨hf, hrow, rfl, hjobs⟩ |
      ⟨e, hf, rfl, hw⟩ <;> cases hk
    · exact .queued hf hrow hjobs
    · exact .notQueued hf hrow hjobs
    · exact .fails rfl hf hw
  | retryRunning id now =>
    cases hc
    rcases exec_cancel rfl hex with ⟨hf, hrow, rfl, hjobs⟩ | ⟨hf, hrow, rfl, hjobs⟩ |
      ⟨e, hf, rfl, hw⟩ <;> cases hk
    · exact .retaken hf hrow hjobs
    · exact .notFound hf hrow hjobs
    · exact .fails rfl hf hw
  | interrupt id =>
    cases hc
    cases hk
    refine .interrupted ?_
    rintro e rfl
    cases hex
  | notify id =>
    cases hc
    cases hk
    refine .answered ?_
    rintro e rfl
    cases hex
  | answered id r => cases hc

/-- A cancel among the tasks is there from before, has just arrived, or has moved. -/
theorem cancel_origin {cfg : Config} {s t : State} {a : Act} (hm : Moved cfg s t a) {i : Nat}
    {pc : CancelPc} (hi : t.tasks[i]? = some (.cancel pc)) :
    (s.tasks[i]? = some (.cancel pc) ∧ ∀ f, a ≠ .task i f) ∨
    (∃ id, a = .arrive (.cancel id) ∧ i = s.tasks.length ∧ pc = .tryRunning id s.world.now) ∨
    (∃ f pc₀, a = .task i f ∧ s.tasks[i]? = some (.cancel pc₀) ∧
      CancelStep s.world t.world f pc₀ pc) := by
  cases hm.origin hi with
  | kept hi ha => exact .inl ⟨hi, ha⟩
  | moved hi₀ hp =>
    cases task_moved hp with
    | cancel hp => exact .inr (.inr ⟨_, _, rfl, hi₀, cancel_step hp⟩)
  | arrived hlen hτ =>
    rename_i r
    cases r with
    | cancel id =>
      cases hτ
      exact .inr (.inl ⟨id, rfl, hlen, rfl⟩)
    | _ => cases hτ
  | spawned hi hp hg hτ => cases hτ
  | dropped hτ => cases hτ

/-- The job that a cancel's `UPDATE` takes from `running`. -/
def takesRunning (s : State) : Act → Option String
  | .task i .ok => match s.tasks[i]? with
    | some (.cancel (.tryRunning id _)) | some (.cancel (.retryRunning id _)) =>
      if status? s.world id = some .running then some id else none
    | _ => none
  | _ => none

theorem takesRunning_try {s : State} {i : Nat} {id : String} {now : Int}
    (hi : s.tasks[i]? = some (.cancel (.tryRunning id now)))
    (hrow : status? s.world id = some .running) : takesRunning s (.task i .ok) = some id := by
  simp only [takesRunning, hi, hrow, ↓reduceIte]

theorem takesRunning_retry {s : State} {i : Nat} {id : String} {now : Int}
    (hi : s.tasks[i]? = some (.cancel (.retryRunning id now)))
    (hrow : status? s.world id = some .running) : takesRunning s (.task i .ok) = some id := by
  simp only [takesRunning, hi, hrow, ↓reduceIte]

/-- The job of a cancel whose `UPDATE` has taken effect. -/
def landed : ServerTask → Option String
  | .cancel (.interrupt id) | .cancel (.notify id) | .cancel (.answered id .noContent) => some id
  | _ => none

/-- While the `i`-th task, a cancel of the job, is still to run one of its
`UPDATE`s, the row is there and queued or running. -/
def LiveWhile (i : Nat) (id : String) (s : State) : Prop :=
  ∀ τ ∈ s.tasks[i]?, updating τ = some id → ∃ st ∈ status? s.world id, st.live = true

instance (i : Nat) (id : String) (s : State) : Decidable (LiveWhile i id s) :=
  inferInstanceAs (Decidable (∀ τ ∈ s.tasks[i]?, _))

/-- A statement of the `i`-th task fails, or it is the third `UPDATE` of a
cancel and the row is queued. -/
def misses (i : Nat) (s : State) : Act → Bool
  | .task j (.sqlFails _) => j = i
  | .task j _ => j = i && match s.tasks[i]? with
    | some (.cancel (.retryRunning id _)) => status? s.world id = some .queued
    | _ => false
  | _ => false

/-- The `i`-th task after a step, when it is a cancel. -/
theorem cancel_next {cfg : Config} {s t : State} {a : Act} (hm : Moved cfg s t a)
    (hup : staysUp a = true) {i : Nat} {pc : CancelPc} (hi : s.tasks[i]? = some (.cancel pc)) :
    t.tasks[i]? = some (.cancel pc) ∨
    (∃ f pc', a = .task i f ∧ t.tasks[i]? = some (.cancel pc') ∧
      CancelStep s.world t.world f pc pc') ∨
    (t.tasks[i]? = some .dropped ∧ pc.next.isSome) := by
  rcases hm.task_at hup hi with ⟨hi', -⟩ | ⟨f, τ', ha, hi', hp⟩ | ⟨-, hi', hlive⟩
  · exact .inl hi'
  · obtain ⟨pc', hcall, rfl⟩ := perform_map.mp hp
    exact .inr (.inl ⟨f, pc', ha, hi', cancel_step hcall⟩)
  · refine .inr (.inr ⟨hi', ?_⟩)
    cases pc <;> first | rfl | exact hlive

/-- The row is cancelled, or purge has removed it. -/
structure RowCancelled (s : State) (id : String) : Prop where
  settled : Settled s id
  row : OnRow s id fun r => r.status = .cancelled

theorem RowCancelled.step {cfg : Config} {s t : State} {a : Act} (hm : Moved cfg s t a)
    {id : String} (h : RowCancelled s id) : RowCancelled t id where
  settled := h.settled.step hm
  row := h.row.step hm h.settled fun st r _ _ hr => by
    have hlive : r.status.live = false := by rw [show r.status = .cancelled from hr]; rfl
    exact (stmt_terminal st hlive).trans hr

theorem rowCancelled_of_update {cfg : Config} {s t : State} {a : Act} (hok : IdsOk s)
    (hm : Moved cfg s t a) {id : String} {st : Status} {now : Int}
    (hrow : status? s.world id = some st)
    (hjobs : t.world.db.jobs = s.world.db.jobs.update (cancelFrom st now id)) :
    RowCancelled t id := by
  obtain ⟨r, hr, hst⟩ := Option.map_eq_some_iff.mp hrow
  refine ⟨(hok.settled hr).step hm, fun r' hr' => ?_⟩
  have hid : r.id = id := Table.find?_key hr
  unfold row? at hr'
  rw [hjobs, Table.find?_update, hr, Option.map_some,
    Update.row_of_cond _ (by simp [cancelFrom, hid, hst])] at hr'
  obtain rfl := Option.some.inj hr'
  rfl

/-- The call is still trying, has taken the job, or has lost its client. -/
def OnCourse (i : Nat) (id : String) (s : State) : Prop :=
  IdsOk s ∧ ((∃ τ, s.tasks[i]? = some τ ∧ updating τ = some id) ∨
    (∃ τ, s.tasks[i]? = some τ ∧ landed τ = some id ∧ RowCancelled s id) ∨ s.tasks[i]? = some .dropped)

/-- A step that does not miss keeps the call on course. -/
theorem onCourse_step {cfg : Config} {s t : State} {a : Act} (hm : Moved cfg s t a) {i : Nat}
    {id : String} (hup : staysUp a = true) (hlive : LiveWhile i id s)
    (hmiss : misses i s a = false) (h : OnCourse i id s) : OnCourse i id t := by
  obtain ⟨hok, h⟩ := h
  refine ⟨hok.step hm, ?_⟩
  rcases h with ⟨τ, hi, hup'⟩ | ⟨τ, hi, hland, hrow⟩ | hi
  · have hl := hlive τ hi hup'
    cases τ with
    | cancel pc =>
      rcases cancel_next hm hup hi with hi' | ⟨f, pc', rfl, hi', hstep⟩ | ⟨hi', -⟩
      · exact .inl ⟨_, hi', hup'⟩
      · cases hstep with
        | fails _ hf _ =>
          subst hf
          simp [misses] at hmiss
        | taken _ hrow hjobs | queued _ hrow hjobs | retaken _ hrow hjobs =>
          cases hup'
          exact .inr (.inl ⟨_, hi', rfl, rowCancelled_of_update hok hm hrow hjobs⟩)
        | notRunning _ _ _ | notQueued _ _ _ => exact .inl ⟨_, hi', hup'⟩
        | notFound _ hrow _ =>
          cases hup'
          exfalso
          obtain ⟨st, hst, hst'⟩ := hl
          have hq : status? s.world id = some .queued := by
            cases st with
            | queued => exact hst
            | running => exact absurd hst hrow
            | done | failed | cancelled => cases hst'
          cases f <;> simp [misses, hi, hq] at hmiss
        | interrupted _ | answered _ => cases hup'
      · exact .inr (.inr hi')
    | _ => cases hup'
  · cases τ with
    | cancel pc =>
      rcases cancel_next hm hup hi with hi' | ⟨f, pc', rfl, hi', hstep⟩ | ⟨hi', -⟩
      · exact .inr (.inl ⟨_, hi', hland, hrow.step hm⟩)
      · cases hstep with
        | interrupted _ | answered _ => exact .inr (.inl ⟨_, hi', hland, hrow.step hm⟩)
        | fails _ hf _ =>
          subst hf
          simp [misses] at hmiss
        | _ => cases hland
      · exact .inr (.inr hi')
    | _ => cases hland
  · exact .inr (.inr (hm.dropped_stays hup hi))

/-- The call has been answered, and not with 204. -/
def Refused (i : Nat) (s : State) : Prop :=
  ∃ id e, s.tasks[i]? = some (.cancel (.answered id (.error e)))

theorem Refused.step {cfg : Config} {s t : State} {a : Act} (hm : Moved cfg s t a)
    (hup : staysUp a = true) {i : Nat} (h : Refused i s) : Refused i t := by
  obtain ⟨id, e, hi⟩ := h
  rcases cancel_next hm hup hi with hi' | ⟨f, pc', -, -, hstep⟩ | ⟨-, hlive⟩
  · exact ⟨id, e, hi'⟩
  · cases hstep with
    | fails hpc _ _ => cases hpc
  · cases hlive

theorem misses_task {s : State} {a : Act} {i : Nat} (h : misses i s a = true) :
    ∃ f, a = .task i f ∧ ((∃ e, f = .sqlFails e) ∨ ∃ id now,
      s.tasks[i]? = some (.cancel (.retryRunning id now)) ∧ status? s.world id = some .queued) := by
  cases a with
  | task j f =>
    cases f with
    | sqlFails e =>
      obtain rfl : j = i := by simpa [misses] using h
      exact ⟨_, rfl, .inl ⟨e, rfl⟩⟩
    | _ =>
      simp only [misses, Bool.and_eq_true, decide_eq_true_eq] at h
      obtain ⟨rfl, h⟩ := h
      refine ⟨_, rfl, .inr ?_⟩
      split at h
      · rename_i id now hi
        exact ⟨id, now, hi, by simpa using h⟩
      · cases h
  | _ => cases h

/-- A step that misses settles the answer. -/
theorem refused_of_miss {cfg : Config} {s t : State} {a : Act} (hm : Moved cfg s t a) {i : Nat}
    {id : String} (hmiss : misses i s a = true) (h : OnCourse i id s) : Refused i t := by
  obtain ⟨f, rfl, hf⟩ := misses_task hmiss
  have next : ∀ τ, s.tasks[i]? = some τ → ∃ τ', t.tasks[i]? = some τ' ∧
      perform (τ.next cfg s.world.now) f s.world = some (t.world, τ') := by
    intro τ hi
    rcases hm.task_at rfl hi with ⟨-, hne⟩ | ⟨f', τ', ha, hi', hp⟩ | ⟨ha, -⟩
    · exact absurd rfl (hne f)
    · cases ha
      exact ⟨τ', hi', hp⟩
    · cases ha
  have step : ∀ pc, s.tasks[i]? = some (.cancel pc) → ∃ pc', t.tasks[i]? = some (.cancel pc') ∧
      CancelStep s.world t.world f pc pc' := by
    intro pc hi
    obtain ⟨τ', hi', hp⟩ := next _ hi
    obtain ⟨pc', hcall, rfl⟩ := perform_map.mp hp
    exact ⟨pc', hi', cancel_step hcall⟩
  rcases hf with ⟨e, rfl⟩ | ⟨id', now, hi, hq⟩
  · have fails : ∀ τ, s.tasks[i]? = some τ → updating τ = some id ∨ landed τ = some id → Refused i t := by
      intro τ hi hτ
      cases τ with
      | cancel pc =>
        obtain ⟨pc', hi', hstep⟩ := step pc hi
        cases hstep with
        | fails _ _ _ => exact ⟨_, _, hi'⟩
        | interrupted hf | answered hf => exact absurd rfl (hf e)
        | taken hf | notRunning hf | queued hf | notQueued hf | retaken hf | notFound hf => cases hf
      | _ => rcases hτ with hτ | hτ <;> cases hτ
    rcases h.2 with ⟨τ, hi, hτ⟩ | ⟨τ, hi, hτ, -⟩ | hi
    · exact fails τ hi (.inl hτ)
    · exact fails τ hi (.inr hτ)
    · obtain ⟨τ', -, hp⟩ := next _ hi
      cases hp
  · obtain ⟨pc', hi', hstep⟩ := step _ hi
    cases hstep with
    | fails _ _ _ => exact ⟨_, _, hi'⟩
    | retaken _ hrow _ =>
      rw [hq] at hrow
      cases hrow
    | notFound _ _ _ => exact ⟨_, _, hi'⟩

/-- How a call that is on course ends, when the row is live while it tries. -/
theorem course_or_refused {cfg : Config} {as : List Act} {i : Nat} {id : String} {s t : State}
    (h : OnCourse i id s) (ht : run cfg as s = some t)
    (hlive : Along cfg (fun u a => staysUp a = true ∧ LiveWhile i id u) as s) :
    (OnCourse i id t ∧ Along cfg (fun u a => misses i u a = false) as s) ∨
      (Refused i t ∧ ¬ Along cfg (fun u a => misses i u a = false) as s) := by
  induction as generalizing s with
  | nil =>
    obtain rfl := Option.some.inj ht
    exact .inl ⟨h, trivial⟩
  | cons a as ih =>
    obtain ⟨m, hm, hrun⟩ := Runs.run_cons_some.mp ht
    obtain ⟨⟨hup, hl⟩, hrest⟩ := hlive
    by_cases hmiss : misses i s a = true
    · right
      refine ⟨?_, fun hno => ?_⟩
      · refine Runs.Along.invariant (I := Refused i) (fun u b v hu hb hs => ?_) (hrest m hm) hrun
          (refused_of_miss (step_moved hm) hmiss h)
        exact hu.step (step_moved hs) hb.1
      · rw [hno.1] at hmiss
        cases hmiss
    · have hmiss' : misses i s a = false := by simpa using hmiss
      rcases ih (onCourse_step (step_moved hm) hup hl hmiss' h) hrun (hrest m hm) with
        ⟨hend, hno⟩ | ⟨hend, hno⟩
      · refine .inl ⟨hend, hmiss', fun v hv => ?_⟩
        obtain rfl := Option.some.inj (hm.symm.trans hv)
        exact hno
      · exact .inr ⟨hend, fun hall => hno (hall.2 m hm)⟩

/-- A cancel whose job is queued or running whenever one of its `UPDATE`s is
still to run is answered 204, its row cancelled, exactly if none of its
statements fails and the third one does not meet a queued row. -/
theorem cancel_answer {cfg : Config} {s t : State} {as : List Act} {i : Nat} {id : String}
    {now : Int} {r : Response} (hs : Reachable cfg s)
    (hi : s.tasks[i]? = some (.cancel (.tryRunning id now))) (ht : run cfg as s = some t)
    (hr : t.tasks[i]? = some (.cancel (.answered id r)))
    (hlive : Along cfg (fun u a => staysUp a = true ∧ LiveWhile i id u) as s) :
    (r = .noContent ∧ OnRow t id fun row => row.status = .cancelled) ↔
      Along cfg (fun u a => misses i u a = false) as s := by
  have hstart : OnCourse i id s := ⟨reachable_ids hs, .inl ⟨_, hi, rfl⟩⟩
  rcases course_or_refused hstart ht hlive with ⟨⟨-, hend⟩, hno⟩ | ⟨⟨id', e, hi'⟩, hno⟩
  · refine ⟨fun _ => hno, fun _ => ?_⟩
    rcases hend with ⟨τ, hi', hτ⟩ | ⟨τ, hi', hτ, hrow⟩ | hi'
    · obtain rfl := Option.some.inj (hr.symm.trans hi')
      cases hτ
    · obtain rfl := Option.some.inj (hr.symm.trans hi')
      cases r with
      | noContent => exact ⟨rfl, hrow.row⟩
      | _ => cases hτ
    · rw [hr] at hi'
      cases hi'
  · refine ⟨fun ⟨he, _⟩ => ?_, fun hall => absurd hall hno⟩
    rw [hr, he] at hi'
    cases hi'

/-- The `i`-th task, if it is a cancel. -/
def cancelAt (s : State) (i : Nat) : Option CancelPc :=
  match s.tasks[i]? with
  | some (.cancel pc) => some pc
  | _ => none

theorem cancelAt_eq_some {s : State} {i : Nat} {pc : CancelPc} (h : cancelAt s i = some pc) :
    s.tasks[i]? = some (.cancel pc) := by
  unfold cancelAt at h
  split at h
  · rename_i pc' hi
    rw [hi, Option.some.inj h]
  · cases h

/-- The job is claimed between the first two `UPDATE`s of its cancel. -/
def claimedRun : List Act :=
  [.task 1 .ok] ++ startAndClaim ++ [.task 1 .ok, .task 1 .ok, .task 1 .ok, .task 1 .ok]

theorem cancel_answer_claimed : ∃ s t,
    run sampleConfig (firstSubmit 0 jobA ++ [.arrive (.cancel jobA)]) State.init = some s ∧
    run sampleConfig claimedRun s = some t ∧
    t.tasks[1]? = some (.cancel (.answered jobA .noContent)) ∧
    OnRow t jobA fun row => row.status = .cancelled := by
  have hrun : ((run sampleConfig (firstSubmit 0 jobA ++ [.arrive (.cancel jobA)])
      State.init).bind fun s =>
        if Along sampleConfig (fun u a => staysUp a = true ∧ LiveWhile 1 jobA u) claimedRun s ∧
            Along sampleConfig (fun u a => misses 1 u a = false) claimedRun s then
          (run sampleConfig claimedRun s).map fun t => (cancelAt s 1, cancelAt t 1)
        else none) = some (some (.tryRunning jobA 0), some (.answered jobA .noContent)) := by
    simp only [run_first]
    decide +kernel
  obtain ⟨s, hs, h⟩ := Option.bind_eq_some_iff.mp hrun
  obtain ⟨⟨hlive, hno⟩, h⟩ := Option.ite_none_right_eq_some.mp h
  obtain ⟨t, ht, h⟩ := Option.map_eq_some_iff.mp h
  obtain ⟨hi, hr⟩ := Prod.mk.inj h
  have hi := cancelAt_eq_some hi
  have hr := cancelAt_eq_some hr
  exact ⟨s, t, hs, ht, hr, ((cancel_answer ⟨_, hs⟩ hi ht hr hlive).mpr hno).2⟩

/-- The job is queued at the first `UPDATE`, claimed before the second, requeued
because ComfyUI is not there, and queued again at the third. -/
def requeuedRun : List Act :=
  [.task 1 .ok] ++ startAndClaim ++ [.task 1 .ok] ++
    [.worker .ok, .worker .ok, .worker .ok, .worker (.unreachable "connection refused"),
      .worker .ok] ++ [.task 1 .ok]

/-- The job is queued or running all the time, and the cancel is answered 404. -/
theorem cancel_not_found : ∃ s t,
    run sampleConfig (firstSubmit 0 jobA ++ [.arrive (.cancel jobA)]) State.init = some s ∧
    s.tasks[1]? = some (.cancel (.tryRunning jobA 0)) ∧
    Along sampleConfig (fun u a => staysUp a = true ∧ LiveWhile 1 jobA u) requeuedRun s ∧
    run sampleConfig requeuedRun s = some t ∧
    t.tasks[1]? = some (.cancel (.answered jobA (.error .notFound))) ∧
    status? t.world jobA = some .queued := by
  have hrun : ((run sampleConfig (firstSubmit 0 jobA ++ [.arrive (.cancel jobA)])
      State.init).bind fun s =>
        if Along sampleConfig (fun u a => staysUp a = true ∧ LiveWhile 1 jobA u) requeuedRun s then
          (run sampleConfig requeuedRun s).map fun t =>
            (cancelAt s 1, cancelAt t 1, status? t.world jobA)
        else none) = some (some (.tryRunning jobA 0),
          some (.answered jobA (.error .notFound)), some .queued) := by
    simp only [run_first]
    decide +kernel
  obtain ⟨s, hs, h⟩ := Option.bind_eq_some_iff.mp hrun
  obtain ⟨hlive, h⟩ := Option.ite_none_right_eq_some.mp h
  obtain ⟨t, ht, h⟩ := Option.map_eq_some_iff.mp h
  obtain ⟨hi, h⟩ := Prod.mk.inj h
  obtain ⟨hr, hq⟩ := Prod.mk.inj h
  exact ⟨s, t, hs, cancelAt_eq_some hi, hlive, ht, cancelAt_eq_some hr, hq⟩

end ZunServer.Cancel
