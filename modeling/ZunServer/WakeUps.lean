import ZunServer.Retention

/-!
# Waking the worker

The worker parks once it has found the queue empty, or after it has backed off,
and a submit sends a token after its `INSERT`. A restore sends none, and nobody
does when a backoff is over.
-/
namespace ZunServer.WakeUps

open KeyedTable
open Schema Statements Database Comfy Calls Renditions Worker Handlers CustomPrompts Purge Server
open Rows Lifecycle WorkerSteps SubmitSteps RowInvariant Retention

/-- A submit between its `INSERT` and its wake-up call. -/
def waking : ServerTask → Bool
  | .submit (.wakeWorker _ _) => true
  | _ => false

/-- Some job waits for the worker. -/
def queueing (s : State) : Bool := s.world.db.jobs.rows.any runnable

/-- The tasks that the action does not end. -/
def remaining (s : State) : Act → List ServerTask
  | .drop i => s.tasks.eraseIdx i
  | _ => s.tasks

/-- A token is pending, or a submit is going to send one. -/
def awaited (s : State) (a : Act) : Bool := s.world.wake || (remaining s a).any waking

/-- The worker goes to park while a job waits, or parks already when a restore
takes a queued job back or a submit is dropped before its wake-up call. -/
def strands (s : State) : Act → Bool
  | .worker _ => (s.worker = .backoff ∨ s.worker = .fetchBackoff) && queueing s
  | .task i f => s.worker = .idle && (restores s (.task i f)).any (·.status = .queued)
  | .drop i => s.worker = .idle && (s.tasks[i]?).any waking && queueing s
  | _ => false

/-- That happens only when a wake-up is on its way. -/
def Announced (s : State) (a : Act) : Prop := strands s a = true → awaited s a = true

instance (s : State) (a : Act) : Decidable (Announced s a) :=
  inferInstanceAs (Decidable (strands s a = true → awaited s a = true))

def Attended (s : State) : Prop :=
  s.world.wake = true ∨ ∃ (i : Nat) (τ : ServerTask), s.tasks[i]? = some τ ∧ waking τ = true

/-- No job waits for a parked worker without a wake-up on its way. -/
def Parked (s : State) : Prop := s.worker = .idle → queueing s = true → Attended s

theorem queueing_iff {s : State} :
    queueing s = true ↔ ∃ r ∈ s.world.db.jobs.rows, runnable r = true := List.any_eq_true

/-- Only the worker takes the token. -/
theorem wake_stays {cfg : Config} {s t : State} {a : Act} (hm : Moved cfg s t a)
    (hidle : t.worker = .idle) (hw : ∀ f, a ≠ .worker f) (h : s.world.wake = true) :
    t.world.wake = true := by
  cases hm with
  | worker => exact absurd rfl (hw _)
  | task hi hcall worker tasks =>
    obtain ⟨c, k, x, hc, hex, -⟩ := perform_eq_some.mp hcall
    rcases (exec_change hex).wake with he | ⟨q, rfl, he | ⟨-, he⟩ | rfl⟩
    · exact he.trans h
    · exact he.trans h
    · exact he
    · cases task_runtime hc
  | writer hcall worker tasks =>
    obtain ⟨wr, wr', -, he, -⟩ := writerStep_change hcall
    rw [he]
    exact h
  | arrive world worker tasks => exact world ▸ h
  | drop hi live world worker tasks => exact world ▸ h
  | env he worker tasks =>
    rw [(Env.apply_change he).wake]
    exact h
  | crash he =>
    rw [he] at hidle
    cases hidle

theorem tryWake_call {w w' : World} {f : Fate} {x : Unit}
    (h : exec w (.runtime .tryWake) f = some (w', x)) : w'.wake = true := by
  cases f <;> cases h
  rfl

/-- A submit between its `INSERT` and its wake-up call stays there until it makes
the call or is dropped. -/
theorem waking_stays {cfg : Config} {s t : State} {a : Act} (hm : Moved cfg s t a)
    (hup : staysUp a = true) {i : Nat} {τ : ServerTask} (hi : s.tasks[i]? = some τ)
    (hτ : waking τ = true) (ha : a ≠ .drop i) : Attended t := by
  rcases hm.task_at hup hi with ⟨hi', -⟩ | ⟨f, τ', -, -, hcall⟩ | ⟨rfl, -⟩
  · exact .inr ⟨i, τ, hi', hτ⟩
  · left
    cases task_moved hcall with
    | submit hp =>
      rename_i pc pc'
      cases pc <;> cases hτ
      obtain ⟨c, k, x, hc, hex, -⟩ := perform_eq_some.mp hp
      cases hc
      exact tryWake_call hex
    | _ => cases hτ
  · exact absurd rfl ha

/-- The worker parks on an empty queue, or when a backoff is over. -/
theorem idle_origin {cfg : Config} {pc : WorkerPc} {f : Fate} {w w' : World}
    {l : List GeneratePc} (h : perform (pc.next cfg w.now) f w = some (w', .idle, l)) :
    (w.db.jobs.rows.any runnable = false ∨ pc = .backoff ∨ pc = .fetchBackoff) ∧ w' = w := by
  cases pc with
  | process job stage =>
    cases worker_step h with
    | stage hs =>
      cases hs with
      | fails _ he => cases he
    | free hfree _ _ => cases hfree
  | fetch =>
    obtain ⟨hw, -, hfetch⟩ := fetch_step h
    cases hfetch with
    | empty hnone => exact ⟨.inl (List.any_eq_false.mpr fun r hr => by simp [hnone r hr]), hw⟩
  | claim job =>
    cases worker_step h with
    | claimFails _ he => cases he
    | free hfree _ _ => cases hfree
  | backoff =>
    obtain ⟨c, k, x, hc, hex, hk⟩ := perform_eq_some.mp h
    cases hc
    cases f <;> cases hex
    exact ⟨.inr (.inl rfl), rfl⟩
  | fetchBackoff =>
    obtain ⟨c, k, x, hc, hex, hk⟩ := perform_eq_some.mp h
    cases hc
    cases f <;> cases hex
    exact ⟨.inr (.inr rfl), rfl⟩
  | stopped | panicked job => cases h
  | outer | inner | idle =>
    obtain ⟨c, k, x, hc, hex, hk⟩ := perform_eq_some.mp h
    cases hc
    cases x <;> cases hk
  | _ =>
    obtain ⟨c, k, x, hc, hex, hk⟩ := perform_eq_some.mp h
    cases hc
    cases hk

/-- Only a restore makes a row runnable, apart from the worker's requeue and its reset. -/
theorem runnable_stmt {s : State} {a : Act} {st : JobStmt} (hst : Issues s a st) {r : JobRow}
    (hr : row? s r.id = some r) (hrun : runnable (st.update.row r) = true) :
    runnable r = true ∨ (restores s a = some r ∧ r.status = .queued) ∨ s.worker = .start ∨
      ∃ job f, s.worker = .process job .requeue ∧ a = .worker f := by
  revert hrun
  refine row_cases (P := fun r' => runnable r' = true → _) _ r (fun hc hrun => ?_) .inl
  cases hst with
  | reset hw => exact .inr (.inr (.inl hw))
  | requeue hw => exact .inr (.inr (.inr ⟨_, _, hw, rfl⟩))
  | claim hw | markDone hw | markFailed hw =>
    simp [runnable, JobStmt.update, markRunning, markDone, markFailed] at hrun
  | storePromptId hw => exact .inl hrun
  | progress hw hp => exact .inl hrun
  | tryRunning hi | tryQueued hi | retryRunning hi =>
    simp [runnable, JobStmt.update, cancelRunning, cancelQueued, cancelFrom] at hrun
  | @hide i k id now hi =>
    cases k with
    | delete => simp [runnable, JobStmt.update, HideKind.stmt, deleteJob] at hrun
    | restore =>
      simp only [HideKind.stmt, JobStmt.update, restoreJob, decide_eq_true_eq] at hc
      obtain ⟨rfl, hdel⟩ := hc
      refine .inr (.inl ⟨restores_eq hi hr hdel, ?_⟩)
      simpa [runnable, JobStmt.update, HideKind.stmt, restoreJob] using hrun
  | persistJpegFirst hi | persistJpeg hi | generated hi =>
    left
    simp only [JobStmt.update, setDerivedPath] at hrun
    split at hrun <;> exact hrun

/-- What was on its way, and is not ended by the action, still is. -/
theorem awaited_stays {cfg : Config} {s t : State} {a : Act} (hm : Moved cfg s t a)
    (hidle : t.worker = .idle) (hw : ∀ f, a ≠ .worker f) (h : awaited s a = true) :
    Attended t := by
  rcases Bool.or_eq_true_iff.mp h with hwake | hany
  · exact .inl (wake_stays hm hidle hw hwake)
  · obtain ⟨τ, hτ, hwaking⟩ := List.any_eq_true.mp hany
    have hup : staysUp a = true := by
      cases a with
      | crash =>
        cases hm with
        | crash he =>
          rw [he] at hidle
          cases hidle
      | _ => rfl
    cases a with
    | drop i =>
      obtain ⟨j, hj, hi⟩ := List.mem_eraseIdx_iff_getElem?.mp hτ
      exact waking_stays hm hup hi hwaking fun he => hj (Act.drop.inj he).symm
    | _ =>
      obtain ⟨j, hi⟩ := List.getElem?_of_mem hτ
      exact waking_stays hm hup hi hwaking (by simp)

/-- While a row is runnable, only the drop of the last wake-up leaves none. -/
theorem awaited_before {s : State} {a : Act} (h : Parked s) (hann : Announced s a)
    (hidle : s.worker = .idle) (hq : queueing s = true) : awaited s a = true := by
  rcases h hidle hq with hwake | ⟨i, τ, hi, hτ⟩
  · simp [awaited, hwake]
  · cases a with
    | drop j =>
      by_cases hij : i = j
      · subst hij
        refine hann ?_
        simp [strands, hidle, hi, hτ, hq]
      · refine Bool.or_eq_true_iff.mpr (.inr (List.any_eq_true.mpr ⟨τ, ?_, hτ⟩))
        exact List.mem_eraseIdx_iff_getElem?.mpr ⟨i, hij, hi⟩
    | _ =>
      refine Bool.or_eq_true_iff.mpr (.inr (List.any_eq_true.mpr ⟨τ, ?_, hτ⟩))
      exact List.mem_of_getElem? hi

theorem strands_restore {s : State} {a : Act} {r : JobRow} (hidle : s.worker = .idle)
    (hr : restores s a = some r) (hq : r.status = .queued) : strands s a = true := by
  cases a with
  | task i f => simp [strands, hidle, hr, hq]
  | _ => cases hr

/-- The submit that has inserted a job is at its wake-up call. -/
theorem inserted_waking {cfg : Config} {s t : State} {i : Nat} {f : Fate} {p : Resolved}
    {inputId n : Int} {id : String} (hm : Moved cfg s t (.task i f))
    (hi : s.tasks[i]? = some (.submit (.insertJob p inputId id n))) {row : JobRow}
    (hins : s.world.db.jobs.insert? row = some t.world.db.jobs) : Attended t := by
  rcases hm.task_at rfl hi with ⟨-, hne⟩ | ⟨f', τ', -, hi', hcall⟩ | ⟨hd, -⟩
  · exact absurd rfl (hne f)
  · cases task_moved hcall with
    | submit hp =>
      obtain ⟨c, k, x, hc, hex, rfl⟩ := perform_eq_some.mp hp
      cases hc
      rcases execSql_eq_some hex with ⟨db, y, -, -, -, rfl⟩ | ⟨hw, -⟩
      · exact .inr ⟨i, _, hi', rfl⟩
      · have hrows := (Table.insert?_eq_some.mp hins).2
        rw [hw] at hrows
        simp at hrows
  · cases hd

theorem Parked.step {cfg : Config} {s t : State} {a : Act} (h : Parked s) (hm : Moved cfg s t a)
    (hann : Announced s a) : Parked t := by
  intro hidle hq
  rcases worker_cases hm with ⟨f, l, rfl, -, -⟩ | ⟨hw, hne, -⟩ | ⟨-, rfl⟩
  · cases hm with
    | worker hcall tasks =>
      rw [hidle] at hcall
      obtain ⟨hfrom, hworld⟩ := idle_origin hcall
      unfold queueing at hq
      rw [hworld] at hq
      have hstrands : strands s (.worker f) = true := by
        rcases hfrom with hempty | hback | hback
        · rw [hempty] at hq
          cases hq
        · simp [strands, queueing, hback, hq]
        · simp [strands, queueing, hback, hq]
      rcases Bool.or_eq_true_iff.mp (hann hstrands) with hwake | hany
      · exact .inl (hworld ▸ hwake)
      · obtain ⟨τ, hτ, hwaking⟩ := List.any_eq_true.mp hany
        obtain ⟨i, hi⟩ : ∃ i : Nat, s.tasks[i]? = some τ := List.getElem?_of_mem hτ
        refine .inr ⟨i, τ, ?_, hwaking⟩
        rw [tasks, List.getElem?_append_left (List.getElem?_eq_some_iff.mp hi).1]
        exact hi
  · have hidle₀ : s.worker = .idle := hw ▸ hidle
    have before : queueing s = true → Attended t := fun hq₀ =>
      awaited_stays hm hidle hne (awaited_before h hann hidle₀ hq₀)
    obtain ⟨r, hr, hrun⟩ := queueing_iff.mp hq
    cases hm.jobs with
    | same he => exact before (queueing_iff.mpr ⟨r, he ▸ hr, hrun⟩)
    | update hst he =>
      rw [he] at hr
      obtain ⟨r₀, hr₀, rfl⟩ := Table.mem_update.mp hr
      rcases runnable_stmt hst (mem_row hr₀) hrun with
        hrun₀ | ⟨hres, hqueued⟩ | hstart | ⟨job, f, -, ha⟩
      · exact before (queueing_iff.mpr ⟨r₀, hr₀, hrun₀⟩)
      · exact awaited_stays hm hidle hne (hann (strands_restore hidle₀ hres hqueued))
      · rw [hidle₀] at hstart
        cases hstart
      · exact absurd ha (hne f)
    | insert ha hi hins =>
      subst ha
      exact inserted_waking hm hi hins
    | delete ha hi he =>
      rw [he] at hr
      exact before (queueing_iff.mpr ⟨r, (Table.mem_delete.mp hr).1, hrun⟩)
  · cases hidle

/-- In every run whose backoffs end, whose restores take queued jobs back and
whose submits are dropped only with a wake-up on its way when the worker parks:
while the worker is parked and a job waits, a token is pending, unless a submit is
still to send it. -/
theorem parked_awaits {cfg : Config} {as : List Act} {s : State}
    (hs : run cfg as State.init = some s) (hann : Along cfg Announced as State.init)
    (hidle : s.worker = .idle) {r : JobRow} (hr : r ∈ s.world.db.jobs.rows)
    (hqueued : r.status = .queued) (hlive : r.deletedAt = none)
    (hsent : ∀ τ ∈ s.tasks, waking τ = false) : s.world.wake = true := by
  have hparked : Parked s := Runs.Along.invariant
    (fun u a v hu ha hstep => hu.step (step_moved hstep) ha) hann hs (fun hw => by cases hw)
  have hrun : runnable r = true := decide_eq_true ⟨hqueued, hlive⟩
  rcases hparked hidle (queueing_iff.mpr ⟨r, hr, hrun⟩) with hwake | ⟨i, τ, hi, hτ⟩
  · exact hwake
  · rw [hsent τ (List.mem_of_getElem? hi)] at hτ
    cases hτ

/-- The worker finds nothing to do and parks; a job is submitted then. -/
def parkedSubmit : List Act := List.replicate 4 (.worker .ok) ++ firstSubmit 0 jobA

theorem parked_awaits_sample : ∃ s, run sampleConfig parkedSubmit State.init = some s ∧
    s.worker = .idle ∧ s.world.wake = true := by
  have hrun : (run sampleConfig parkedSubmit State.init).bind (fun s =>
      if s.worker = .idle ∧ ∀ τ ∈ s.tasks, waking τ = false then
        (row? s jobA).map fun r => (r.status, r.deletedAt) else none) = some (.queued, none) := by
    decide +kernel
  obtain ⟨s, hs, h⟩ := Option.bind_eq_some_iff.mp hrun
  obtain ⟨⟨hidle, hsent⟩, h⟩ := Option.ite_none_right_eq_some.mp h
  obtain ⟨r, hr, he⟩ := Option.map_eq_some_iff.mp h
  obtain ⟨hqueued, hlive⟩ := Prod.mk.inj he
  exact ⟨s, hs, hidle, parked_awaits hs (by decide +kernel) hidle (row_mem hr).1 hqueued hlive hsent⟩

/-- A job is submitted and deleted before the worker looks at the queue; its
restore finds the worker parked. -/
def lateRestore : List Act :=
  firstSubmit 0 jobA ++ [.arrive (.hide .delete jobA), .task 1 .ok, .task 1 .ok] ++
    List.replicate 5 (.worker .ok) ++ List.replicate 3 (.worker .ok) ++
    [.arrive (.hide .restore jobA), .task 2 .ok, .task 2 .ok]

/-- Every request is answered, the job waits, and nothing wakes the worker. -/
theorem restored_stranded : ∃ s r, run sampleConfig lateRestore State.init = some s ∧
    s.worker = .idle ∧ r ∈ s.world.db.jobs.rows ∧ r.status = .queued ∧ r.deletedAt = none ∧
    (∀ τ ∈ s.tasks, (τ.next sampleConfig s.world.now).isNone = true) ∧ s.world.wake = false := by
  have hrun : (run sampleConfig lateRestore State.init).bind (fun s =>
      if s.worker = .idle ∧ (∀ τ ∈ s.tasks, (τ.next sampleConfig s.world.now).isNone = true) ∧
          s.world.wake = false then
        (row? s jobA).map fun r => (r.status, r.deletedAt) else none) = some (.queued, none) := by
    simp only [lateRestore, List.append_assoc, run_first]
    decide +kernel
  obtain ⟨s, hs, h⟩ := Option.bind_eq_some_iff.mp hrun
  obtain ⟨⟨hidle, hover, hwake⟩, h⟩ := Option.ite_none_right_eq_some.mp h
  obtain ⟨r, hr, he⟩ := Option.map_eq_some_iff.mp h
  obtain ⟨hqueued, hlive⟩ := Prod.mk.inj he
  exact ⟨s, r, hs, hidle, (row_mem hr).1, hqueued, hlive, hover, hwake⟩

end ZunServer.WakeUps
