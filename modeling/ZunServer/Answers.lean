import ZunServer.LongPoll

/-!
# What the answers of `get_job` say one after the other

A handler answers with the row that it has read, which at the end of a long poll may
be an old one. A client that has seen its job come to an end sees nothing else of it
from then on, unless the job is gone.
-/
namespace ZunServer.Answers

open KeyedTable
open Schema Statements Database Comfy Calls Renditions Worker Handlers CustomPrompts Purge Server
open Rows Lifecycle

/-- The row that a handler of `get_job` is going to answer with, as far as it knows, or has
answered with. -/
def rowRead : ServerTask → Option JobFullRow
  | .get (.subscribe row) | .get (.checkDeadline row _) | .get (.changed row _)
  | .get (.reread row _) | .get (.countAhead row) | .get (.answered (.job row _)) => some row
  | _ => none

/-- The job that the `i`-th task has answered with, and its position in the queue. -/
def answerAt (s : State) (i : Nat) : Option (JobFullRow × Option Nat) :=
  match s.tasks[i]? with
  | some (.get (.answered (.job row pos))) => some (row, pos)
  | _ => none

/-- The request is the same one, and after a terminal status nothing changes. -/
structure Agrees (row row' : JobFullRow) : Prop where
  inputId : row'.inputId = row.inputId
  sourcePromptId : row'.sourcePromptId = row.sourcePromptId
  promptText : row'.promptText = row.promptText
  workflow : row'.workflow = row.workflow
  seed : row'.seed = row.seed
  createdAt : row'.createdAt = row.createdAt
  final : row.status.live = false → row' = row

/-- The job of the row has been inserted, and what is stored of it agrees with the row. -/
def Stands (row : JobFullRow) (s : State) : Prop :=
  Settled s row.id ∧ OnRow s row.id fun r => Agrees row (.of r)

theorem Agrees.refl (row : JobFullRow) : Agrees row row := ⟨rfl, rfl, rfl, rfl, rfl, rfl, fun _ => rfl⟩

theorem answerAt_eq_some {s : State} {i : Nat} {row : JobFullRow} {pos : Option Nat}
    (h : answerAt s i = some (row, pos)) :
    s.tasks[i]? = some (.get (.answered (.job row pos))) := by
  unfold answerAt at h
  split at h
  · rename_i hi
    cases h
    exact hi
  · cases h

/-- No statement changes what `get_job` shows of a job that has come to its end. -/
theorem stmt_final (st : JobStmt) {r : JobRow} (h : r.status.live = false) :
    JobFullRow.of (st.update.row r) = .of r := by
  have hrunning : r.status ≠ .running := by
    rintro he
    rw [he] at h
    cases h
  have hqueued : r.status ≠ .queued := by
    rintro he
    rw [he] at h
    cases h
  apply row_cases (P := fun r' => JobFullRow.of r' = .of r) _ r _ rfl
  intro hcond
  cases st with
  | resetRunningJobs =>
    exact absurd (by simpa [JobStmt.update, resetRunningJobs] using hcond) hrunning
  | markRunning now id =>
    simp only [JobStmt.update, markRunning, decide_eq_true_eq] at hcond
    exact absurd hcond.2.1 hqueued
  | writeProgress id p =>
    simp only [JobStmt.update, writeProgress, decide_eq_true_eq] at hcond
    exact absurd hcond.2 hrunning
  | markDone now id out w ht =>
    simp only [JobStmt.update, markDone, decide_eq_true_eq] at hcond
    exact absurd hcond.2 hrunning
  | requeue id =>
    simp only [JobStmt.update, requeue, decide_eq_true_eq] at hcond
    exact absurd hcond.2 hrunning
  | markFailed now id e =>
    simp only [JobStmt.update, markFailed, decide_eq_true_eq] at hcond
    exact absurd hcond.2 hrunning
  | cancelRunning now id =>
    simp only [JobStmt.update, cancelRunning, cancelFrom, decide_eq_true_eq] at hcond
    exact absurd hcond.2 hrunning
  | cancelQueued now id =>
    simp only [JobStmt.update, cancelQueued, cancelFrom, decide_eq_true_eq] at hcond
    exact absurd hcond.2 hqueued
  | updateComfyPromptId id c | deleteJob now id | restoreJob id => rfl
  | setDerivedPath col id rel => cases col <;> rfl

theorem Agrees.stmt {row : JobFullRow} {r : JobRow} (h : Agrees row (.of r)) (st : JobStmt) :
    Agrees row (.of (st.update.row r)) := by
  have hsame := stmt_sameRequest st r
  refine ⟨hsame.inputId.trans h.inputId, hsame.sourcePromptId.trans h.sourcePromptId,
    hsame.promptText.trans h.promptText, hsame.workflow.trans h.workflow, hsame.seed.trans h.seed,
    hsame.createdAt.trans h.createdAt, fun hend => ?_⟩
  have hrow : JobFullRow.of r = row := h.final hend
  have hlive : r.status.live = false := by
    have hstatus : r.status = row.status := congrArg JobFullRow.status hrow
    rw [hstatus, hend]
  rw [stmt_final st hlive, hrow]

theorem Stands.step {cfg : Config} {s t : State} {a : Act} {row : JobFullRow} (h : Stands row s)
    (hm : Moved cfg s t a) : Stands row t :=
  ⟨h.1.step hm, h.2.step hm h.1 fun st _ _ _ hr => hr.stmt st⟩

theorem rowRead_finish {row row' : JobFullRow} (h : rowRead (.get (.finish row)) = some row') :
    row' = row := by
  unfold GetPc.finish at h
  split at h <;> exact (Option.some.inj h).symm

/-- A row that a statement reads is there. -/
theorem fetched {w w' : World} {f : Fate} {id : String} {row : JobFullRow}
    (h : exec w (.sql (.fetchJobRow id)) f = some (w', .ok (some row))) :
    ∃ r, w.db.jobs.find? id = some r ∧ row = .of r ∧ row.id = id := by
  rcases execSql_eq_some h with ⟨db, a, -, hrun, -, ha⟩ | ⟨-, e, he⟩
  · cases hrun
    obtain ⟨r, hr, rfl⟩ := Option.map_eq_some_iff.mp (Except.ok.inj ha).symm
    have hfind := (Option.filter_eq_some_iff.mp hr).1
    have hid : r.id = id := Table.find?_key hfind
    exact ⟨r, hfind, rfl, hid⟩
  · cases he

theorem read_call {pc pc' : GetPc} {f : Fate} {w w' : World} {row : JobFullRow}
    (h : perform pc.next f w = some (w', pc')) (hrow : rowRead (.get pc') = some row) :
    rowRead (.get pc) = some row ∨ ∃ r, w.db.jobs.find? row.id = some r ∧ row = .of r := by
  obtain ⟨c, k, x, hc, hex, rfl⟩ := perform_eq_some.mp h
  cases pc with
  | selectRow id wait =>
    cases hc
    rcases x with e | _ | current
    · cases hrow
    · cases hrow
    · obtain ⟨r, hr, he, hid⟩ := fetched hex
      have hcurrent : row = current := by
        dsimp only at hrow
        split at hrow
        · exact (Option.some.inj hrow).symm
        · exact rowRead_finish hrow
      subst hcurrent
      exact .inr ⟨r, hid ▸ hr, he⟩
  | subscribe row₀ =>
    cases hc
    exact .inl hrow
  | checkDeadline row₀ seen =>
    cases hc
    cases x
    · exact .inl hrow
    · obtain rfl := rowRead_finish hrow
      exact .inl rfl
  | changed row₀ seen =>
    cases hc
    exact .inl hrow
  | reread row₀ seen =>
    cases hc
    rcases x with e | _ | current
    · cases hrow
    · cases hrow
    · dsimp only at hrow
      split at hrow
      · obtain rfl := rowRead_finish hrow
        obtain ⟨r, hr, he, hid⟩ := fetched hex
        exact .inr ⟨r, hid ▸ hr, he⟩
      · exact .inl hrow
  | countAhead row₀ =>
    cases hc
    rcases x with e | n
    · cases hrow
    · exact .inl hrow
  | answered r => cases hc

/-- What a task has read, it had read before the step, or it is stored there. -/
theorem read_origin {cfg : Config} {s t : State} {a : Act} (hm : Moved cfg s t a) {i : Nat}
    {τ : ServerTask} {row : JobFullRow} (hi : t.tasks[i]? = some τ) (hrow : rowRead τ = some row) :
    (∃ τ₀, s.tasks[i]? = some τ₀ ∧ rowRead τ₀ = some row) ∨
      ∃ r, row? s row.id = some r ∧ row = .of r := by
  cases hm.origin hi with
  | kept hi₀ _ => exact .inl ⟨τ, hi₀, hrow⟩
  | moved hi₀ hcall =>
    cases task_moved hcall with
    | get hp =>
      rcases read_call hp hrow with hold | hread
      · exact .inl ⟨_, hi₀, hold⟩
      · exact .inr hread
    | _ => cases hrow
  | arrived hlen hτ =>
    rename_i r
    subst hτ
    cases r <;> cases hrow
  | spawned _ _ _ hτ =>
    subst hτ
    cases hrow
  | dropped hτ =>
    subst hτ
    cases hrow

/-- What any handler has read agrees with what is stored now. -/
structure Consistent (s : State) : Prop where
  ids : IdsOk s
  stands : ∀ (i : Nat) τ row, s.tasks[i]? = some τ → rowRead τ = some row → Stands row s

/-- A row that has just been read. -/
theorem stands_read {s : State} (hok : IdsOk s) {row : JobFullRow} {r : JobRow}
    (hr : row? s row.id = some r) (he : row = .of r) : Stands row s := by
  refine ⟨hok.settled hr, fun r' hr' => ?_⟩
  obtain rfl := Option.some.inj (hr.symm.trans hr')
  exact he ▸ Agrees.refl row

theorem Consistent.step {cfg : Config} {s t : State} {a : Act} (h : Consistent s)
    (hm : Moved cfg s t a) : Consistent t where
  ids := h.ids.step hm
  stands i τ row hi hrow := by
    rcases read_origin hm hi hrow with ⟨τ₀, hi₀, hrow₀⟩ | ⟨r, hr, he⟩
    · exact (h.stands i τ₀ row hi₀ hrow₀).step hm
    · exact (stands_read h.ids hr he).step hm

theorem run_consistent {cfg : Config} {as : List Act} {s : State}
    (h : run cfg as State.init = some s) : Consistent s :=
  Runs.invariant (fun _ _ _ hu hs => hu.step (step_moved hs)) h
    ⟨IdsOk.init, fun i τ row hi => by simp [State.init] at hi⟩

/-- In every run: two answers of `get_job` about one job, the second to a request that came
after the first answer, with any steps of the server and any crashes between, tell the same
request; and once the status is done, failed or cancelled, every such answer is the same. -/
theorem answers_agree {cfg : Config} {as bs cs : List Act} {s m t : State} {i j : Nat}
    {row row' : JobFullRow} {pos pos' : Option Nat} (hs : run cfg as State.init = some s)
    (hm : run cfg bs s = some m) (ht : run cfg cs m = some t)
    (hi : answerAt s i = some (row, pos)) (hj : m.tasks[j]? = none)
    (hj' : answerAt t j = some (row', pos')) (hid : row'.id = row.id) :
    Agrees row row' := by
  have hmid : Consistent m ∧ Stands row m := by
    refine Runs.invariant (I := fun u => Consistent u ∧ Stands row u)
      (fun u a v hu hstep => ⟨hu.1.step (step_moved hstep), hu.2.step (step_moved hstep)⟩) hm ?_
    exact ⟨run_consistent hs, (run_consistent hs).stands i _ row (answerAt_eq_some hi) rfl⟩
  have hend : (Consistent t ∧ Stands row t) ∧ ∀ τ q, t.tasks[j]? = some τ →
      rowRead τ = some q → q.id = row.id → Agrees row q := by
    refine Runs.invariant (I := fun u => (Consistent u ∧ Stands row u) ∧ ∀ τ q,
      u.tasks[j]? = some τ → rowRead τ = some q → q.id = row.id → Agrees row q) ?_ ht
      ⟨hmid, fun τ q h => by rw [hj] at h; cases h⟩
    rintro u a v ⟨⟨hu, hrow⟩, hread⟩ hstep
    have hmoved := step_moved hstep
    refine ⟨⟨hu.step hmoved, hrow.step hmoved⟩, fun τ q hq hrq hqid => ?_⟩
    rcases read_origin hmoved hq hrq with ⟨τ₀, h₀, hrq₀⟩ | ⟨r, hr, rfl⟩
    · exact hread τ₀ q h₀ hrq₀ hqid
    · exact hrow.2 r (hqid ▸ hr)
  exact hend.2 _ row' (answerAt_eq_some hj') rfl hid

def askDone : List Act := doneRun ++ [.arrive (.get jobA none), .task 2 .ok]

/-- The job is deleted and restored, and the server starts again. -/
def hideAndRestart : List Act :=
  [.arrive (.hide .delete jobA), .task 3 .ok, .arrive (.hide .restore jobA), .task 4 .ok, .crash]

theorem answers_agree_done : ∃ s m t row, run sampleConfig askDone State.init = some s ∧
    run sampleConfig hideAndRestart s = some m ∧
    run sampleConfig [.arrive (.get jobA (some 25)), .task 0 .ok] m = some t ∧
    row.status = .done ∧ answerAt s 2 = some (row, none) ∧ answerAt t 0 = some (row, none) := by
  have hrun : ((run sampleConfig askDone State.init).bind fun s =>
      (run sampleConfig hideAndRestart s).bind fun m =>
      (run sampleConfig [.arrive (.get jobA (some 25)), .task 0 .ok] m).bind fun t =>
      (answerAt s 2).bind fun x => (answerAt t 0).map fun y =>
        (m.tasks.length, x.1.status, x.2, x.1.id, y.2, y.1.id)) =
      some (0, .done, none, jobA, none, jobA) := by
    simp only [askDone, doneRun, List.append_assoc, run_first]
    decide +kernel
  obtain ⟨s, hs, h⟩ := Option.bind_eq_some_iff.mp hrun
  obtain ⟨m, hm, h⟩ := Option.bind_eq_some_iff.mp h
  obtain ⟨t, ht, h⟩ := Option.bind_eq_some_iff.mp h
  obtain ⟨⟨row, pos⟩, hi, h⟩ := Option.bind_eq_some_iff.mp h
  obtain ⟨⟨row', pos'⟩, hj, h⟩ := Option.map_eq_some_iff.mp h
  simp only [Prod.mk.injEq] at h
  obtain ⟨hlen, hdone, rfl, hid, rfl, hid'⟩ := h
  have hnew : m.tasks[0]? = none := by simp [List.eq_nil_of_length_eq_zero hlen]
  have hagree := answers_agree hs hm ht hi hnew hj (hid'.trans hid.symm)
  obtain rfl := hagree.final (by rw [hdone]; rfl)
  exact ⟨s, m, t, _, hs, hm, ht, hdone, hi, hj⟩

end ZunServer.Answers
