import ZunServer.Rows

/-!
# The status lifecycle

Every statement on `jobs` moves a status along one arrow of the lifecycle, under
the guard that its `WHERE` clause carries, and leaves the columns of the request
alone. Both facts are about one statement on one row; a run adds up.
-/
namespace ZunServer.Lifecycle

open KeyedTable
open Schema Statements Database Comfy Calls Renditions Worker Handlers Purge Server Rows

/-- The arrows of the lifecycle, each with what the row was before. -/
inductive Arrow (r r' : JobRow) : Prop
  | stay (h : r'.status = r.status)
  | claim (h : r.status = .queued) (live : r.deletedAt = none) (h' : r'.status = .running)
  | done (h : r.status = .running) (h' : r'.status = .done)
  | failed (h : r.status = .running) (h' : r'.status = .failed)
  | requeued (h : r.status = .running) (h' : r'.status = .queued)
  | cancelled (h : r.status = .running ∨ r.status = .queued) (h' : r'.status = .cancelled)

/-- The columns that the `INSERT` fixes. -/
structure SameRequest (r r' : JobRow) : Prop where
  inputId : r'.inputId = r.inputId
  sourcePromptId : r'.sourcePromptId = r.sourcePromptId
  promptText : r'.promptText = r.promptText
  workflow : r'.workflow = r.workflow
  timeoutSeconds : r'.timeoutSeconds = r.timeoutSeconds
  seed : r'.seed = r.seed
  createdAt : r'.createdAt = r.createdAt

theorem SameRequest.refl (r : JobRow) : SameRequest r r := ⟨rfl, rfl, rfl, rfl, rfl, rfl, rfl⟩

theorem SameRequest.trans {a b c : JobRow} (h : SameRequest a b) (h' : SameRequest b c) :
    SameRequest a c where
  inputId := h'.inputId.trans h.inputId
  sourcePromptId := h'.sourcePromptId.trans h.sourcePromptId
  promptText := h'.promptText.trans h.promptText
  workflow := h'.workflow.trans h.workflow
  timeoutSeconds := h'.timeoutSeconds.trans h.timeoutSeconds
  seed := h'.seed.trans h.seed
  createdAt := h'.createdAt.trans h.createdAt

/-- A fact about what a statement makes of a row: prove it of the assignment
under the guard, and of the row left alone. -/
theorem row_cases {P : JobRow → Prop} (u : Update JobRow.id) (r : JobRow)
    (hset : u.cond r = true → P (u.set r)) (hsame : P r) : P (u.row r) := by
  unfold Update.row
  split
  · rename_i h
    exact hset h
  · exact hsame

theorem stmt_sameRequest (st : JobStmt) (r : JobRow) : SameRequest r (st.update.row r) := by
  apply row_cases
  · intro _
    cases st with
    | setDerivedPath col id rel => cases col <;> exact ⟨rfl, rfl, rfl, rfl, rfl, rfl, rfl⟩
    | _ => exact ⟨rfl, rfl, rfl, rfl, rfl, rfl, rfl⟩
  · exact SameRequest.refl r

theorem stmt_arrow (st : JobStmt) (r : JobRow) : Arrow r (st.update.row r) := by
  refine row_cases _ r (fun h => ?_) (.stay rfl)
  cases st with
  | resetRunningJobs => exact .requeued (by simpa [JobStmt.update, resetRunningJobs] using h) rfl
  | markRunning now id =>
    simp only [JobStmt.update, markRunning, decide_eq_true_eq] at h
    exact .claim h.2.1 h.2.2 rfl
  | updateComfyPromptId id c => exact .stay rfl
  | writeProgress id p => exact .stay rfl
  | markDone now id out w ht =>
    simp only [JobStmt.update, markDone, decide_eq_true_eq] at h
    exact .done h.2 rfl
  | requeue id =>
    simp only [JobStmt.update, requeue, decide_eq_true_eq] at h
    exact .requeued h.2 rfl
  | markFailed now id e =>
    simp only [JobStmt.update, markFailed, decide_eq_true_eq] at h
    exact .failed h.2 rfl
  | cancelRunning now id =>
    simp only [JobStmt.update, cancelRunning, cancelFrom, decide_eq_true_eq] at h
    exact .cancelled (.inl h.2) rfl
  | cancelQueued now id =>
    simp only [JobStmt.update, cancelQueued, cancelFrom, decide_eq_true_eq] at h
    exact .cancelled (.inr h.2) rfl
  | deleteJob now id => exact .stay rfl
  | restoreJob id => exact .stay rfl
  | setDerivedPath col id rel => cases col <;> exact .stay rfl

/-- No arrow leaves a terminal status. -/
theorem Arrow.terminal {r r' : JobRow} (h : Arrow r r') (hr : r.status.live = false) :
    r'.status = r.status := by
  cases h with
  | stay h => exact h
  | claim h live h' => rw [h] at hr; cases hr
  | done h h' => rw [h] at hr; cases hr
  | failed h h' => rw [h] at hr; cases hr
  | requeued h h' => rw [h] at hr; cases hr
  | cancelled h h' => rcases h with h | h <;> (rw [h] at hr; cases hr)

theorem stmt_terminal (st : JobStmt) {r : JobRow} (hr : r.status.live = false) :
    (st.update.row r).status = r.status := (stmt_arrow st r).terminal hr

/-- A row before and after a step. -/
theorem step_row {cfg : Config} {s t : State} {a : Act} (hok : IdsOk s) (h : Moved cfg s t a)
    {id : String} {r r' : JobRow} (hr : row? s id = some r) (hr' : row? t id = some r') :
    r' = r ∨ ∃ st, Issues s a st ∧ r' = st.update.row r := by
  cases row_step h (hok.settled hr) with
  | same he =>
    rw [he, hr] at hr'
    exact .inl (Option.some.inj hr').symm
  | update hst he =>
    rw [he, hr] at hr'
    exact .inr ⟨_, hst, (Option.some.inj hr').symm⟩
  | delete ha hi hj he =>
    rw [he] at hr'
    cases hr'

theorem step_arrow {cfg : Config} {s t : State} {a : Act} (hok : IdsOk s) (h : Moved cfg s t a)
    {id : String} {r r' : JobRow} (hr : row? s id = some r) (hr' : row? t id = some r') :
    Arrow r r' ∧ SameRequest r r' := by
  rcases step_row hok h hr hr' with rfl | ⟨st, -, rfl⟩
  · exact ⟨.stay rfl, SameRequest.refl r'⟩
  · exact ⟨stmt_arrow st r, stmt_sameRequest st r⟩

/-- What a delete or restore request may change: `deleted_at`, and the event count. -/
structure OnlyDeletedAt (s t : State) : Prop where
  worker : t.worker = s.worker
  world : t.world = { s.world with
    db := { s.world.db with jobs := t.world.db.jobs }, events := t.world.events }
  rows : ∀ id, ∃ d : JobRow → Option Int,
    row? t id = (row? s id).map fun r => { r with deletedAt := d r }

theorem hide_row (k : HideKind) (now : Int) (id : String) (r : JobRow) :
    (k.stmt now id).update.row r = { r with deletedAt := ((k.stmt now id).update.row r).deletedAt } := by
  apply row_cases (P := fun r' => r' = { r with deletedAt := r'.deletedAt })
  · intro _
    cases k <;> rfl
  · rfl

/-- What a call of `delete_job` or `restore_job` leads to. -/
inductive HideStep (w w' : World) (f : Fate) : HidePc → HidePc → Prop
  | taken {k : HideKind} {id : String} {now : Int} (hf : f = .ok)
      (hn : w.db.jobs.affected (k.stmt now id).update ≠ 0)
      (hw : w' = { w with db := { w.db with jobs := w.db.jobs.update (k.stmt now id).update } }) :
      HideStep w w' f (.update k id now) (.notify k id)
  | notFound {k : HideKind} {id : String} {now : Int} (hf : f = .ok)
      (hn : w.db.jobs.affected (k.stmt now id).update = 0)
      (hw : w' = { w with db := { w.db with jobs := w.db.jobs.update (k.stmt now id).update } }) :
      HideStep w w' f (.update k id now) (.answered k id (.error .notFound))
  | fails {k : HideKind} {id e : String} {now : Int} (hf : f = .sqlFails e) (hw : w' = w) :
      HideStep w w' f (.update k id now) (.answered k id (.error (.internal e)))
  | answered {k : HideKind} {id : String} (hw : w' = { w with events := w.events + 1 }) :
      HideStep w w' f (.notify k id) (.answered k id .noContent)

theorem hide_step {w w' : World} {f : Fate} {pc pc' : HidePc}
    (h : perform pc.next f w = some (w', pc')) : HideStep w w' f pc pc' := by
  obtain ⟨c, k, x, hc, hex, hk⟩ := perform_eq_some.mp h
  cases pc with
  | update kind id now =>
    cases hc
    rcases exec_job hex with ⟨hf, rfl, hw⟩ | ⟨e, hf, rfl, hw⟩
    · dsimp only at hk
      split at hk
      · rename_i hn
        cases hk
        exact .notFound hf hn hw
      · rename_i hn
        cases hk
        exact .taken hf hn hw
    · cases hk
      exact .fails hf hw
  | notify kind id =>
    cases hc
    cases hk
    cases f <;> simp only [exec, execRuntime, reduceCtorEq, Option.some.injEq,
      Prod.mk.injEq] at hex
    exact .answered hex.1.symm
  | answered kind id r => cases hc

theorem hide_only {cfg : Config} {s t : State} {i : Nat} {f : Fate} {pc : HidePc}
    (hi : s.tasks[i]? = some (.hide pc)) (h : Moved cfg s t (.task i f)) : OnlyDeletedAt s t := by
  cases h with
  | task hi' h worker tasks =>
    obtain rfl := Option.some.inj (hi.symm.trans hi')
    have same : t.world.db.jobs = s.world.db.jobs → ∀ id, ∃ d : JobRow → Option Int,
        row? t id = (row? s id).map fun r => { r with deletedAt := d r } := by
      intro he id
      refine ⟨JobRow.deletedAt, ?_⟩
      unfold row?
      rw [he]
      simp
    cases task_moved h with
    | hide hp =>
      cases hide_step hp with
      | taken hf hn hw | notFound hf hn hw =>
        rename_i k id now
        refine ⟨worker, by rw [hw], fun id' =>
          ⟨fun r => ((k.stmt now id).update.row r).deletedAt, ?_⟩⟩
        unfold row?
        rw [hw, Table.find?_update]
        congr 1
        funext r
        exact hide_row k now id r
      | fails _ hw => exact ⟨worker, by rw [hw], same (by rw [hw])⟩
      | answered hw => exact ⟨worker, by rw [hw], same (by rw [hw])⟩

/-- What a run keeps of a row: the request, and a status that is terminal. -/
structure Keeps (r r' : JobRow) : Prop where
  request : SameRequest r r'
  terminal : r.status.live = false → r'.status = r.status

theorem run_keeps {cfg : Config} {s t : State} {as : List Act} (hok : IdsOk s)
    (h : run cfg as s = some t) {id : String} {r : JobRow} (hr : row? s id = some r) :
    OnRow t id (Keeps r) := by
  have hinv : IdsOk t ∧ Settled t id ∧ OnRow t id (Keeps r) := by
    refine Runs.invariant (I := fun u => IdsOk u ∧ Settled u id ∧ OnRow u id (Keeps r)) ?_ h
      ⟨hok, hok.settled hr, fun r' hr' => ?_⟩
    · rintro u a v ⟨hu, hset, hrow⟩ hs
      have hm := step_moved hs
      refine ⟨hu.step hm, hset.step hm, hrow.step hm hset fun st q _ _ hq => ?_⟩
      refine ⟨hq.request.trans (stmt_sameRequest st q), fun hterm => ?_⟩
      have hq' := hq.terminal hterm
      rw [stmt_terminal st (by rw [hq', hterm]), hq']
    · obtain rfl := Option.some.inj (hr.symm.trans hr')
      exact ⟨SameRequest.refl r, fun _ => rfl⟩
  exact hinv.2.2

/-- In every state of every run: a step takes the status of a row along an arrow
and leaves its request alone, a delete or a restore changes `deleted_at` only,
and however the run goes on, a row that is done, failed or cancelled stays so. -/
theorem status_lifecycle {cfg : Config} {s : State} (hs : Reachable cfg s) :
    (∀ a t id r r', step cfg s a = some t → row? s id = some r → row? t id = some r' →
      Arrow r r' ∧ SameRequest r r') ∧
    (∀ i f t pc, s.tasks[i]? = some (.hide pc) → step cfg s (.task i f) = some t →
      OnlyDeletedAt s t) ∧
    (∀ as t id r, run cfg as s = some t → row? s id = some r → OnRow t id (Keeps r)) := by
  have hok := reachable_ids hs
  refine ⟨fun a t id r r' h hr hr' => ?_, fun i f t pc hi h => ?_, fun as t id r h hr => ?_⟩
  · exact step_arrow hok (step_moved h) hr hr'
  · exact hide_only hi (step_moved h)
  · exact run_keeps hok h hr

theorem status_lifecycle_done : ∃ s r, run sampleConfig doneRun State.init = some s ∧
    row? s jobA = some r ∧ r.status = .done ∧
    ∀ as t, run sampleConfig as s = some t → OnRow t jobA (Keeps r) := by
  have hrun : ((run sampleConfig doneRun State.init).bind (row? · jobA)).map JobRow.status =
      some .done := by
    simp only [doneRun, List.append_assoc, run_first]
    decide +kernel
  obtain ⟨r, hr, hdone⟩ := Option.map_eq_some_iff.mp hrun
  obtain ⟨s, hs, hr⟩ := Option.bind_eq_some_iff.mp hr
  exact ⟨s, r, hs, hr, hdone, fun as t h => (status_lifecycle ⟨_, hs⟩).2.2 as t jobA r h hr⟩

end ZunServer.Lifecycle
