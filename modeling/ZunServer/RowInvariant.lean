import ZunServer.Lifecycle
import ZunServer.RenditionSteps

/-!
# What every row of `jobs` satisfies

Three statements are not gated on the status they need: the prompt id, the
renditions and, in its value, the progress write. That they never break a row
is an invariant of who may be about to run them.
-/
namespace ZunServer.RowInvariant

open KeyedTable
open Schema Statements Database Comfy Calls Renditions Worker Handlers Purge Server Rows Lifecycle
open WorkerSteps RenditionSteps

structure RowOk (r : JobRow) : Prop where
  queued : r.status = .queued → r.progress = 0 ∧ r.startedAt = none ∧ r.comfyPromptId = none ∧
    r.completedAt = none ∧ r.outputPath = none ∧ r.errorMessage = none
  running : r.status = .running → r.startedAt ≠ none ∧ r.completedAt = none ∧
    r.outputPath = none ∧ r.errorMessage = none
  completed : r.completedAt ≠ none ↔ r.status = .done ∨ r.status = .failed ∨ r.status = .cancelled
  output : r.outputPath ≠ none ↔ r.status = .done
  finished : r.status = .done → r.progress = 1
  error : r.errorMessage ≠ none ↔ r.status = .failed
  rendition : r.thumbPath ≠ none ∨ r.previewPath ≠ none → r.status = .done
  progress : 0 ≤ r.progress ∧ r.progress ≤ 1

/-- What a statement relies on but does not check. -/
def Relies (r : JobRow) : JobStmt → Prop
  | .updateComfyPromptId id _ => r.id = id → r.status ≠ .queued
  | .setDerivedPath _ id _ => r.id = id → r.status = .done
  | .writeProgress _ p => 0 ≤ p ∧ p ≤ 1
  | _ => True

theorem newJob_ok (id : String) (inputId : Int) (src : Option Int) (text workflow : String)
    (timeout seed now : Int) : RowOk (newJob id inputId src text workflow timeout seed now) := by
  constructor <;> simp [newJob]

theorem RowOk.noRendition {r : JobRow} (h : RowOk r) (hs : r.status ≠ .done) :
    r.thumbPath = none ∧ r.previewPath = none := by
  constructor
  · by_contra hne
    exact hs (h.rendition (.inl hne))
  · by_contra hne
    exact hs (h.rendition (.inr hne))

theorem rowOk_queued {r : JobRow} (hs : r.status = .queued) :
    RowOk r ↔ r.progress = 0 ∧ r.startedAt = none ∧ r.comfyPromptId = none ∧
      r.completedAt = none ∧ r.outputPath = none ∧ r.errorMessage = none ∧
      r.thumbPath = none ∧ r.previewPath = none := by
  constructor
  · intro h
    obtain ⟨hprog, hstart, hcomfy, hcomp, hout, herr⟩ := h.queued hs
    exact ⟨hprog, hstart, hcomfy, hcomp, hout, herr, h.noRendition (by simp [hs])⟩
  · rintro ⟨hprog, hstart, hcomfy, hcomp, hout, herr, hthumb, hprev⟩
    constructor <;> simp [hs, hprog, hstart, hcomfy, hcomp, hout, herr, hthumb, hprev]

theorem rowOk_running {r : JobRow} (hs : r.status = .running) :
    RowOk r ↔ r.startedAt ≠ none ∧ r.completedAt = none ∧ r.outputPath = none ∧
      r.errorMessage = none ∧ (r.thumbPath = none ∧ r.previewPath = none) ∧
      0 ≤ r.progress ∧ r.progress ≤ 1 := by
  constructor
  · intro h
    obtain ⟨hstart, hcomp, hout, herr⟩ := h.running hs
    exact ⟨hstart, hcomp, hout, herr, h.noRendition (by simp [hs]), h.progress⟩
  · rintro ⟨hstart, hcomp, hout, herr, ⟨hthumb, hprev⟩, hprog⟩
    constructor <;> simp [hs, hstart, hcomp, hout, herr, hthumb, hprev, hprog]

theorem rowOk_done {r : JobRow} (hs : r.status = .done) :
    RowOk r ↔ r.progress = 1 ∧ r.completedAt ≠ none ∧ r.outputPath ≠ none ∧
      r.errorMessage = none := by
  constructor
  · intro h
    refine ⟨h.finished hs, h.completed.mpr (.inl hs), h.output.mpr hs, ?_⟩
    by_contra hne
    exact Status.noConfusion (hs.symm.trans (h.error.mp hne))
  · rintro ⟨hprog, hcomp, hout, herr⟩
    constructor <;> simp [hs, hprog, hcomp, hout, herr]

theorem rowOk_failed {r : JobRow} (hs : r.status = .failed) :
    RowOk r ↔ r.completedAt ≠ none ∧ r.outputPath = none ∧ r.errorMessage ≠ none ∧
      (r.thumbPath = none ∧ r.previewPath = none) ∧ 0 ≤ r.progress ∧ r.progress ≤ 1 := by
  constructor
  · intro h
    refine ⟨h.completed.mpr (.inr (.inl hs)), ?_, h.error.mpr hs,
      h.noRendition (by simp [hs]), h.progress⟩
    by_contra hne
    exact Status.noConfusion (hs.symm.trans (h.output.mp hne))
  · rintro ⟨hcomp, hout, herr, ⟨hthumb, hprev⟩, hprog⟩
    constructor <;> simp [hs, hcomp, hout, herr, hthumb, hprev, hprog]

theorem rowOk_cancelled {r : JobRow} (hs : r.status = .cancelled) :
    RowOk r ↔ r.completedAt ≠ none ∧ r.outputPath = none ∧ r.errorMessage = none ∧
      (r.thumbPath = none ∧ r.previewPath = none) ∧ 0 ≤ r.progress ∧ r.progress ≤ 1 := by
  constructor
  · intro h
    refine ⟨h.completed.mpr (.inr (.inr hs)), ?_, ?_, h.noRendition (by simp [hs]), h.progress⟩
    · by_contra hne
      exact Status.noConfusion (hs.symm.trans (h.output.mp hne))
    · by_contra hne
      exact Status.noConfusion (hs.symm.trans (h.error.mp hne))
  · rintro ⟨hcomp, hout, herr, ⟨hthumb, hprev⟩, hprog⟩
    constructor <;> simp [hs, hcomp, hout, herr, hthumb, hprev, hprog]

theorem stmt_rowOk (st : JobStmt) {r : JobRow} (h : RowOk r) (hr : Relies r st) :
    RowOk (st.update.row r) := by
  refine row_cases _ r (fun hc => ?_) h
  cases st with
  | resetRunningJobs =>
    have hs : r.status = .running := of_decide_eq_true hc
    obtain ⟨-, hcomp, hout, -, ⟨hthumb, hprev⟩, -⟩ := (rowOk_running hs).mp h
    exact (rowOk_queued rfl).mpr ⟨rfl, rfl, rfl, hcomp, hout, rfl, hthumb, hprev⟩
  | markRunning now id =>
    have hs : r.id = id ∧ r.status = .queued ∧ r.deletedAt = none := of_decide_eq_true hc
    obtain ⟨-, -, -, hcomp, hout, herr, hrend⟩ := (rowOk_queued hs.2.1).mp h
    exact (rowOk_running rfl).mpr
      ⟨Option.some_ne_none now, hcomp, hout, herr, hrend, le_rfl, zero_le_one⟩
  | updateComfyPromptId id c =>
    have hne : r.status ≠ .queued := hr (of_decide_eq_true hc)
    exact ⟨fun hs => absurd hs hne, h.running, h.completed, h.output, h.finished, h.error,
      h.rendition, h.progress⟩
  | writeProgress id p =>
    have hs : r.id = id ∧ r.status = .running := of_decide_eq_true hc
    obtain ⟨hstart, hcomp, hout, herr, hrend, -⟩ := (rowOk_running hs.2).mp h
    refine (rowOk_running ?_).mpr ⟨hstart, hcomp, hout, herr, hrend, hr⟩
    exact hs.2
  | markDone now id out w ht =>
    have hs : r.id = id ∧ r.status = .running := of_decide_eq_true hc
    obtain ⟨-, -, -, herr, -⟩ := (rowOk_running hs.2).mp h
    exact (rowOk_done rfl).mpr ⟨rfl, Option.some_ne_none now, Option.some_ne_none out, herr⟩
  | requeue id =>
    have hs : r.id = id ∧ r.status = .running := of_decide_eq_true hc
    obtain ⟨-, hcomp, hout, herr, ⟨hthumb, hprev⟩, -⟩ := (rowOk_running hs.2).mp h
    exact (rowOk_queued rfl).mpr ⟨rfl, rfl, rfl, hcomp, hout, herr, hthumb, hprev⟩
  | markFailed now id e =>
    have hs : r.id = id ∧ r.status = .running := of_decide_eq_true hc
    obtain ⟨-, -, hout, -, hrest⟩ := (rowOk_running hs.2).mp h
    exact (rowOk_failed rfl).mpr
      ⟨Option.some_ne_none now, hout, Option.some_ne_none e, hrest⟩
  | cancelRunning now id =>
    have hs : r.id = id ∧ r.status = .running := of_decide_eq_true hc
    obtain ⟨-, -, hout, herr, hrest⟩ := (rowOk_running hs.2).mp h
    exact (rowOk_cancelled rfl).mpr ⟨Option.some_ne_none now, hout, herr, hrest⟩
  | cancelQueued now id =>
    have hs : r.id = id ∧ r.status = .queued := of_decide_eq_true hc
    obtain ⟨-, -, -, -, hout, herr, hrend⟩ := (rowOk_queued hs.2).mp h
    exact (rowOk_cancelled rfl).mpr
      ⟨Option.some_ne_none now, hout, herr, hrend, h.progress⟩
  | deleteJob now id | restoreJob id =>
    exact ⟨h.queued, h.running, h.completed, h.output, h.finished, h.error, h.rendition,
      h.progress⟩
  | setDerivedPath col id rel =>
    have hs : r.status = .done := hr (of_decide_eq_true hc)
    cases col <;> refine (rowOk_done ?_).mpr ((rowOk_done hs).mp h) <;> exact hs

/-- The job whose row a rendition task has seen done. -/
def renders : ServerTask → Option String
  | .derived pc => (attempting pc).map Prod.snd
  | .generate pc => generating pc
  | _ => none

structure Inv (s : State) : Prop where
  ids : IdsOk s
  rows : ∀ r ∈ s.world.db.jobs.rows, RowOk r
  claim : ∀ job, s.worker = .claim job → Settled s job.id
  process : ∀ job stage, s.worker = .process job stage → claimed stage = true →
    Settled s job.id ∧ OnRow s job.id fun r => r.status ≠ .queued
  tasks : ∀ (i : Nat) τ id, s.tasks[i]? = some τ → renders τ = some id →
    Settled s id ∧ OnRow s id fun r => r.status = .done
  writer : ∀ wr, s.world.writer = some wr → ∀ p ∈ wr.channel, 0 ≤ p ∧ p ≤ 1

theorem row_mem {s : State} {id : String} {r : JobRow} (h : row? s id = some r) :
    r ∈ s.world.db.jobs.rows ∧ r.id = id := Table.find?_eq_some.mp h

theorem mem_row {s : State} {r : JobRow} (h : r ∈ s.world.db.jobs.rows) : row? s r.id = some r :=
  Table.find?_of_mem h

theorem Inv.relies {s : State} (h : Inv s) {a : Act} {st : JobStmt} (hst : Issues s a st)
    {r : JobRow} (hr : r ∈ s.world.db.jobs.rows) : Relies r st := by
  have hrow := mem_row hr
  cases hst with
  | storePromptId hw => exact fun he => (h.process _ _ hw rfl).2 r (he ▸ hrow)
  | progress hw hp => exact h.writer _ hw _ hp
  | persistJpegFirst hi => exact fun he => (h.tasks _ _ _ hi rfl).2 r (he ▸ hrow)
  | persistJpeg hi => exact fun he => (h.tasks _ _ _ hi rfl).2 r (he ▸ hrow)
  | generated hi => exact fun he => (h.tasks _ _ _ hi rfl).2 r (he ▸ hrow)
  | hide hi =>
    rename_i i k id now
    cases k <;> trivial
  | _ => trivial

theorem Inv.rows_step {cfg : Config} {s t : State} {a : Act} (h : Inv s) (hm : Moved cfg s t a) :
    ∀ r ∈ t.world.db.jobs.rows, RowOk r := by
  apply rows_moved hm h.rows
  · intro st hst r hr
    exact stmt_rowOk st (h.rows r hr) (h.relies hst hr)
  · intro i p inputId n id _
    exact newJob_ok _ _ _ _ _ _ _ _

/-- Only the worker's own reset and requeue lead back to `queued`. -/
theorem not_queued_stmt {s : State} {a : Act} {st : JobStmt} (hst : Issues s a st)
    (hstart : s.worker ≠ .start) (hreq : ∀ job, s.worker ≠ .process job .requeue) {r : JobRow}
    (hr : r.status ≠ .queued) : (st.update.row r).status ≠ .queued := by
  refine row_cases (P := fun r' => r'.status ≠ .queued) _ r (fun hc => ?_) hr
  cases hst with
  | reset hw => exact absurd hw hstart
  | requeue hw => exact absurd hw (hreq _)
  | hide hi =>
    rename_i i k id now
    cases k <;> exact hr
  | persistJpegFirst hi | persistJpeg hi | generated hi =>
    simp only [JobStmt.update, setDerivedPath]
    split <;> exact hr
  | storePromptId hw | progress hw hp => exact hr
  | _ => exact Status.noConfusion

theorem done_stmt (st : JobStmt) {r : JobRow} (hr : r.status = .done) :
    (st.update.row r).status = .done := (stmt_terminal st (by rw [hr]; rfl)).trans hr

theorem claim_step {cfg : Config} {s t : State} {a : Act} (h : Inv s) (hm : Moved cfg s t a)
    {job : QueuedJob} (ht : t.worker = .claim job) : Settled t job.id := by
  rcases worker_cases hm with ⟨f, l, -, hw, -⟩ | ⟨hw, -⟩ | ⟨-, rfl⟩
  · rw [ht] at hw
    generalize hpc : s.worker = pc at hw
    cases hw with
    | fetched hr hq he => exact (h.ids.rows _ hr).step hm
    | claimFails hf he => cases he
    | stage hs =>
      cases hs with
      | fails _ he => cases he
    | free _ h' => cases h'
  · exact (h.claim job (hw ▸ ht)).step hm
  · cases ht

theorem claim_won {s t : State} {n : Int} {id : String}
    (hn : s.world.db.jobs.affected (JobStmt.markRunning n id).update = 1)
    (hran : Ran s.world t.world .ok (.markRunning n id)) :
    OnRow t id fun r => r.status = .running := by
  obtain ⟨r, hr, hcond⟩ := (JobStmt.affected_eq_one rfl).mp hn
  intro r' hr'
  unfold row? at hr'
  rw [hran.ok, Table.find?_update, hr] at hr'
  obtain rfl := Option.some.inj hr'
  rw [Update.row_of_cond _ hcond]
  rfl

theorem process_step {cfg : Config} {s t : State} {a : Act} (h : Inv s) (hm : Moved cfg s t a)
    {job : QueuedJob} {stage : Stage} (ht : t.worker = .process job stage)
    (hc : claimed stage = true) : Settled t job.id ∧ OnRow t job.id fun r => r.status ≠ .queued := by
  have stays : ∀ stage', s.worker = .process job stage' → claimed stage' = true →
      Settled t job.id ∧ OnRow t job.id fun r => r.status ≠ .queued := by
    intro stage' hs hc'
    obtain ⟨hset, hrow⟩ := h.process job stage' hs hc'
    refine ⟨hset.step hm, hrow.step hm hset fun st r hst _ hr => ?_⟩
    refine not_queued_stmt hst (by simp [hs]) (fun job' he => ?_) hr
    rw [hs] at he
    cases he
    cases hc'
  rcases stage_origin hm ht hc with ⟨hn, hran, hpc⟩ | ⟨f, stage', -, hpc, hg⟩ | ⟨hpc, -⟩
  · exact ⟨(h.claim job hpc).step hm, (claim_won hn hran).mono fun r hr => by simp [hr]⟩
  · exact stays stage' hpc hg.claimed.1
  · exact stays stage hpc hc

theorem renders_trying {col : Column} {id id' : String} {pc : DerivedPc} (h : Trying col id pc)
    (hid : renders (.derived pc) = some id') : id' = id := by
  obtain ⟨x, hx, rfl⟩ := Option.map_eq_some_iff.mp hid
  rw [h.attempting hx]

/-- A rendition task goes on with the job it has, or has just read its row. -/
theorem renders_perform {cfg : Config} {now : Int} {τ₀ τ : ServerTask} {f : Fate} {w w' : World}
    (h : perform (τ₀.next cfg now) f w = some (w', τ)) {id : String} (hτ : renders τ = some id) :
    renders τ₀ = some id ∨ ∃ c r, τ₀ = .derived (.selectRow c) ∧ c.jobId = id ∧
      w.db.jobs.find? id = some r ∧ r.status = .done := by
  cases task_moved h with
  | derived hp =>
    cases derived_step hp with
    | selected hr hdone htry =>
      obtain rfl := renders_trying htry hτ
      exact .inr ⟨_, _, rfl, rfl, hr, hdone⟩
    | goes hpc htry =>
      obtain rfl := renders_trying htry hτ
      exact .inl (congrArg (Option.map Prod.snd) hpc)
    | ended r => cases hτ
    | renderedFirst hfile | rendered hfile => exact .inl hτ
  | generate hp =>
    cases generate_step hp with
    | goes hpc hrest =>
      obtain rfl := hrest.generating hτ
      exact .inl hpc
    | rendered hfile => exact .inl hτ
  | submit _ | cancel _ | hide _ | purge _ | get _ | prompt _ => cases hτ

/-- The rendition task that a completion leaves behind. -/
theorem spawned_done {w w' : World} {f : Fate} {pc pc' : WorkerPc} {l : List GeneratePc}
    (h : WorkerStep w w' f pc pc' l) {g : GeneratePc} (hg : g ∈ l) :
    ∃ job out wd ht r, pc = .process job (.markDone out wd ht) ∧ g = GeneratePc.start job.id out ∧
      w.db.jobs.find? job.id = some r ∧
      w'.db.jobs.find? job.id = some ((markDone w.now job.id out wd ht).set r) := by
  cases h with
  | stage hs =>
    cases hs with
    | done hn hran =>
      obtain rfl := List.mem_singleton.mp hg
      obtain ⟨r, hr, hcond⟩ := (JobStmt.affected_eq_one rfl).mp hn
      refine ⟨_, _, _, _, r, rfl, rfl, hr, ?_⟩
      rw [hran.ok, Table.find?_update, hr, Option.map_some, Update.row_of_cond _ hcond]
      rfl
    | _ => cases hg
  | _ => cases hg

theorem tasks_step {cfg : Config} {s t : State} {a : Act} (h : Inv s) (hm : Moved cfg s t a)
    {i : Nat} {τ : ServerTask} {id : String} (hi : t.tasks[i]? = some τ)
    (hτ : renders τ = some id) : Settled t id ∧ OnRow t id fun r => r.status = .done := by
  have stays : Settled s id → (OnRow s id fun r => r.status = .done) →
      Settled t id ∧ OnRow t id fun r => r.status = .done := fun hset hrow =>
    ⟨hset.step hm, hrow.step hm hset fun st r _ _ hr => done_stmt st hr⟩
  cases hm.origin hi with
  | kept hi ha => exact stays (h.tasks i τ id hi hτ).1 (h.tasks i τ id hi hτ).2
  | moved hi₀ hp =>
    rcases renders_perform hp hτ with hτ₀ | ⟨c, r, -, -, hr, hdone⟩
    · exact stays (h.tasks i _ id hi₀ hτ₀).1 (h.tasks i _ id hi₀ hτ₀).2
    · refine stays (h.ids.settled hr) fun r' hr' => ?_
      obtain rfl := Option.some.inj (hr.symm.trans hr')
      exact hdone
  | arrived hi hτ' =>
    rename_i r
    subst hτ'
    cases r <;> cases hτ
  | spawned hi hp hg hτ' =>
    subst hτ'
    obtain ⟨job, out, wd, ht, r, hpc, rfl, hr, hr'⟩ := spawned_done (worker_step hp) hg
    have hid : id = job.id := (rendering_go _ _ _).generating hτ
    subst hid
    refine ⟨(h.ids.settled hr).step hm, fun r' hr'' => ?_⟩
    obtain rfl := Option.some.inj (hr'.symm.trans hr'')
    rfl
  | dropped hτ' =>
    subst hτ'
    cases hτ

theorem writer_step {cfg : Config} {s t : State} {a : Act} (h : Inv s) (hm : Moved cfg s t a) :
    ∀ wr, t.world.writer = some wr → ∀ p ∈ wr.channel, 0 ≤ p ∧ p ≤ 1 := by
  have called : ∀ {c : Call} {f : Fate} {x : c.Answer}, exec s.world c f = some (t.world, x) →
      ∀ wr, t.world.writer = some wr → ∀ p ∈ wr.channel, 0 ≤ p ∧ p ≤ 1 := by
    intro c f x hex wr hwr p hp
    rcases (exec_change hex).writer with he | ⟨q, -, hq⟩
    · exact h.writer wr (he ▸ hwr) p hp
    · rcases hq with he | ⟨id, -, he⟩ | ⟨pid, wr₀, p₀, -, hwr₀, h₀, h₁, he⟩ | ⟨-, he⟩
      · exact h.writer wr (he ▸ hwr) p hp
      · rw [he] at hwr
        cases hwr
        cases hp
      · rw [he] at hwr
        cases hwr
        rcases List.mem_append.mp hp with hp | hp
        · exact h.writer wr₀ hwr₀ p hp
        · obtain rfl := List.mem_singleton.mp hp
          exact ⟨h₀, h₁⟩
      · rw [he] at hwr
        cases hwr
  cases hm with
  | worker hp tasks =>
    obtain ⟨c, k, x, -, hex, -⟩ := perform_eq_some.mp hp
    exact called hex
  | task hi hp worker tasks =>
    obtain ⟨c, k, x, -, hex, -⟩ := perform_eq_some.mp hp
    exact called hex
  | writer hw worker tasks =>
    obtain ⟨wr₀, wr₁, hwr₀, he, -, hsub, -⟩ := writerStep_change hw
    intro wr hwr p hp
    rw [he] at hwr
    cases hwr
    exact h.writer wr₀ hwr₀ p (hsub p hp)
  | arrive world worker tasks => rw [world]; exact h.writer
  | drop hi live world worker tasks => rw [world]; exact h.writer
  | env he worker tasks =>
    rw [(Env.apply_change he).writer]
    exact h.writer
  | crash he =>
    intro wr hwr
    rw [he] at hwr
    cases hwr

theorem Inv.init : Inv State.init where
  ids := IdsOk.init
  rows r h := by simp [State.init, World.empty, Db.empty, Table.empty] at h
  claim job h := by cases h
  process job stage h := by cases h
  tasks i τ id h := by simp [State.init] at h
  writer wr h := by simp [State.init, World.empty] at h

theorem Inv.step {cfg : Config} {s t : State} {a : Act} (h : Inv s) (hm : Moved cfg s t a) :
    Inv t where
  ids := h.ids.step hm
  rows := h.rows_step hm
  claim _ ht := claim_step h hm ht
  process _ _ ht hc := process_step h hm ht hc
  tasks _ _ _ hi hτ := tasks_step h hm hi hτ
  writer := writer_step h hm

theorem reachable_inv {cfg : Config} {s : State} (h : Reachable cfg s) : Inv s :=
  Runs.Reachable.invariant Inv.init (fun _ _ _ hi hs => hi.step (step_moved hs)) h

/-- Every row of every reachable state is well formed. -/
theorem rows_wellFormed {cfg : Config} {s : State} (hs : Reachable cfg s) :
    ∀ r ∈ s.world.db.jobs.rows, RowOk r := (reachable_inv hs).rows

theorem rows_wellFormed_done : ∃ s r, run sampleConfig doneRun State.init = some s ∧
    r ∈ s.world.db.jobs.rows ∧ r.status = .done ∧ RowOk r := by
  have hrun : ((run sampleConfig doneRun State.init).bind (row? · jobA)).map JobRow.status =
      some .done := by
    simp only [doneRun, List.append_assoc, run_first]
    decide +kernel
  obtain ⟨r, hr, hdone⟩ := Option.map_eq_some_iff.mp hrun
  obtain ⟨s, hs, hr⟩ := Option.bind_eq_some_iff.mp hr
  have hmem := (row_mem hr).1
  exact ⟨s, r, hs, hmem, hdone, rows_wellFormed ⟨_, hs⟩ r hmem⟩

end ZunServer.RowInvariant
