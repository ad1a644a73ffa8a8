import ZunServer.Draining
import ZunServer.Listing
import ZunServer.SingleRunner
import ZunServer.WakeUps

/-!
# The drain loop of the worker

The inner loop of `run` fetches the oldest runnable job until there is none.
Every way through `process_job` takes the row off the queue, whether the claim
is lost, the job ends or a cancel or a delete gets there first; the requeue,
which puts it back, ends the loop.
-/
namespace ZunServer.Drain

open KeyedTable
open Schema Statements Database Comfy Calls Renditions Worker Handlers Server Rows Lifecycle
open WorkerSteps RowInvariant SingleRunner Retention WakeUps Listing

/-- Between the entry of the inner loop and its `break`. -/
def draining : WorkerPc → Bool
  | .inner | .fetch | .claim _ | .process _ _ | .notifyJob | .notifyRequeued | .backoff
  | .fetchBackoff => true
  | _ => false

/-- The loop is still to fetch, or at the job of a fetch after which it may fetch again. -/
def searching : WorkerPc → Bool
  | .inner | .fetch | .claim _ | .process _ _ | .notifyJob => true
  | _ => false

/-- The job that the loop has fetched. -/
def inHand : WorkerPc → Option String
  | .claim job | .process job _ => some job.id
  | _ => none

/-- A submit inserts its job. -/
def inserts (s : State) : Act → Bool
  | .task i _ => match s.tasks[i]? with
    | some (.submit (.insertJob _ _ _ _)) => true
    | _ => false
  | _ => false

/-- The worker drains the queue, no statement fails, and no job is submitted or restored. -/
def Closed (s : State) (a : Act) : Prop :=
  draining s.worker = true ∧ sqlSucceeds a = true ∧ inserts s a = false ∧ restores s a = none

instance (s : State) (a : Act) : Decidable (Closed s a) :=
  inferInstanceAs (Decidable (_ ∧ _ ∧ _ ∧ restores s a = none))

/-- The row of the job with which a step of the loop goes into `process_job`. -/
def attempt (cfg : Config) (x : State × Act) : Option JobRow :=
  (step cfg x.1 x.2).bind fun t => match x.1.worker, t.worker with
    | .fetch, .claim job => row? x.1 job.id
    | _, _ => none

/-- The jobs that a run attempts, in the order of the attempts. -/
def attempts (cfg : Config) (as : List Act) (s : State) : List JobRow :=
  (Runs.visits (step cfg) as s).filterMap (attempt cfg)

/-- A call of the worker that is not the receipt of a frame from ComfyUI. -/
def ownCall : Act → Bool
  | .worker (.frame _) => false
  | .worker _ => true
  | _ => false

theorem olderThan_iff (a b : JobRow) : olderThan a b = true ↔ rowKey a < rowKey b := by
  unfold olderThan rowKey
  rw [Prod.Lex.toLex_lt_toLex, decide_eq_true_iff]

/-- What a call inside the loop leads to, as far as the queue is concerned. -/
inductive LoopStep (w w' : World) (f : Fate) : WorkerPc → WorkerPc → Prop
  | looks : LoopStep w w' f .inner .fetch
  | stops : LoopStep w w' f .inner .stopped
  | empty (h : ∀ r ∈ w'.db.jobs.rows, runnable r = false) : LoopStep w w' f .fetch .idle
  | fetched {row : JobRow} (h : first? olderThan (w.db.jobs.rows.filter runnable) = some row)
      (hw : w' = w) : LoopStep w w' f .fetch (.claim (.of row))
  | won {job : QueuedJob} (h : ∀ r ∈ w'.db.jobs.rows, r.id = job.id → runnable r = false) :
      LoopStep w w' f (.claim job) (.process job .notifyRunning)
  | lost {job : QueuedJob} (h : ∀ r ∈ w'.db.jobs.rows, r.id = job.id → runnable r = false) :
      LoopStep w w' f (.claim job) .notifyJob
  | goes {job : QueuedJob} {stage stage' : Stage} (h : order stage < order stage') :
      LoopStep w w' f (.process job stage) (.process job stage')
  | waits {job : QueuedJob} {stage : Stage} (h : ∃ fr, f = .frame fr) :
      LoopStep w w' f (.process job stage) (.process job stage)
  | dies {job : QueuedJob} {stage : Stage} : LoopStep w w' f (.process job stage) (.panicked job)
  | ended {job : QueuedJob} {stage : Stage} : LoopStep w w' f (.process job stage) .notifyJob
  | requeued {job : QueuedJob} : LoopStep w w' f (.process job .requeue) .notifyRequeued
  | told : LoopStep w w' f .notifyJob .inner
  | toldRequeued : LoopStep w w' f .notifyRequeued .backoff
  | sleeps {pc : WorkerPc} (h : pc = .backoff ∨ pc = .fetchBackoff) : LoopStep w w' f pc .idle

/-- The wait goes on with a frame; the timeout ends it. -/
theorem wait_frame {w w' : World} {pid : String} {f : Fate}
    (h : execFrame w pid f = some (w', none)) : ∃ fr, f = .frame fr := by
  cases f with
  | frame fr => exact ⟨fr, rfl⟩
  | elapsed => cases h
  | _ => cases h

/-- What can fail comes before the error arm. -/
theorem leaves_order {f : Fate} {stage : Stage} (h : Leaves f stage) :
    order stage < order .requeue := by
  cases h <;> simp only [order] <;> omega

theorem stage_loop {cfg : Config} {job : QueuedJob} {stage : Stage} {f : Fate} {w w' : World}
    {pc : WorkerPc} {l : List GeneratePc}
    (h : perform (stage.next cfg w.now job) f w = some (w', pc, l)) :
    LoopStep w w' f (.process job stage) pc := by
  cases stage_step h with
  | goes hgoes =>
    cases hgoes with
    | waits =>
      obtain ⟨c, k, x, hc, hex, hk⟩ := perform_eq_some.mp h
      cases hc
      cases x with
      | none => exact .waits (wait_frame hex)
      | some r => cases hk
    | _ => exact .goes (by simp only [order]; omega)
  | fails hleaves harm =>
    have hlt := leaves_order hleaves
    cases harm with
    | requeue => exact .goes hlt
    | markFailed e =>
      apply LoopStep.goes
      simp only [order] at hlt ⊢
      omega
    | panicked => exact .dies
  | done _ _ | refused _ _ | failed _ => exact .ended
  | requeued _ => exact .requeued

/-- The claim takes the row off the queue, or finds that it is not there to be taken. -/
theorem claimed_row {w w' : World} {id : String}
    (h : w'.db.jobs = w.db.jobs.update (JobStmt.markRunning w.now id).update) :
    ∀ r ∈ w'.db.jobs.rows, r.id = id → runnable r = false := by
  intro r' hr' hid
  rw [h] at hr'
  obtain ⟨r, hr, rfl⟩ := Table.mem_update.mp hr'
  by_cases hc : (JobStmt.markRunning w.now id).update.cond r = true
  · rw [Update.row_of_cond _ hc]
    simp [JobStmt.update, markRunning, runnable]
  · rw [Update.row_of_not _ (Bool.eq_false_of_not_eq_true hc)] at hid ⊢
    simpa [JobStmt.update, markRunning, runnable, hid] using hc

theorem loop_step {cfg : Config} {pc pc' : WorkerPc} {f : Fate} {w w' : World} {l : List GeneratePc}
    (hd : draining pc = true) (hf : ∀ e, f ≠ .sqlFails e)
    (h : perform (pc.next cfg w.now) f w = some (w', pc', l)) : LoopStep w w' f pc pc' := by
  cases pc with
  | process job stage => exact stage_loop h
  | claim job =>
    cases worker_step h with
    | won hn hran => exact .won (claimed_row hran.ok)
    | lost hn hran => exact .lost (claimed_row hran.ok)
    | claimFails he _ => exact absurd he (hf _)
    | free hfree _ _ => cases hfree
  | fetch =>
    obtain ⟨rfl, -, hfetch⟩ := fetch_step h
    cases hfetch with
    | failed he => exact absurd he (hf _)
    | empty hnone => exact .empty hnone
    | found hrow => exact .fetched hrow rfl
  | inner =>
    obtain ⟨c, k, x, hc, hex, hk⟩ := perform_eq_some.mp h
    cases hc
    cases x <;> cases hk
    · exact .looks
    · exact .stops
  | notifyJob =>
    obtain ⟨c, k, x, hc, hex, hk⟩ := perform_eq_some.mp h
    cases hc
    cases hk
    exact .told
  | notifyRequeued =>
    obtain ⟨c, k, x, hc, hex, hk⟩ := perform_eq_some.mp h
    cases hc
    cases hk
    exact .toldRequeued
  | backoff | fetchBackoff =>
    obtain ⟨c, k, x, hc, hex, hk⟩ := perform_eq_some.mp h
    cases hc
    cases hk
    exact .sleeps (by simp)
  | _ => cases hd

theorem loop_cases {cfg : Config} {s t : State} {a : Act} (hm : Moved cfg s t a) (hd : Closed s a) :
    (∃ f, a = .worker f ∧ LoopStep s.world t.world f s.worker t.worker) ∨
      (t.worker = s.worker ∧ ∀ f, a ≠ .worker f) ∨ (t.worker = .start ∧ a = .crash) := by
  cases hm with
  | @worker f l h tasks =>
    refine .inl ⟨f, rfl, loop_step hd.1 ?_ h⟩
    rintro e rfl
    cases hd.2.1
  | crash h => exact .inr (.inr ⟨by rw [h]; rfl, rfl⟩)
  | task hi h worker tasks => exact .inr (.inl ⟨worker, by simp⟩)
  | drop hi live world worker tasks => exact .inr (.inl ⟨worker, by simp⟩)
  | writer h worker tasks | env h worker tasks => exact .inr (.inl ⟨worker, by simp⟩)
  | arrive world worker tasks => exact .inr (.inl ⟨worker, by simp⟩)

/-- The keys of the jobs that the loop may still attempt. -/
def queue (s : State) : Finset Key :=
  if searching s.worker then
    ((s.world.db.jobs.rows.filter fun r => runnable r && inHand s.worker ≠ some r.id).map
      rowKey).toFinset
  else ∅

theorem mem_queue {s : State} {k : Key} : k ∈ queue s ↔ searching s.worker = true ∧
    ∃ r ∈ s.world.db.jobs.rows, runnable r = true ∧ inHand s.worker ≠ some r.id ∧ rowKey r = k := by
  unfold queue
  split
  · simp [*, and_assoc]
  · simp [*]

theorem rowKey_id {r r' : JobRow} (h : rowKey r = rowKey r') : r.id = r'.id :=
  congrArg (fun k => (ofLex k).2) h

theorem stmt_rowKey (st : JobStmt) (r : JobRow) : rowKey (st.update.row r) = rowKey r := by
  unfold rowKey
  rw [(stmt_sameRequest st r).createdAt, st.update.row_key r]

theorem requeue_leads {cfg : Config} {s t : State} {f : Fate} {job : QueuedJob}
    (hm : Moved cfg s t (.worker f)) (hw : s.worker = .process job .requeue) :
    t.worker = .notifyRequeued := by
  cases hm with
  | worker h tasks =>
    rw [hw] at h
    obtain ⟨c, k, x, hc, -, hk⟩ := perform_eq_some.mp h
    cases hc
    exact (congrArg Prod.fst hk).symm

/-- A runnable row was runnable before, unless the worker has put it back. -/
theorem runnable_before {cfg : Config} {s t : State} {a : Act} (hm : Moved cfg s t a)
    (hd : Closed s a) {r' : JobRow} (hr' : r' ∈ t.world.db.jobs.rows) (hrun : runnable r' = true) :
    (∃ r ∈ s.world.db.jobs.rows, runnable r = true ∧ rowKey r = rowKey r') ∨
      t.worker = .notifyRequeued := by
  cases hm.jobs with
  | same he => exact .inl ⟨r', he ▸ hr', hrun, rfl⟩
  | @update st hst he =>
    rw [he] at hr'
    obtain ⟨r, hr, rfl⟩ := Table.mem_update.mp hr'
    rcases runnable_stmt hst (mem_row hr) hrun with hrun | ⟨hres, -⟩ | hw | ⟨job, f, hw, rfl⟩
    · exact .inl ⟨r, hr, hrun, (stmt_rowKey st r).symm⟩
    · rw [hd.2.2.2] at hres
      cases hres
    · have hloop := hd.1
      rw [hw] at hloop
      cases hloop
    · exact .inr (requeue_leads hm hw)
  | insert ha hi hins =>
    have hins := hd.2.2.1
    rw [ha] at hins
    simp [inserts, hi] at hins
  | delete ha hi he =>
    rw [he] at hr'
    exact .inl ⟨r', (Table.mem_delete.mp hr').1, hrun, rfl⟩

/-- The job that the worker has claimed is off the queue. -/
def Off (s : State) : Prop := ∀ job stage, s.worker = .process job stage →
  ∀ r ∈ s.world.db.jobs.rows, r.id = job.id → runnable r = false

theorem Off.step {cfg : Config} {s t : State} {a : Act} (h : Off s) (hm : Moved cfg s t a)
    (hd : Closed s a) : Off t := by
  intro job stage hpc r' hr' hid
  -- a job in process was so before the step, or has just been claimed
  have stays : (∃ stage₀, s.worker = .process job stage₀) → runnable r' = false := by
    rintro ⟨stage₀, hs⟩
    by_contra hrun
    rcases runnable_before hm hd hr' (Bool.eq_true_of_not_eq_false hrun) with
      ⟨r, hr, hrun₀, hkey⟩ | hreq
    · rw [h job stage₀ hs r hr ((rowKey_id hkey).trans hid)] at hrun₀
      cases hrun₀
    · rw [hpc] at hreq
      cases hreq
  rcases loop_cases hm hd with ⟨f, -, hl⟩ | ⟨hw, -⟩ | ⟨hw, -⟩
  · generalize hs : s.worker = pc at hl stays
    rw [hpc] at hl
    cases hl with
    | won hrow => exact hrow r' hr' hid
    | goes hlt => exact stays ⟨_, rfl⟩
    | waits hf => exact stays ⟨_, rfl⟩
  · exact stays ⟨stage, hw ▸ hpc⟩
  · rw [hpc] at hw
    cases hw

/-- Nothing in the loop adds to the queue. -/
theorem queue_shrinks {cfg : Config} {s t : State} {a : Act} (h : Off s) (hm : Moved cfg s t a)
    (hd : Closed s a) : queue t ⊆ queue s := by
  intro k hk
  obtain ⟨hsearch, r', hr', hrun', hhand, rfl⟩ := mem_queue.mp hk
  rcases runnable_before hm hd hr' hrun' with ⟨r, hr, hrun, hkey⟩ | hreq
  · rw [← rowKey_id hkey] at hhand
    suffices hs : searching s.worker = true ∧ inHand s.worker ≠ some r.id from
      mem_queue.mpr ⟨hs.1, r, hr, hrun, hs.2, hkey⟩
    rcases loop_cases hm hd with ⟨f, -, hl⟩ | ⟨hw, -⟩ | ⟨hw, -⟩
    · generalize hpc : s.worker = pc at hl
      generalize hpc' : t.worker = pc' at hl hsearch hhand
      cases hl with
      | looks | told => exact ⟨rfl, by simp [inHand]⟩
      | fetched hrow hw => exact ⟨rfl, by simp [inHand]⟩
      | won hrow | goes hlt | waits hf => exact ⟨rfl, hhand⟩
      | @lost job hrow =>
        refine ⟨rfl, fun he => ?_⟩
        have hid : r'.id = job.id := (rowKey_id hkey).symm.trans (Option.some.inj he).symm
        rw [hrow r' hr' hid] at hrun'
        cases hrun'
      | @ended job stage =>
        refine ⟨rfl, fun he => ?_⟩
        rw [h job stage hpc r hr (Option.some.inj he).symm] at hrun
        cases hrun
      | _ => cases hsearch
    · rw [hw] at hsearch hhand
      exact ⟨hsearch, hhand⟩
    · rw [hw] at hsearch
      cases hsearch
  · rw [hreq] at hsearch
    cases hsearch

theorem attempt_fetched {cfg : Config} {s t : State} {a : Act} (h : step cfg s a = some t)
    (hd : Closed s a) {r : JobRow} (hr : attempt cfg (s, a) = some r) :
    s.worker = .fetch ∧ t.worker = .claim (.of r) ∧ t.world = s.world ∧
      first? olderThan (s.world.db.jobs.rows.filter runnable) = some r := by
  simp only [attempt, h, Option.bind_some] at hr
  rcases loop_cases (step_moved h) hd with ⟨f, -, hl⟩ | ⟨hw, -⟩ | ⟨hw, -⟩
  · generalize hpc : s.worker = pc at hl hr
    generalize hpc' : t.worker = pc' at hl hr
    cases hl with
    | @fetched row hrow hw =>
      have hmem := (List.mem_filter.mp (first?_mem hrow)).1
      obtain rfl : row = r := Option.some.inj ((mem_row hmem).symm.trans hr)
      exact ⟨rfl, rfl, hw, hrow⟩
    | sleeps hor => rcases hor with rfl | rfl <;> cases hr
    | _ => cases hr
  · rw [hw] at hr
    cases hpc : s.worker <;> simp [hpc] at hr
  · rw [hw] at hr
    cases hpc : s.worker <;> simp [hpc] at hr

/-- A fetch that finds a job is an attempt. -/
theorem fetched_attempt {cfg : Config} {s t : State} {a : Act} (h : step cfg s a = some t)
    {row : JobRow} (hs : s.worker = .fetch) (ht : t.worker = .claim (.of row))
    (hrow : row ∈ s.world.db.jobs.rows) : attempt cfg (s, a) = some row := by
  simp only [attempt, h, Option.bind_some, hs, ht]
  exact mem_row hrow

/-- The loop attempts the least key of the queue, which is then in hand. -/
theorem attempt_least {cfg : Config} {s t : State} {a : Act} (h : step cfg s a = some t)
    (hd : Closed s a) {k : Key} (hk : (attempt cfg (s, a)).map rowKey = some k) :
    k ∈ queue s ∧ ∀ j ∈ queue t, k < j := by
  obtain ⟨r, hr, rfl⟩ := Option.map_eq_some_iff.mp hk
  obtain ⟨hs, ht, hworld, hfirst⟩ := attempt_fetched h hd hr
  obtain ⟨hmem, hrun⟩ := List.mem_filter.mp (first?_mem hfirst)
  refine ⟨mem_queue.mpr ⟨by rw [hs]; rfl, r, hmem, hrun, by simp [hs, inHand], rfl⟩, ?_⟩
  intro j hj
  obtain ⟨-, r', hr', hrun', hhand, rfl⟩ := mem_queue.mp hj
  rw [hworld] at hr'
  have hle := first?_le olderThan_iff hfirst r' (List.mem_filter.mpr ⟨hr', hrun'⟩)
  refine lt_of_le_of_ne hle fun he => hhand ?_
  rw [ht, ← rowKey_id he]
  rfl

theorem drains (cfg : Config) : Draining.Drains (step cfg) Closed Off queue
    (fun x => (attempt cfg x).map rowKey) where
  keeps _ _ _ hoff hd h := hoff.step (step_moved h) hd
  shrinks _ _ _ hoff hd h := queue_shrinks hoff (step_moved h) hd
  least _ _ _ _ _ hd h hk := attempt_least h hd hk

/-- The calls that are left in this turn of the loop, frames apart. -/
def rank : WorkerPc → Nat
  | .claim _ => 25
  | .process _ stage => 24 - order stage
  | .notifyJob => 3
  | .inner => 2
  | .fetch => 1
  | .notifyRequeued => 2
  | .backoff | .fetchBackoff => 1
  | _ => 0

theorem order_le (stage : Stage) : order stage ≤ 18 := by
  cases stage <;> simp [order]

/-- Every call of its own brings the loop nearer to the end of the turn; a fetched
job begins another one. -/
theorem rank_step {cfg : Config} {s t : State} {a : Act} (h : step cfg s a = some t)
    (hd : Closed s a) : rank t.worker + [a].countP ownCall ≤
      rank s.worker + if ((attempt cfg (s, a)).map rowKey).isSome then 25 else 0 := by
  have hcount : [a].countP ownCall ≤ 1 := List.countP_le_length
  have hfetch := fun row : JobRow => @fetched_attempt cfg s t a h row
  rcases loop_cases (step_moved h) hd with ⟨f, rfl, hl⟩ | ⟨hw, hne⟩ | ⟨hw, rfl⟩
  · generalize hpc : s.worker = pc at hl hfetch
    generalize hpc' : t.worker = pc' at hl hfetch
    cases hl with
    | @fetched row hrow _ =>
      rw [hfetch row rfl rfl (List.mem_filter.mp (first?_mem hrow)).1]
      simp only [rank, Option.map_some, Option.isSome_some, if_true]
      omega
    | @goes job stage stage' hlt =>
      have hle := order_le stage'
      simp only [rank]
      omega
    | waits hf =>
      obtain ⟨fr, rfl⟩ := hf
      simp [ownCall]
    | @dies job stage | @ended job stage =>
      have hle := order_le stage
      simp only [rank]
      omega
    | sleeps hor => rcases hor with rfl | rfl <;> (simp only [rank]; omega)
    | _ => simp only [rank, order]; omega
  · have hzero : [a].countP ownCall = 0 := by
      cases a with
      | worker f => exact absurd rfl (hne f)
      | _ => rfl
    rw [hw, hzero]
    omega
  · rw [hw]
    simp [rank, ownCall]

/-- From the start of the progress writer to its end. -/
def joinsWriter : WorkerPc → Bool
  | .process _ (.awaitCompletion _ _) | .process _ (.joinWriter _ _ _) => true
  | _ => false

/-- The writer that the worker is going to join is there. -/
def Joinable (s : State) : Prop := joinsWriter s.worker = true → s.world.writer.isSome = true

theorem writer_stays {q : RuntimeCall} {wr wr' : Option Writer} (h : WriterChange q wr wr')
    (hq : q ≠ .joinProgressWriter) (hwr : wr.isSome = true) : wr'.isSome = true := by
  rcases h with rfl | ⟨id, -, rfl⟩ | ⟨pid, w, p, -, -, -, -, rfl⟩ | ⟨rfl, -⟩
  · exact hwr
  · rfl
  · rfl
  · exact absurd rfl hq

/-- The worker starts the writer before it waits, and keeps it until the join. -/
theorem stage_joinable {cfg : Config} {job : QueuedJob} {stage : Stage} {f : Fate} {w w' : World}
    {pc : WorkerPc} {l : List GeneratePc}
    (h : perform (stage.next cfg w.now job) f w = some (w', pc, l))
    (hw : joinsWriter (.process job stage) = true → w.writer.isSome = true)
    (hj : joinsWriter pc = true) : w'.writer.isSome = true := by
  obtain ⟨c, k, x, hc, hex, -⟩ := perform_eq_some.mp h
  cases stage_step h with
  | goes hgoes =>
    cases hgoes with
    | spawned =>
      cases hc
      cases f <;> cases hex
      rfl
    | waits | ended hr =>
      cases hc
      exact writer_stays (execFrame_frame hex).2 (by simp) (hw rfl)
    | _ => cases hj
  | fails _ harm => cases harm <;> cases hj
  | _ => cases hj

theorem worker_joinable {cfg : Config} {pc pc' : WorkerPc} {f : Fate} {w w' : World}
    {l : List GeneratePc} (h : perform (pc.next cfg w.now) f w = some (w', pc', l))
    (hw : joinsWriter pc = true → w.writer.isSome = true) (hj : joinsWriter pc' = true) :
    w'.writer.isSome = true := by
  cases worker_step h with
  | stage _ => exact stage_joinable h hw hj
  | claimFails _ harm => cases harm <;> cases hj
  | free _ hfree _ => cases pc' <;> first | cases hj | cases hfree
  | _ => cases hj

theorem Joinable.step {cfg : Config} {s t : State} {a : Act} (h : Joinable s)
    (hm : Moved cfg s t a) : Joinable t := by
  intro hj
  cases hm with
  | worker hcall tasks => exact worker_joinable hcall h hj
  | task hi hcall worker tasks =>
    have hw := h (worker ▸ hj)
    obtain ⟨c, k, x, hc, hex, -⟩ := perform_eq_some.mp hcall
    rcases (exec_change hex).writer with he | ⟨q, rfl, hq⟩
    · rw [he]
      exact hw
    · refine writer_stays hq ?_ hw
      rintro rfl
      cases task_runtime hc
  | writer hcall worker tasks =>
    obtain ⟨wr, wr', -, he, -⟩ := writerStep_change hcall
    rw [he]
    rfl
  | arrive world worker tasks | drop _ _ world worker tasks => exact world ▸ h (worker ▸ hj)
  | env he worker tasks =>
    rw [(Env.apply_change he).writer]
    exact h (worker ▸ hj)
  | crash he =>
    rw [he] at hj
    cases hj

/-- Some call of its own is open to the worker; only the draw of a UUID and the
join of the progress writer may have to wait. -/
theorem worker_ready (cfg : Config) (w : World) {pc : WorkerPc} (hd : draining pc = true) :
    (∃ f, ownCall (.worker f) = true ∧ (perform (pc.next cfg w.now) f w).isSome = true) ∨
    (∃ job name, pc = .process job (.newClientId name)) ∨
    ∃ job client pid r, pc = .process job (.joinWriter client pid r) := by
  cases pc with
  | process job stage =>
    cases stage with
    | newClientId name => exact .inr (.inl ⟨job, name, rfl⟩)
    | joinWriter client pid r => exact .inr (.inr ⟨job, client, pid, r, rfl⟩)
    | readInput path sha | writeOutput out b => exact .inl ⟨.ioFails "", rfl, rfl⟩
    | uploadImage | connectWs | submitPrompt | interrupt | getHistory | view =>
      exact .inl ⟨.unreachable "", rfl, rfl⟩
    | awaitCompletion client pid => exact .inl ⟨.elapsed, rfl, rfl⟩
    | readDimensions out => exact .inl ⟨.dimensions none, rfl, rfl⟩
    | _ => exact .inl ⟨.ok, rfl, rfl⟩
  | backoff | fetchBackoff => exact .inl ⟨.elapsed, rfl, rfl⟩
  | inner | fetch | claim _ | notifyJob | notifyRequeued => exact .inl ⟨.ok, rfl, rfl⟩
  | _ => cases hd

/-- The progress writer is through, or has a step to take. -/
theorem writer_ready {w : World} (h : w.writer.isSome = true) :
    (∃ id last, w.writer = some ⟨id, [], last, false⟩) ∨ (writerStep w .ok).isSome = true := by
  obtain ⟨⟨id, ps, last, bump⟩, hw⟩ := Option.isSome_iff_exists.mp h
  cases bump with
  | true => exact .inr (by simp [writerStep, hw])
  | false =>
    cases ps with
    | nil => exact .inl ⟨id, last, hw⟩
    | cons p ps =>
      right
      simp only [writerStep, hw]
      split <;> rfl

/-- Some step of the worker or of its writer is open, if there is a UUID to draw. -/
theorem never_stuck {cfg : Config} {s : State} (hj : Joinable s) (hd : draining s.worker = true) :
    (∃ a, (ownCall a = true ∨ a = .writer .ok) ∧ (step cfg s a).isSome = true) ∨
      ∃ job name, s.worker = .process job (.newClientId name) ∧
        ∀ id, isUuid id → id ∈ s.world.issued := by
  have opens : ∀ f, ownCall (.worker f) = true →
      (perform (s.worker.next cfg s.world.now) f s.world).isSome = true →
      ∃ a, (ownCall a = true ∨ a = .writer .ok) ∧ (step cfg s a).isSome = true :=
    fun f hown hcall => ⟨.worker f, .inl hown, by simpa [Server.step] using hcall⟩
  rcases worker_ready cfg s.world hd with ⟨f, hown, hcall⟩ | ⟨job, name, hw⟩ |
    ⟨job, client, pid, r, hw⟩
  · exact .inl (opens f hown hcall)
  · by_cases hid : ∃ id, isUuid id ∧ id ∉ s.world.issued
    · obtain ⟨id, hu, hnew⟩ := hid
      refine .inl (opens (.drew id) rfl ?_)
      simp [hw, WorkerPc.next, Stage.next, perform, exec, execRuntime, hu, hnew]
    · refine .inr ⟨job, name, hw, fun id hu => ?_⟩
      by_contra hnew
      exact hid ⟨id, hu, hnew⟩
  · left
    rcases writer_ready (hj (by rw [hw]; rfl)) with ⟨id, last, hwr⟩ | hwr
    · refine opens .ok rfl ?_
      simp [hw, WorkerPc.next, Stage.next, perform, exec, execRuntime, hwr]
    · exact ⟨.writer .ok, .inr rfl, by simpa [Server.step] using hwr⟩

theorem card_queue {s : State} (hs : s.worker = .inner) :
    (queue s).card ≤ s.world.db.jobs.rows.countP runnable := by
  unfold queue
  simp only [hs, searching, inHand, if_true]
  refine (List.toFinset_card_le _).trans (le_of_eq ?_)
  simp [List.countP_eq_length_filter]

theorem picks_attempts (cfg : Config) (as : List Act) (s : State) :
    Draining.picks (step cfg) (fun x => (attempt cfg x).map rowKey) as s =
      (attempts cfg as s).map rowKey := by
  unfold Draining.picks attempts
  rw [List.map_filterMap]

/-- The attempted jobs are rows of the beginning. -/
theorem attempts_distinct {s : State} {l : List JobRow} (hl : ∀ r ∈ l, rowKey r ∈ queue s)
    (hsorted : l.Pairwise fun a b => rowKey a < rowKey b) : (l.map JobRow.id).Nodup := by
  rw [List.Nodup, List.pairwise_map]
  refine hsorted.imp_of_mem fun {a b} ha hb hlt hid => ?_
  obtain ⟨-, r, hr, -, -, hra⟩ := mem_queue.mp (hl a ha)
  obtain ⟨-, r', hr', -, -, hrb⟩ := mem_queue.mp (hl b hb)
  have hrid : r.id = r'.id := (rowKey_id hra).trans (hid.trans (rowKey_id hrb).symm)
  have hrow := mem_row hr
  rw [hrid, mem_row hr'] at hrow
  obtain rfl := Option.some.inj hrow
  exact lt_irrefl _ (hra ▸ hrb ▸ hlt)

/-- From the entry of the inner loop, in every run whose statements succeed and that
submits and restores no job: the worker makes no more than this many calls besides
receiving frames, and is never stuck on the way; it attempts each job at most once, in the
order of `created_at` and `id`; and where a fetch that finds nothing ends the loop,
nothing is left to do. -/
theorem drain_loop {cfg : Config} {as : List Act} {s t : State} (hs : s.worker = .inner)
    (h : run cfg as s = some t) (hc : Along cfg Closed as s) :
    as.countP ownCall ≤ 25 * s.world.db.jobs.rows.countP runnable + 2 ∧
    (draining t.worker = true →
      (∃ a, (ownCall a = true ∨ a = .writer .ok) ∧ (step cfg t a).isSome = true) ∨
        ∃ job name, t.worker = .process job (.newClientId name) ∧
          ∀ id, isUuid id → id ∈ t.world.issued) ∧
    (attempts cfg as s).Pairwise (fun a b => olderThan a b = true) ∧
    ((attempts cfg as s).map JobRow.id).Nodup ∧
    (∀ bs f u, as = bs ++ [.worker f] → run cfg bs s = some u → u.worker = .fetch →
      t.worker = .idle → ∀ r ∈ t.world.db.jobs.rows, ¬ (r.status = .queued ∧ r.deletedAt = none)) := by
  have hoff : Off s := fun job stage he => by
    rw [hs] at he
    cases he
  have hbound := (drains cfg).bounded (fun u => rank u.worker) ownCall 25
    (fun u a v _ hu hstep => rank_step hstep hu) hc h hoff
  have hmem := (drains cfg).picks_mem hc h hoff
  have hsorted := ((drains cfg).picks_sorted hc h hoff).pairwise
  rw [picks_attempts] at hmem hsorted
  rw [List.pairwise_map] at hsorted
  refine ⟨?_, fun hd => never_stuck ?_ hd, ?_, ?_, ?_⟩
  · have hcard := Nat.mul_le_mul_left 25 (card_queue hs)
    rw [hs] at hbound
    exact hbound.trans (Nat.add_le_add_right hcard 2)
  · refine Runs.invariant (fun u a v hu hstep => hu.step (step_moved hstep)) h fun hj => ?_
    rw [hs] at hj
    cases hj
  · exact hsorted.imp fun {a b} hlt => (olderThan_iff a b).mpr hlt
  · exact attempts_distinct (fun r hr => hmem _ (List.mem_map_of_mem hr)) hsorted
  · rintro bs f u rfl hbs hu ht r hr ⟨hq, hlive⟩
    obtain ⟨u', hbs', hlast⟩ := Option.bind_eq_some_iff.mp
      ((Runs.run_append (step cfg) bs [.worker f] s).symm.trans h)
    obtain rfl := Option.some.inj (hbs.symm.trans hbs')
    obtain ⟨v, hstep, hv⟩ := Runs.run_cons_some.mp hlast
    obtain rfl := Option.some.inj hv
    rcases loop_cases (step_moved hstep) (Runs.Along.at hc hbs) with ⟨f', -, hl⟩ | ⟨hw, -⟩ | ⟨hw, -⟩
    · rw [hu, ht] at hl
      cases hl with
      | empty hnone =>
        have hrun : runnable r = true := decide_eq_true ⟨hq, hlive⟩
        rw [hnone r hr] at hrun
        cases hrun
      | sleeps hor => rcases hor with hor | hor <;> cases hor
    · rw [hw, hu] at ht
      cases ht
    · rw [hw] at ht
      cases ht

/-- Two queued jobs, the worker at the entry of its inner loop. -/
def twoQueued : List Act :=
  firstSubmit 0 jobA ++ nextSubmit 1 jobB ++ List.replicate 2 (.worker .ok)

/-- The first job is cancelled between the fetch and the claim, the input of the
second cannot be read; the worker is about to look at the queue again. -/
def drainRun : List Act :=
  [.worker .ok, .worker .ok, .arrive (.cancel jobA), .task 2 .ok, .task 2 .ok] ++
    List.replicate 7 (.worker .ok) ++ [.worker (.ioFails "gone")] ++ List.replicate 3 (.worker .ok)

theorem drain_loop_sample : ∃ s t, run sampleConfig twoQueued State.init = some s ∧
    run sampleConfig (drainRun ++ [.worker .ok]) s = some t ∧
    (attempts sampleConfig (drainRun ++ [.worker .ok]) s).map JobRow.id = [jobA, jobB] ∧
    (drainRun ++ [Act.worker .ok]).countP ownCall ≤ 25 * s.world.db.jobs.rows.countP runnable + 2 ∧
    ∀ r ∈ t.world.db.jobs.rows, ¬ (r.status = .queued ∧ r.deletedAt = none) := by
  have hrun : ((run sampleConfig twoQueued State.init).bind fun s =>
      if s.worker = .inner ∧ Along sampleConfig Closed (drainRun ++ [.worker .ok]) s then
        (run sampleConfig drainRun s).bind fun u =>
          (run sampleConfig (drainRun ++ [.worker .ok]) s).map fun t => (u.worker, t.worker,
            (attempts sampleConfig (drainRun ++ [.worker .ok]) s).map JobRow.id)
      else none) = some (.fetch, .idle, [jobA, jobB]) := by
    simp only [twoQueued, List.append_assoc, run_first]
    decide +kernel
  obtain ⟨s, hs, h⟩ := Option.bind_eq_some_iff.mp hrun
  obtain ⟨⟨hw, hc⟩, h⟩ := Option.ite_none_right_eq_some.mp h
  obtain ⟨u, hu, h⟩ := Option.bind_eq_some_iff.mp h
  obtain ⟨t, ht, h⟩ := Option.map_eq_some_iff.mp h
  simp only [Prod.mk.injEq] at h
  obtain ⟨hfetch, hidle, hjobs⟩ := h
  obtain ⟨hlen, -, -, -, hempty⟩ := drain_loop hw ht hc
  exact ⟨s, t, hs, ht, hjobs, hlen, hempty drainRun .ok u rfl hu hfetch hidle⟩

end ZunServer.Drain
