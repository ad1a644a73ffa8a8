import ZunServer.Drain
import ZunServer.Redaction

/-!
# Shutting down

The shutdown flag is set; `main` returns once the connections are drained and does not wait
for the worker. For as long as the process is up, the worker looks at the flag between
two jobs only: the job in hand is seen through, with the renditions left to their own
task, and nothing more is taken from the queue.
-/
namespace ZunServer.Shutdown

open KeyedTable
open Schema Statements Database Comfy Calls Renditions Worker Handlers Server Rows
open WorkerSteps RowInvariant SingleRunner Drain

/-- How the `JoinHandle` of the worker resolves. -/
def joined : WorkerPc → Option (Except QueuedJob Unit)
  | .stopped => some (.ok ())
  | .panicked job => some (.error job)
  | _ => none

/-- `supervise`: a task that has ended takes the process down with it, unless the
shutdown had been asked for. -/
def supervise (s : State) : Option Nat :=
  match joined s.worker with
  | none => none
  | some _ => if s.world.shutdown then none else some 1

/-- The calls that the worker has left once the flag is set, frames apart. -/
def left : WorkerPc → Nat
  | .fetch => 24
  | .claim _ => 23
  | .process _ stage => 22 - order stage
  | .notifyRequeued => 4
  | .backoff | .fetchBackoff => 3
  | .start | .idle | .notifyJob => 2
  | .outer | .inner => 1
  | .stopped | .panicked _ => 0

/-- The fetch that was on its way when the flag was set. -/
def fetching : WorkerPc → Nat
  | .fetch => 1
  | _ => 0

theorem left_le (pc : WorkerPc) : left pc ≤ 24 := by
  cases pc <;> simp only [left] <;> omega

theorem errorArm_left {job : QueuedJob} {pc : WorkerPc} (h : ErrorArm job pc) : left pc ≤ 5 := by
  cases h <;> simp [left, order]

/-- A call inside `process_job` brings the job nearer to its end, if it is not the
receipt of a frame. -/
theorem stage_left {cfg : Config} {job : QueuedJob} {stage : Stage} {f : Fate} {w w' : World}
    {pc : WorkerPc} {l : List GeneratePc}
    (h : perform (stage.next cfg w.now job) f w = some (w', pc, l)) :
    left pc + [Act.worker f].countP ownCall ≤ left (.process job stage) ∧ fetching pc = 0 := by
  have hcount : [Act.worker f].countP ownCall ≤ 1 := List.countP_le_length
  have hle := order_le stage
  cases stage_step h with
  | fails hleaves harm =>
    have hlt : order stage < 17 := leaves_order hleaves
    have harm' := errorArm_left harm
    refine ⟨?_, by cases harm <;> rfl⟩
    change left pc + _ ≤ 22 - order stage
    omega
  | @goes _ stage' hgoes =>
    refine ⟨?_, rfl⟩
    have hle' := order_le stage'
    cases stage_loop h with
    | goes hlt =>
      simp only [left]
      omega
    | waits hf =>
      obtain ⟨fr, rfl⟩ := hf
      simp [ownCall]
  | done _ _ | refused _ _ =>
    refine ⟨?_, rfl⟩
    simp only [left, order]
    omega
  | requeued _ | failed _ =>
    refine ⟨?_, rfl⟩
    simp only [left, order]
    omega

/-- Under the flag every call of its own brings the worker nearer to its end, and none
leads to a fetch. -/
theorem call_left {cfg : Config} {pc pc' : WorkerPc} {f : Fate} {w w' : World}
    {l : List GeneratePc} (hsd : w.shutdown = true)
    (h : perform (pc.next cfg w.now) f w = some (w', pc', l)) :
    left pc' + [Act.worker f].countP ownCall ≤ left pc ∧ fetching pc' = 0 := by
  have hcount : [Act.worker f].countP ownCall ≤ 1 := List.countP_le_length
  cases pc with
  | process job stage => exact stage_left h
  | claim job =>
    cases worker_step h with
    | won _ _ | lost _ _ =>
      refine ⟨?_, rfl⟩
      simp only [left, order]
      omega
    | claimFails _ harm =>
      have harm' := errorArm_left harm
      refine ⟨?_, by cases harm <;> rfl⟩
      change left pc' + _ ≤ 23
      omega
    | free hfree _ _ => cases hfree
  | fetch =>
    obtain ⟨-, -, hfetch⟩ := fetch_step h
    cases hfetch <;> refine ⟨?_, rfl⟩ <;> simp only [left] <;> omega
  | stopped | panicked job => cases h
  | outer | inner =>
    obtain ⟨c, k, x, hc, hex, hk⟩ := perform_eq_some.mp h
    cases hc
    cases f <;> cases hex
    rw [hsd] at hk
    cases hk
    exact ⟨by simp only [left]; omega, rfl⟩
  | idle =>
    obtain ⟨c, k, x, hc, hex, hk⟩ := perform_eq_some.mp h
    cases hc
    cases x <;> cases hk <;> exact ⟨by simp only [left]; omega, rfl⟩
  | _ =>
    obtain ⟨c, k, x, hc, hex, hk⟩ := perform_eq_some.mp h
    cases hc
    cases hk
    exact ⟨by simp only [left]; omega, rfl⟩

/-- The flag stays set while the process is up. -/
theorem shutdown_stays {cfg : Config} {s t : State} {a : Act} (hm : Moved cfg s t a)
    (hup : staysUp a = true) (hsd : s.world.shutdown = true) : t.world.shutdown = true := by
  cases hm with
  | worker h tasks =>
    obtain ⟨c, k, x, -, hex, -⟩ := perform_eq_some.mp h
    exact (exec_change hex).shutdown.trans hsd
  | task hi h worker tasks =>
    obtain ⟨c, k, x, -, hex, -⟩ := perform_eq_some.mp h
    exact (exec_change hex).shutdown.trans hsd
  | writer h worker tasks =>
    obtain ⟨wr, wr', -, he, -⟩ := writerStep_change h
    rw [he]
    exact hsd
  | arrive world worker tasks | drop hi live world worker tasks => exact world ▸ hsd
  | @env e h worker tasks =>
    cases e with
    | comfy c =>
      obtain ⟨b, -, he⟩ := Option.map_eq_some_iff.mp h
      rw [← he]
      exact hsd
    | shutdown => rw [← Option.some.inj h]
    | clock n | vanish p | prompts t =>
      rw [← Option.some.inj h]
      exact hsd
  | crash h => cases hup

theorem down_step {cfg : Config} {s t : State} {a : Act} (hm : Moved cfg s t a)
    (hup : staysUp a = true) (hsd : s.world.shutdown = true) :
    left t.worker + [a].countP ownCall ≤ left s.worker ∧
      (fetching t.worker = 0 ∨ t.worker = s.worker) := by
  rcases worker_cases hm with ⟨f, l, rfl, -, -⟩ | ⟨hw, hne, -⟩ | ⟨rfl, -⟩
  · cases hm with
    | worker h tasks =>
      obtain ⟨hleft, hfetch⟩ := call_left hsd h
      exact ⟨hleft, .inl hfetch⟩
  · have hzero : [a].countP ownCall = 0 := by
      cases a with
      | worker f => exact absurd rfl (hne f)
      | _ => rfl
    rw [hw, hzero]
    exact ⟨le_refl _, .inr rfl⟩
  · cases hup

/-- Only a fetch under way hands over a job. -/
theorem attempt_fetching (cfg : Config) {s t : State} {a : Act} (h : step cfg s a = some t) :
    (attempt cfg (s, a)).toList.length ≤ fetching s.worker ∧
      (t.worker = s.worker → attempt cfg (s, a) = none) := by
  simp only [attempt, h, Option.bind_some]
  split
  · rename_i job hs ht
    refine ⟨?_, fun he => ?_⟩
    · rw [hs]
      cases row? s job.id <;> simp [fetching]
    · rw [hs, ht] at he
      cases he
  · exact ⟨Nat.zero_le _, fun _ => rfl⟩

/-- While the worker has not ended, a call of its own is open to it or to its progress
writer, if there is a UUID to draw. -/
theorem down_ready {cfg : Config} {s : State} (hj : Joinable s) (hw : joined s.worker = none) :
    (∃ a, (ownCall a = true ∨ a = .writer .ok) ∧ (step cfg s a).isSome = true) ∨
      ∃ job name, s.worker = .process job (.newClientId name) ∧
        ∀ id, isUuid id → id ∈ s.world.issued := by
  by_cases hd : draining s.worker = true
  · exact never_stuck hj hd
  · have opens : ∀ f, ownCall (.worker f) = true →
        (perform (s.worker.next cfg s.world.now) f s.world).isSome = true →
        ∃ a, (ownCall a = true ∨ a = .writer .ok) ∧ (step cfg s a).isSome = true :=
      fun f hown hcall => ⟨.worker f, .inl hown, by simpa [Server.step] using hcall⟩
    left
    cases hpc : s.worker with
    | start | outer => exact opens .ok rfl (by rw [hpc]; rfl)
    | idle => exact opens .elapsed rfl (by rw [hpc]; rfl)
    | stopped | panicked job =>
      rw [hpc] at hw
      cases hw
    | _ =>
      rw [hpc] at hd
      exact absurd rfl hd

/-- Once the flag is set and while the process is up: the worker makes at most 24 more calls
besides receiving frames, takes at most the job of a fetch already under way, and is
never stuck before its end, unless it is to draw a client id and there is no UUID left
that has not been given out. If no statement has failed, no job is running when it
has stopped. -/
theorem shutdown_drains {cfg : Config} {as bs : List Act} {s t : State}
    (h₀ : run cfg as State.init = some s) (hsd : s.world.shutdown = true)
    (h : run cfg bs s = some t) (hup : ∀ a ∈ bs, staysUp a = true) :
    bs.countP ownCall + left t.worker ≤ 24 ∧
    (attempts cfg bs s).length ≤ fetching s.worker ∧
    (joined t.worker = none →
      (∃ a, (ownCall a = true ∨ a = .writer .ok) ∧ (step cfg t a).isSome = true) ∨
        ∃ job name, t.worker = .process job (.newClientId name) ∧
          ∀ id, isUuid id → id ∈ t.world.issued) ∧
    (Along cfg (fun _ a => sqlSucceeds a = true) (as ++ bs) State.init → t.worker = .stopped →
      ∀ r ∈ t.world.db.jobs.rows, r.status ≠ .running) := by
  have hall : Along cfg (fun _ a => staysUp a = true) bs s := Runs.Along.of_forall hup s
  have hkeep : ∀ (u : State) (a : Act) (v : State), u.world.shutdown = true → staysUp a = true →
      step cfg u a = some v → v.world.shutdown = true :=
    fun u a v hu ha hs => shutdown_stays (step_moved hs) ha hu
  have hspent := hall.spend (μ := fun u => left u.worker) (p := ownCall) hkeep
    (fun u a v hu ha hs => (down_step (step_moved hs) ha hu).1) h hsd
  have hcost : ∀ (u : State) (a : Act) (v : State), u.world.shutdown = true → staysUp a = true →
      step cfg u a = some v →
      (attempt cfg (u, a)).toList.length + fetching v.worker ≤ fetching u.worker := by
    intro u a v hu ha hs
    obtain ⟨htaken, hsame⟩ := attempt_fetching cfg hs
    rcases (down_step (step_moved hs) ha hu).2 with hzero | hw
    · omega
    · rw [hw, hsame hw]
      simp
  have htaken : Runs.total (step cfg) (fun u a => (attempt cfg (u, a)).toList.length) bs s +
      fetching t.worker ≤ Runs.total (step cfg) (fun _ _ => 0) bs s + fetching s.worker := by
    refine hall.balance (I := fun u => u.world.shutdown = true) (μ := fun u => fetching u.worker)
      hkeep (fun u a v hu ha hs => ?_) h hsd
    rw [Nat.zero_add]
    exact hcost u a v hu ha hs
  have hjoin : Joinable t := by
    refine Runs.invariant (fun u a v hu hs => hu.step (step_moved hs)) (Runs.run_trans h₀ h) ?_
    intro hj
    cases hj
  refine ⟨hspent.trans (left_le s.worker), ?_, down_ready hjoin, fun hsql hstop => ?_⟩
  · rw [attempts, Runs.length_picked]
    have hzero : Runs.total (step cfg) (fun _ _ => 0) bs s = 0 := Runs.total_zero ..
    omega
  · have hinv : t.worker = .start ∨ RunsInside t :=
      Runs.Along.invariant (I := fun u => u.worker = .start ∨ RunsInside u)
        (fun u a v hu ha hs => runsInside_step (step_moved hs) ha hu) hsql (Runs.run_trans h₀ h)
        (.inl rfl)
    exact (hinv.resolve_left (by simp [hstop])).none (by rw [hstop]; rfl)

/-- The flag is set while ComfyUI has the first job, with a second one queued. -/
def beforeShutdown : List Act :=
  firstSubmit 0 jobA ++ nextSubmit 1 jobB ++ startAndClaim ++ processToSubmit clientA "p1" ++
    [.env .shutdown]

theorem shutdown_drains_done : ∃ s t, run sampleConfig beforeShutdown State.init = some s ∧
    run sampleConfig (processToDone jobA ++ [.worker .ok]) s = some t ∧ t.worker = .stopped ∧
    t.world.db.jobs.rows.map JobRow.status = [.done, .queued] ∧
    (attempts sampleConfig (processToDone jobA ++ [.worker .ok]) s).length = 0 ∧
    ∀ r ∈ t.world.db.jobs.rows, r.status ≠ .running := by
  have hrun : ((run sampleConfig beforeShutdown State.init).bind fun s =>
      (run sampleConfig (processToDone jobA ++ [.worker .ok]) s).map fun t =>
        (s.world.shutdown, fetching s.worker, t.worker, t.world.db.jobs.rows.map JobRow.status)) =
      some (true, 0, .stopped, [.done, .queued]) := by
    simp only [beforeShutdown, List.append_assoc, run_first]
    decide +kernel
  have hsql : Along sampleConfig (fun _ a => sqlSucceeds a = true)
      (beforeShutdown ++ (processToDone jobA ++ [.worker .ok])) State.init := by
    simp only [beforeShutdown, List.append_assoc, along_first]
    decide +kernel
  obtain ⟨s, hs, h⟩ := Option.bind_eq_some_iff.mp hrun
  obtain ⟨t, ht, h⟩ := Option.map_eq_some_iff.mp h
  simp only [Prod.mk.injEq] at h
  obtain ⟨hsd, hfetching, hstop, hrows⟩ := h
  obtain ⟨-, htaken, -, hnone⟩ := shutdown_drains hs hsd ht (by decide +kernel)
  exact ⟨s, t, hs, ht, hstop, hrows, by omega, hnone hsql hstop⟩

/-- The worker returns only under the flag. -/
theorem stopped_origin {cfg : Config} {pc : WorkerPc} {f : Fate} {w w' : World}
    {l : List GeneratePc} (h : perform (pc.next cfg w.now) f w = some (w', .stopped, l)) :
    w'.shutdown = true := by
  cases pc with
  | process job stage =>
    cases worker_step h with
    | stage hs =>
      cases hs with
      | fails _ he => cases he
    | free hfree _ _ => cases hfree
  | claim job =>
    cases worker_step h with
    | claimFails _ he => cases he
    | free hfree _ _ => cases hfree
  | fetch =>
    obtain ⟨-, -, hfetch⟩ := fetch_step h
    cases hfetch
  | stopped | panicked job => cases h
  | outer | inner =>
    obtain ⟨c, k, x, hc, hex, hk⟩ := perform_eq_some.mp h
    cases hc
    cases f <;> cases hex
    cases hsd : w.shutdown with
    | true => rfl
    | false =>
      rw [hsd] at hk
      cases hk
  | idle =>
    obtain ⟨c, k, x, hc, hex, hk⟩ := perform_eq_some.mp h
    cases hc
    cases x <;> cases hk
    cases f <;> simp only [exec, execRuntime, reduceCtorEq, Option.ite_none_right_eq_some,
      Option.some.injEq, Prod.mk.injEq, and_false] at hex
    exact hex.2.1 ▸ hex.1
  | _ =>
    obtain ⟨c, k, x, hc, hex, hk⟩ := perform_eq_some.mp h
    cases hc
    cases hk

theorem stopped_step {cfg : Config} {s t : State} {a : Act} (hm : Moved cfg s t a)
    (h : s.worker = .stopped → s.world.shutdown = true) (ht : t.worker = .stopped) :
    t.world.shutdown = true := by
  rcases worker_cases hm with ⟨f, l, rfl, -, -⟩ | ⟨hw, -, hcrash⟩ | ⟨-, rfl⟩
  · cases hm with
    | worker hcall tasks =>
      rw [ht] at hcall
      exact stopped_origin hcall
  · have hup : staysUp a = true := by cases a <;> first | rfl | exact absurd rfl hcrash
    exact shutdown_stays hm hup (h (hw ▸ ht))
  · cases ht

/-- The supervisor of the worker takes the process down when the worker has panicked
with no shutdown asked for, and in no other case. -/
theorem supervise_exits {cfg : Config} {s : State} (hs : Reachable cfg s) :
    supervise s = some 1 ↔ (∃ job, s.worker = .panicked job) ∧ s.world.shutdown = false := by
  have hstop : s.worker = .stopped → s.world.shutdown = true :=
    hs.invariant (I := fun u => u.worker = .stopped → u.world.shutdown = true) (by simp [State.init])
      fun u a v hu h => stopped_step (step_moved h) hu
  unfold supervise joined
  cases hpc : s.worker with
  | stopped => simp [hstop hpc]
  | _ => simp

/-- A statement fails with a text that `redact_internal` cannot cut. -/
def panickingRun : List Act :=
  firstSubmit 0 jobA ++ startAndClaim ++ [.worker .ok, .worker (.sqlFails Redaction.accented)]

theorem supervise_exits_panicked : ∃ s, Reachable sampleConfig s ∧ supervise s = some 1 := by
  have hrun : ((run sampleConfig panickingRun State.init).bind fun s => match s.worker with
      | .panicked job => some (job.id, s.world.shutdown)
      | _ => none) = some (jobA, false) := by
    simp only [panickingRun, List.append_assoc, run_first]
    decide +kernel
  obtain ⟨s, hs, h⟩ := Option.bind_eq_some_iff.mp hrun
  split at h
  case h_2 => cases h
  rename_i job hjob
  simp only [Option.some.injEq, Prod.mk.injEq] at h
  have hreach : Reachable sampleConfig s := ⟨_, hs⟩
  exact ⟨s, hreach, (supervise_exits hreach).mpr ⟨⟨job, hjob⟩, h.2⟩⟩

end ZunServer.Shutdown
