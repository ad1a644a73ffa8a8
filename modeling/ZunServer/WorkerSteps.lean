import ZunServer.Server

/-!
# One call of the worker

What each call of the worker leads to, said once. Inside `process_job` the
worker goes on to a later stage, falls into the error arm, or is over with the
job; outside it holds no job.
-/
namespace ZunServer.WorkerSteps

open KeyedTable
open Schema Statements Database Comfy Calls Renditions Worker Server

/-- The stages of `process_job` itself, as against the error arm of `run`. -/
def claimed : Stage → Bool
  | .requeue | .markFailed _ => false
  | _ => true

/-- The stages in the order `process_job` goes through them. -/
def order : Stage → Nat
  | .notifyRunning => 0
  | .selectInput => 1
  | .readInput _ _ => 2
  | .uploadImage _ _ _ => 3
  | .newClientId _ => 4
  | .connectWs _ _ => 5
  | .submitPrompt _ _ => 6
  | .storePromptId _ _ => 7
  | .spawnWriter _ _ => 8
  | .awaitCompletion _ _ => 9
  | .joinWriter _ _ _ => 10
  | .interrupt _ _ => 11
  | .getHistory _ _ => 12
  | .view _ _ _ => 13
  | .writeOutput _ _ => 14
  | .readDimensions _ => 15
  | .markDone _ _ _ => 16
  | .requeue => 17
  | .markFailed _ => 18

/-- The job the worker is inside of; a panic leaves it there. -/
def inside : WorkerPc → Option String
  | .process job _ | .panicked job => some job.id
  | _ => none

/-- Where the error arm leads. -/
inductive ErrorArm (job : QueuedJob) : WorkerPc → Prop
  | requeue : ErrorArm job (.process job .requeue)
  | markFailed (e : String) : ErrorArm job (.process job (.markFailed e))
  | panicked : ErrorArm job (.panicked job)

theorem errorArm_cases (job : QueuedJob) (e : AnyError) : ErrorArm job (errorArm job e) := by
  unfold errorArm
  split
  · exact .requeue
  · split
    · exact .markFailed _
    · exact .panicked

/-- A statement on `jobs` has run, unless the environment made it fail. -/
def Ran (w w' : World) (f : Fate) (st : JobStmt) : Prop :=
  w'.db.jobs = w.db.jobs.update st.update ∨ ∃ e, f = .sqlFails e

theorem Ran.of_ne {w w' : World} {f : Fate} {st : JobStmt} (h : Ran w w' f st)
    (hf : ∀ e, f ≠ .sqlFails e) : w'.db.jobs = w.db.jobs.update st.update :=
  h.resolve_right fun ⟨e, he⟩ => hf e he

theorem Ran.ok {w w' : World} {st : JobStmt} (h : Ran w w' .ok st) :
    w'.db.jobs = w.db.jobs.update st.update := h.of_ne (by simp)

/-- The calls that bring `process_job` from one stage to the next. -/
inductive GoesOn (w w' : World) (f : Fate) (job : QueuedJob) : Stage → Stage → Prop
  | notified : GoesOn w w' f job .notifyRunning .selectInput
  | selected {path : DataPath} {sha : String} :
      GoesOn w w' f job .selectInput (.readInput path sha)
  | read {path : DataPath} {sha : String} {b : Bytes} :
      GoesOn w w' f job (.readInput path sha) (.uploadImage path sha b)
  | uploaded {path : DataPath} {sha name : String} {b : Bytes} :
      GoesOn w w' f job (.uploadImage path sha b) (.newClientId name)
  | drew {name client : String} : GoesOn w w' f job (.newClientId name) (.connectWs name client)
  | connected {name client : String} :
      GoesOn w w' f job (.connectWs name client) (.submitPrompt name client)
  | submitted {name client pid : String} (hf : f = .name pid) :
      GoesOn w w' f job (.submitPrompt name client) (.storePromptId client pid)
  | storedId {client pid : String} :
      GoesOn w w' f job (.storePromptId client pid) (.spawnWriter client pid)
  | spawned {client pid : String} :
      GoesOn w w' f job (.spawnWriter client pid) (.awaitCompletion client pid)
  | waits {client pid : String} :
      GoesOn w w' f job (.awaitCompletion client pid) (.awaitCompletion client pid)
  | ended {client pid : String} {r : Ending} (hr : r = .completed → pid ∈ w.comfy.ended) :
      GoesOn w w' f job (.awaitCompletion client pid) (.joinWriter client pid r)
  | timedOut {client pid : String} :
      GoesOn w w' f job (.joinWriter client pid .elapsed) (.interrupt client pid)
  | completed {client pid : String} :
      GoesOn w w' f job (.joinWriter client pid .completed) (.getHistory client pid)
  | matched {client pid : String} {img : HistoryImage}
      (himg : (outputPrefix job.id).toList <+: img.filename.toList) :
      GoesOn w w' f job (.getHistory client pid) (.view client pid img)
  | viewed {client pid : String} {img : HistoryImage} {out : DataPath} {b : Bytes}
      (hout : dataPath .outputs img.filename = .ok out) :
      GoesOn w w' f job (.view client pid img) (.writeOutput out b)
  | wrote {out : DataPath} {b : Bytes} (hfile : (w'.files out).isSome = true) :
      GoesOn w w' f job (.writeOutput out b) (.readDimensions out)
  | measured {out : DataPath} {wd ht : Option Int} :
      GoesOn w w' f job (.readDimensions out) (.markDone out wd ht)

/-- The stages at which `process_job` can return an error. -/
inductive Leaves (f : Fate) : Stage → Prop
  | selectInput : Leaves f .selectInput
  | readInput {path : DataPath} {sha : String} : Leaves f (.readInput path sha)
  | uploadImage {path : DataPath} {sha : String} {b : Bytes} : Leaves f (.uploadImage path sha b)
  | connectWs {name client : String} : Leaves f (.connectWs name client)
  | submitPrompt {name client : String} : Leaves f (.submitPrompt name client)
  | storePromptId {client pid e : String} (hf : f = .sqlFails e) : Leaves f (.storePromptId client pid)
  | joinWriter {client pid e : String} : Leaves f (.joinWriter client pid (.failed e))
  | interrupt {client pid : String} : Leaves f (.interrupt client pid)
  | getHistory {client pid : String} : Leaves f (.getHistory client pid)
  | view {client pid : String} {img : HistoryImage} : Leaves f (.view client pid img)
  | writeOutput {out : DataPath} {b : Bytes} : Leaves f (.writeOutput out b)
  | markDone {out : DataPath} {wd ht : Option Int} {e : String} (hf : f = .sqlFails e) :
      Leaves f (.markDone out wd ht)

/-- What a call of the worker inside a job leads to. -/
inductive StageStep (w w' : World) (f : Fate) (job : QueuedJob) :
    Stage → WorkerPc → List GeneratePc → Prop
  | goes {stage stage' : Stage} (h : GoesOn w w' f job stage stage') :
      StageStep w w' f job stage (.process job stage') []
  | fails {stage : Stage} {pc : WorkerPc} (h : Leaves f stage) (h' : ErrorArm job pc) :
      StageStep w w' f job stage pc []
  | done {out : DataPath} {wd ht : Option Int}
      (hn : w.db.jobs.affected (JobStmt.markDone w.now job.id out wd ht).update = 1)
      (h : Ran w w' .ok (.markDone w.now job.id out wd ht)) :
      StageStep w w' f job (.markDone out wd ht) .notifyJob [GeneratePc.start job.id out]
  | refused {out : DataPath} {wd ht : Option Int}
      (hn : w.db.jobs.affected (JobStmt.markDone w.now job.id out wd ht).update ≠ 1)
      (h : Ran w w' .ok (.markDone w.now job.id out wd ht)) :
      StageStep w w' f job (.markDone out wd ht) .notifyJob []
  | requeued (h : Ran w w' f (.requeue job.id)) :
      StageStep w w' f job .requeue .notifyRequeued []
  | failed {e : String} (h : Ran w w' f (.markFailed w.now job.id e)) :
      StageStep w w' f job (.markFailed e) .notifyJob []

theorem GoesOn.claimed {w w' : World} {f : Fate} {job : QueuedJob} {stage stage' : Stage}
    (h : GoesOn w w' f job stage stage') :
    WorkerSteps.claimed stage = true ∧ WorkerSteps.claimed stage' = true := by
  cases h <;> exact ⟨rfl, rfl⟩

/-- `process_job` never goes back. -/
theorem GoesOn.order_le {w w' : World} {f : Fate} {job : QueuedJob} {stage stage' : Stage}
    (h : GoesOn w w' f job stage stage') : order stage ≤ order stage' := by
  cases h <;> simp only [order] <;> omega

theorem exec_ran {w w' : World} {st : JobStmt} {f : Fate} {x : Except String Nat}
    (h : exec w (.sql (.job st)) f = some (w', x)) : Ran w w' f st := by
  rcases exec_job h with ⟨-, -, rfl⟩ | ⟨e, hf, -⟩
  · exact .inl rfl
  · exact .inr ⟨e, hf⟩

theorem afterHistory_step {w w' : World} {f : Fate} (job : QueuedJob) (client pid : String)
    (entry : Option HistoryEntry) :
    StageStep w w' f job (.getHistory client pid) (afterHistory job client pid entry) [] := by
  have herr := errorArm_cases job
  unfold afterHistory
  split
  · exact .fails .getHistory (herr _)
  · split
    · exact .fails .getHistory (herr _)
    · split
      · exact .fails .getHistory (herr _)
      · rename_i himg
        exact .goes (.matched (HistoryEntry.primaryOutput_prefix himg))

/-- A frame ends the wait as a completion only once the prompt has ended. -/
theorem completed_ended {w w' : World} {pid : String} {f : Fate}
    (h : execFrame w pid f = some (w', some .completed)) : pid ∈ w.comfy.ended := by
  cases f with
  | frame fr =>
    cases fr with
    | executingNull =>
      obtain ⟨hp, -⟩ := Option.ite_none_right_eq_some.mp h
      exact hp
    | executionError d =>
      obtain ⟨-, h⟩ := Option.ite_none_right_eq_some.mp h
      cases h
    | progress value max =>
      simp only [execFrame] at h
      split at h <;> cases h
    | _ => cases h
  | _ => cases h

theorem submitted_name {w w' : World} {wf : EditWorkflow} {client pid : String} {f : Fate}
    (h : exec w (.comfy (.submitPrompt wf client)) f = some (w', .ok pid)) : f = .name pid := by
  cases f <;> simp only [exec, execComfy, reduceCtorEq, Option.map_eq_some_iff,
    Option.some.injEq, Prod.mk.injEq, Except.ok.injEq, and_false, exists_false] at h
  obtain ⟨b, -, -, rfl⟩ := h
  rfl

theorem written_isSome {w w' : World} {out : DataPath} {b : Bytes} {f : Fate}
    (h : exec w (.file (.atomicWrite out b)) f = some (w', .ok ())) :
    (w'.files out).isSome = true := by
  cases f <;> simp only [exec, execFile, reduceCtorEq, Option.some.injEq, Prod.mk.injEq,
    and_false] at h
  rw [← h.1]
  simp

theorem stage_step {cfg : Config} {job : QueuedJob} {stage : Stage} {f : Fate} {w w' : World}
    {pc : WorkerPc} {l : List GeneratePc}
    (h : perform (stage.next cfg w.now job) f w = some (w', pc, l)) :
    StageStep w w' f job stage pc l := by
  obtain ⟨c, k, x, hc, hex, hk⟩ := perform_eq_some.mp h
  have herr := errorArm_cases job
  cases stage with
  | notifyRunning =>
    cases hc
    cases hk
    exact .goes .notified
  | selectInput =>
    cases hc
    rcases x with e | _ | ⟨_ | path, sha⟩
    · cases hk
      exact .fails .selectInput (herr _)
    · cases hk
      exact .fails .selectInput (herr _)
    · cases hk
      exact .fails .selectInput (herr _)
    · dsimp only at hk
      split at hk
      · cases hk
        exact .fails .selectInput (herr _)
      · cases hk
        exact .goes .selected
  | readInput path sha =>
    cases hc
    rcases x with e | b <;> cases hk
    · exact .fails .readInput (herr _)
    · exact .goes .read
  | uploadImage path sha b =>
    cases hc
    rcases x with e | name <;> cases hk
    · exact .fails .uploadImage (herr _)
    · exact .goes .uploaded
  | newClientId name =>
    cases hc
    cases hk
    exact .goes .drew
  | connectWs name client =>
    cases hc
    rcases x with e | ⟨⟩ <;> cases hk
    · exact .fails .connectWs (herr _)
    · exact .goes .connected
  | submitPrompt name client =>
    cases hc
    rcases x with e | pid <;> cases hk
    · exact .fails .submitPrompt (herr _)
    · exact .goes (.submitted (submitted_name hex))
  | storePromptId client pid =>
    cases hc
    rcases exec_job hex with ⟨-, rfl, -⟩ | ⟨e, hf, rfl, -⟩ <;> cases hk
    · exact .goes .storedId
    · exact .fails (.storePromptId hf) (herr _)
  | spawnWriter client pid =>
    cases hc
    cases hk
    exact .goes .spawned
  | awaitCompletion client pid =>
    cases hc
    rcases x with _ | r <;> cases hk
    · exact .goes .waits
    · refine .goes (.ended fun hr => ?_)
      subst hr
      exact completed_ended hex
  | joinWriter client pid r =>
    cases hc
    cases r <;> cases hk
    · exact .goes .completed
    · exact .fails .joinWriter (herr _)
    · exact .goes .timedOut
  | interrupt client pid =>
    cases hc
    cases hk
    exact .fails .interrupt (herr _)
  | getHistory client pid =>
    cases hc
    rcases x with e | entry <;> cases hk
    · exact .fails .getHistory (herr _)
    · exact afterHistory_step job client pid entry
  | view client pid img =>
    cases hc
    rcases x with e | b
    · cases hk
      exact .fails .view (herr _)
    · dsimp only at hk
      split at hk
      · cases hk
        exact .fails .view (herr _)
      · rename_i hout
        cases hk
        exact .goes (.viewed hout)
  | writeOutput out b =>
    cases hc
    rcases x with e | ⟨⟩ <;> cases hk
    · exact .fails .writeOutput (herr _)
    · exact .goes (.wrote (written_isSome hex))
  | readDimensions out =>
    cases hc
    cases hk
    exact .goes .measured
  | markDone out wd ht =>
    cases hc
    rcases exec_job hex with ⟨-, rfl, rfl⟩ | ⟨e, hf, rfl, rfl⟩
    · dsimp only at hk
      split at hk
      · rename_i hn
        cases hk
        exact .done hn (.inl rfl)
      · rename_i hn
        cases hk
        exact .refused hn (.inl rfl)
    · cases hk
      exact .fails (.markDone hf) (herr _)
  | requeue =>
    cases hc
    cases hk
    exact .requeued (exec_ran hex)
  | markFailed e =>
    cases hc
    cases hk
    exact .failed (exec_ran hex)

/-- Outside every job, and past the startup reset. -/
def free : WorkerPc → Bool
  | .start | .claim _ | .process _ _ | .panicked _ => false
  | _ => true

inductive WorkerStep (w w' : World) (f : Fate) : WorkerPc → WorkerPc → List GeneratePc → Prop
  | reset (h : Ran w w' f .resetRunningJobs) : WorkerStep w w' f .start .outer []
  | fetched {row : JobRow} (hr : row ∈ w.db.jobs.rows) (hq : runnable row = true) (h : w' = w) :
      WorkerStep w w' f .fetch (.claim (.of row)) []
  | won {job : QueuedJob} (hn : w.db.jobs.affected (JobStmt.markRunning w.now job.id).update = 1)
      (h : Ran w w' .ok (.markRunning w.now job.id)) :
      WorkerStep w w' f (.claim job) (.process job .notifyRunning) []
  | lost {job : QueuedJob} (hn : w.db.jobs.affected (JobStmt.markRunning w.now job.id).update ≠ 1)
      (h : Ran w w' .ok (.markRunning w.now job.id)) : WorkerStep w w' f (.claim job) .notifyJob []
  | claimFails {job : QueuedJob} {pc : WorkerPc} {e : String} (hf : f = .sqlFails e)
      (h : ErrorArm job pc) : WorkerStep w w' f (.claim job) pc []
  | stage {job : QueuedJob} {stage : Stage} {pc : WorkerPc} {l : List GeneratePc}
      (h : StageStep w w' f job stage pc l) : WorkerStep w w' f (.process job stage) pc l
  | free {pc pc' : WorkerPc} (h : free pc = true) (h' : free pc' = true)
      (hdb : w'.db = w.db) : WorkerStep w w' f pc pc' []

/-- What the loop finds in the queue. -/
inductive Fetch (w : World) (f : Fate) : WorkerPc → Prop
  | failed {e : String} (h : f = .sqlFails e) : Fetch w f .fetchBackoff
  | empty (h : ∀ r ∈ w.db.jobs.rows, runnable r = false) : Fetch w f .idle
  | found {row : JobRow} (h : first? olderThan (w.db.jobs.rows.filter runnable) = some row) :
      Fetch w f (.claim (.of row))

theorem fetch_step {cfg : Config} {pc : WorkerPc} {f : Fate} {w w' : World} {l : List GeneratePc}
    (h : perform (WorkerPc.fetch.next cfg w.now) f w = some (w', pc, l)) :
    w' = w ∧ l = [] ∧ Fetch w f pc := by
  obtain ⟨c, k, x, hc, hex, hk⟩ := perform_eq_some.mp h
  cases hc
  rcases exec_sql rfl hex with ⟨-, rfl, rfl⟩ | ⟨e, rfl, rfl, rfl⟩
  · cases hrow : first? olderThan (w.db.jobs.rows.filter runnable) with
    | none =>
      rw [hrow] at hk
      cases hk
      refine ⟨rfl, rfl, .empty fun r hr => ?_⟩
      by_contra hrun
      have hmem := List.mem_filter.mpr ⟨hr, Bool.eq_true_of_not_eq_false hrun⟩
      rw [first?_eq_none hrow] at hmem
      cases hmem
    | some row =>
      rw [hrow] at hk
      cases hk
      exact ⟨rfl, rfl, .found hrow⟩
  · cases hk
    exact ⟨rfl, rfl, .failed rfl⟩

theorem worker_step {cfg : Config} {pc pc' : WorkerPc} {f : Fate} {w w' : World}
    {l : List GeneratePc} (h : perform (pc.next cfg w.now) f w = some (w', pc', l)) :
    WorkerStep w w' f pc pc' l := by
  cases pc with
  | process job stage => exact .stage (stage_step h)
  | start =>
    obtain ⟨c, k, x, hc, hex, hk⟩ := perform_eq_some.mp h
    cases hc
    cases hk
    exact .reset (exec_ran hex)
  | claim job =>
    obtain ⟨c, k, x, hc, hex, hk⟩ := perform_eq_some.mp h
    cases hc
    rcases exec_job hex with ⟨-, rfl, rfl⟩ | ⟨e, hf, rfl, rfl⟩
    · dsimp only at hk
      split at hk
      · rename_i hn
        cases hk
        exact .won hn (.inl rfl)
      · rename_i hn
        cases hk
        exact .lost hn (.inl rfl)
    · cases hk
      exact .claimFails hf (errorArm_cases job _)
  | fetch =>
    obtain ⟨rfl, rfl, hfetch⟩ := fetch_step h
    cases hfetch with
    | found hrow =>
      obtain ⟨hr, hq⟩ := List.mem_filter.mp (first?_mem hrow)
      exact .fetched hr hq rfl
    | failed _ | empty _ => exact .free rfl rfl rfl
  | stopped | panicked job => cases h
  | outer | inner | idle =>
    obtain ⟨c, k, x, hc, hex, hk⟩ := perform_eq_some.mp h
    cases hc
    cases x <;> (cases hk; exact .free rfl rfl (runtime_keeps hex).1)
  | _ =>
    obtain ⟨c, k, x, hc, hex, hk⟩ := perform_eq_some.mp h
    cases hc
    cases hk
    exact .free rfl rfl (runtime_keeps hex).1

/-- The worker moves on its own or dies with the process. -/
theorem worker_cases {cfg : Config} {s t : State} {a : Act} (h : Moved cfg s t a) :
    (∃ f l, a = .worker f ∧ WorkerStep s.world t.world f s.worker t.worker l ∧
      t.tasks = s.tasks ++ l.map .generate) ∨
    (t.worker = s.worker ∧ (∀ f, a ≠ .worker f) ∧ a ≠ .crash) ∨ (a = .crash ∧ t = s.restart) := by
  cases h with
  | worker h tasks => exact .inl ⟨_, _, rfl, worker_step h, tasks⟩
  | task hi h worker tasks => exact .inr (.inl ⟨worker, by simp, by simp⟩)
  | writer h worker tasks => exact .inr (.inl ⟨worker, by simp, by simp⟩)
  | arrive world worker tasks => exact .inr (.inl ⟨worker, by simp, by simp⟩)
  | drop hi live world worker tasks => exact .inr (.inl ⟨worker, by simp, by simp⟩)
  | env h worker tasks => exact .inr (.inl ⟨worker, by simp, by simp⟩)
  | crash h => exact .inr (.inr ⟨rfl, h⟩)

/-- A job whose processing goes on has been claimed just now, has come from another stage,
or stays where it was. -/
theorem stage_origin {cfg : Config} {s t : State} {a : Act} (h : Moved cfg s t a) {job : QueuedJob}
    {stage : Stage} (ht : t.worker = .process job stage) (hc : claimed stage = true) :
    (s.world.db.jobs.affected (JobStmt.markRunning s.world.now job.id).update = 1 ∧
      Ran s.world t.world .ok (.markRunning s.world.now job.id) ∧ s.worker = .claim job) ∨
    (∃ f stage', a = .worker f ∧ s.worker = .process job stage' ∧
      GoesOn s.world t.world f job stage' stage) ∨
    (s.worker = .process job stage ∧ ∀ f, a ≠ .worker f) := by
  rcases worker_cases h with ⟨f, l, ha, hw, -⟩ | ⟨hw, hne, -⟩ | ⟨-, rfl⟩
  · rw [ht] at hw
    generalize hpc : s.worker = pc at hw
    cases hw with
    | won hn hran => exact .inl ⟨hn, hran, rfl⟩
    | claimFails hf he => cases he <;> cases hc
    | stage hs =>
      cases hs with
      | goes hg => exact .inr (.inl ⟨f, _, ha, rfl, hg⟩)
      | fails _ he => cases he <;> cases hc
    | free _ h' => cases h'
  · exact .inr (.inr ⟨hw ▸ ht, hne⟩)
  · cases ht

end ZunServer.WorkerSteps
