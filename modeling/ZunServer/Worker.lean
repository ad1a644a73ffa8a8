import ZunServer.Redact
import ZunServer.Renditions

/-!
# The worker

`worker::run` and `worker::process_job`. A `Stage` is a place in `process_job`
after the claim, or the error arm of `run` that belongs to it; its name is that
of the call the worker is about to make there.
-/
namespace ZunServer.Worker

open Schema Statements Database Comfy Calls Renditions

inductive Stage where
  | notifyRunning
  | selectInput
  | readInput (path : DataPath) (sha256 : String)
  | uploadImage (path : DataPath) (sha256 : String) (b : Bytes)
  | newClientId (storedName : String)
  | connectWs (storedName clientId : String)
  | submitPrompt (storedName clientId : String)
  | storePromptId (clientId promptId : String)
  | spawnWriter (clientId promptId : String)
  | awaitCompletion (clientId promptId : String)
  | joinWriter (clientId promptId : String) (result : Ending)
  | interrupt (clientId promptId : String)
  | getHistory (clientId promptId : String)
  | view (clientId promptId : String) (img : HistoryImage)
  | writeOutput (out : DataPath) (b : Bytes)
  | readDimensions (out : DataPath)
  | markDone (out : DataPath) (width height : Option Int)
  | requeue
  | markFailed (stored : String)
  deriving DecidableEq, Repr

inductive WorkerPc where
  | start
  | outer
  | inner
  | fetch
  | claim (job : QueuedJob)
  | process (job : QueuedJob) (stage : Stage)
  | notifyJob
  | notifyRequeued
  | backoff
  | fetchBackoff
  | idle
  /-- Returned on shutdown. -/
  | stopped
  /-- Panicked in the error arm of the job; the supervisor exits the process. -/
  | panicked (job : QueuedJob)
  deriving DecidableEq, Repr

/-- The error arm of `run`: requeue when ComfyUI was not there, else store the
redacted chain and fail the job. -/
def errorArm (job : QueuedJob) (e : AnyError) : WorkerPc :=
  if e.unreachable then .process job .requeue
  else match Redact.redactInternal e.chain with
    | some stored => .process job (.markFailed stored)
    | none => .panicked job

/-- `anyhow!(..)`, or an error of another library, none of them `is_unreachable`. -/
def failWith (job : QueuedJob) (chain : String) : WorkerPc := errorArm job ⟨chain, false⟩

def uploadName (path : DataPath) (sha256 : String) : String :=
  "zun_" ++ sha256 ++ "." ++ String.ofList ((extension path.filename.toList).getD "jpg".toList)

def outputPrefix (jobId : String) : String := "zun_" ++ jobId

/-- What `process_job` makes of the answer of `/history`. -/
def afterHistory (job : QueuedJob) (clientId promptId : String) (entry : Option HistoryEntry) :
    WorkerPc :=
  match entry with
  | none => failWith job s!"comfy /history empty after completion for {promptId}"
  | some entry =>
    if ¬ entry.succeeded then
      let status := entry.statusStr.getD "unknown"
      failWith job s!"comfyui execution failed (status={status})"
    else match entry.primaryOutput (outputPrefix job.id) with
      | none =>
        failWith job ("no output image matched prefix `" ++ outputPrefix job.id ++
          "` in comfy history")
      | some img => .process job (.view clientId promptId img)

def Stage.next (cfg : Config) (now : Int) (job : QueuedJob) :
    Stage → Proc (WorkerPc × List GeneratePc)
  | .notifyRunning => some ⟨.runtime .notifyJobChange, fun _ => (.process job .selectInput, [])⟩
  | .selectInput => some ⟨.sql (.selectInputById job.inputId), fun
    | .error e => (failWith job e, [])
    | .ok none => (failWith job s!"input row {job.inputId} disappeared", [])
    | .ok (some (none, _)) => (failWith job s!"input file purged for input_id {job.inputId}", [])
    | .ok (some (some path, sha)) => match cfg.workflows.supportedTemplate job.workflow with
      | .error e => (failWith job e, [])
      | .ok _ => (.process job (.readInput path sha), [])⟩
  | .readInput path sha => some ⟨.file (.read path), fun
    | .error e => (failWith job s!"read input {cfg.dataDir}/{path.display}: {e}", [])
    | .ok b => (.process job (.uploadImage path sha b), [])⟩
  | .uploadImage path sha b => some ⟨.comfy (.uploadImage b (uploadName path sha)), fun
    | .error e => (errorArm job e, [])
    | .ok name => (.process job (.newClientId name), [])⟩
  | .newClientId name => some ⟨.runtime .newUuid, fun client =>
    (.process job (.connectWs name client), [])⟩
  | .connectWs name client => some ⟨.comfy (.connectWs client), fun
    | .error e => (errorArm job e, [])
    | .ok () => (.process job (.submitPrompt name client), [])⟩
  | .submitPrompt name client =>
    some ⟨.comfy (.submitPrompt ⟨job.workflow, job.promptText, name, job.id, job.seed⟩ client), fun
    | .error e => (errorArm job e, [])
    | .ok pid => (.process job (.storePromptId client pid), [])⟩
  | .storePromptId client pid => some ⟨.sql (.job (.updateComfyPromptId job.id pid)), fun
    | .error e => (failWith job e, [])
    | .ok _ => (.process job (.spawnWriter client pid), [])⟩
  | .spawnWriter client pid => some ⟨.runtime (.spawnProgressWriter job.id), fun _ =>
    (.process job (.awaitCompletion client pid), [])⟩
  | .awaitCompletion client pid => some ⟨.runtime (.nextFrame pid), fun
    | none => (.process job (.awaitCompletion client pid), [])
    | some r => (.process job (.joinWriter client pid r), [])⟩
  | .joinWriter client pid r => some ⟨.runtime .joinProgressWriter, fun _ =>
    match r with
    | .elapsed => (.process job (.interrupt client pid), [])
    | .failed e => (failWith job e, [])
    | .completed => (.process job (.getHistory client pid), [])⟩
  | .interrupt _ _ => some ⟨.comfy .interrupt, fun _ =>
    (failWith job s!"comfyui timeout after {clampTimeoutSeconds job.timeoutSeconds}s", [])⟩
  | .getHistory client pid => some ⟨.comfy (.getHistory pid), fun
    | .error e => (errorArm job e, [])
    | .ok entry => (afterHistory job client pid entry, [])⟩
  | .view _ _ img => some ⟨.comfy (.view img), fun
    | .error e => (errorArm job e, [])
    | .ok b => match dataPath .outputs img.filename with
      | .error e => (failWith job e, [])
      | .ok out => (.process job (.writeOutput out b), [])⟩
  | .writeOutput out b => some ⟨.file (.atomicWrite out b), fun
    | .error e => (failWith job e, [])
    | .ok () => (.process job (.readDimensions out), [])⟩
  | .readDimensions out => some ⟨.runtime .imageDimensions, fun d =>
    (.process job (.markDone out (d.map Prod.fst) (d.map Prod.snd)), [])⟩
  -- A refused completion is not an error: a cancel or a delete won the race.
  | .markDone out w h => some ⟨.sql (.job (.markDone now job.id out w h)), fun
    | .error e => (failWith job e, [])
    | .ok n => if n = 1 then (.notifyJob, [GeneratePc.start job.id out]) else (.notifyJob, [])⟩
  | .requeue => some ⟨.sql (.job (.requeue job.id)), fun _ => (.notifyRequeued, [])⟩
  | .markFailed stored => some ⟨.sql (.job (.markFailed now job.id stored)), fun _ =>
    (.notifyJob, [])⟩

/-- One call of `run`; the tasks it leaves behind are spawned with it. -/
def WorkerPc.next (cfg : Config) (now : Int) : WorkerPc → Proc (WorkerPc × List GeneratePc)
  | .start => some ⟨.sql (.job .resetRunningJobs), fun _ => (.outer, [])⟩
  | .outer => some ⟨.runtime .shutdownRequested, fun
    | true => (.stopped, [])
    | false => (.inner, [])⟩
  | .inner => some ⟨.runtime .shutdownRequested, fun
    | true => (.stopped, [])
    | false => (.fetch, [])⟩
  | .fetch => some ⟨.sql .fetchOldestQueued, fun
    | .error _ => (.fetchBackoff, [])
    | .ok none => (.idle, [])
    | .ok (some job) => (.claim job, [])⟩
  | .claim job => some ⟨.sql (.job (.markRunning now job.id)), fun
    | .error e => (failWith job e, [])
    | .ok n => if n = 1 then (.process job .notifyRunning, []) else (.notifyJob, [])⟩
  | .process job stage => stage.next cfg now job
  | .notifyJob => some ⟨.runtime .notifyJobChange, fun _ => (.inner, [])⟩
  | .notifyRequeued => some ⟨.runtime .notifyJobChange, fun _ => (.backoff, [])⟩
  | .backoff => some ⟨.runtime .sleep, fun _ => (.idle, [])⟩
  | .fetchBackoff => some ⟨.runtime .sleep, fun _ => (.idle, [])⟩
  | .idle => some ⟨.runtime .idle, fun
    | .shutdown => (.stopped, [])
    | .woken | .tick => (.outer, [])⟩
  | .stopped => none
  | .panicked _ => none

end ZunServer.Worker
