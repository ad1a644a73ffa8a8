import ZunServer.Redact
import ZunServer.Calls

/-!
# The job handlers

`submit_job` with `resolve_prompt` and `resolve_input`, `cancel_job`,
`delete_job`, `restore_job` and `get_job`. The clock is read where the handler
reads it.
-/
namespace ZunServer.Handlers

open Schema Statements Database Calls

inductive ImageKind where
  | jpeg | png
  deriving DecidableEq, Repr

def ImageKind.ext : ImageKind → String
  | .jpeg => "jpg"
  | .png => "png"

def ImageKind.contentType : ImageKind → String
  | .jpeg => "image/jpeg"
  | .png => "image/png"

structure Upload where
  bytes : Bytes
  kind : ImageKind
  deriving DecidableEq, Repr

/-- `SubmitFields`; `upload` is absent from a JSON submit. -/
structure SubmitFields where
  inputSha256 : String
  inputName : Option String
  promptId : Option Int
  promptText : Option String
  workflowOverride : Option String
  upload : Option Upload
  deriving DecidableEq, Repr

/-- What `resolve_prompt` returns. -/
structure Resolved where
  workflow : String
  promptText : String
  sourcePromptId : Option Int
  timeoutSeconds : Int
  deriving DecidableEq, Repr

/-- `hash::is_valid_sha256_hex`. -/
def isValidSha256Hex (s : String) : Bool :=
  s.utf8ByteSize = 64 ∧ s.toList.all (fun c => c.isDigit ∨ ('a' ≤ c ∧ c ≤ 'f'))

inductive SubmitPc where
  | selectPrompt (f : SubmitFields) (promptId : Int)
  | selectInput (f : SubmitFields) (p : Resolved) (now : Int)
  | stat (f : SubmitFields) (p : Resolved) (now id : Int) (path : DataPath)
  | touch (f : SubmitFields) (p : Resolved) (now id : Int)
  | clearPath (f : SubmitFields) (p : Resolved) (now id : Int)
  | write (f : SubmitFields) (p : Resolved) (now : Int) (row : Option Int) (u : Upload)
      (path : DataPath)
  | dimensions (f : SubmitFields) (p : Resolved) (now : Int) (row : Option Int) (u : Upload)
      (path : DataPath)
  | updateInput (f : SubmitFields) (p : Resolved) (now id : Int) (fields : InputFields)
  | insertInput (f : SubmitFields) (p : Resolved) (now : Int) (fields : InputFields)
  | newJobId (p : Resolved) (inputId : Int)
  | seed (p : Resolved) (inputId : Int) (jobId : String)
  | insertJob (p : Resolved) (inputId : Int) (jobId : String) (seed : Int)
  | wakeWorker (inputId : Int) (jobId : String)
  | answered (r : Response)
  deriving DecidableEq, Repr

namespace SubmitPc

def refuse (e : AppError) : SubmitPc := .answered (.error e)
def badRequest (e : String) : SubmitPc := refuse (.badRequest e)
def fail (e : String) : SubmitPc := refuse (.internal e)

/-- The start of `resolve_input`: the bytes are checked against the claimed hash
before the cache is consulted. -/
def resolveInput (cfg : Config) (now : Int) (f : SubmitFields) (p : Resolved) : SubmitPc :=
  match f.upload with
  | none => .selectInput f p now
  | some u =>
    let actual := cfg.sha256Hex u.bytes
    if actual ≠ f.inputSha256 then
      badRequest s!"image bytes hash {actual} does not match input_sha256 {f.inputSha256}"
    else .selectInput f p now

/-- `resolve_prompt` for a free-form `prompt_text`. -/
def resolveText (cfg : Config) (now : Int) (f : SubmitFields) (text : String) : SubmitPc :=
  match f.workflowOverride with
  | none => badRequest "workflow field required when prompt_text is set"
  | some workflow => match cfg.workflows.supports workflow with
    | .error e => badRequest e
    | .ok () =>
      if text.toList.all Redact.isWhitespace then badRequest "prompt_text must be non-empty"
      else if text.utf8ByteSize > maxPromptLen then
        badRequest s!"prompt_text must be at most {maxPromptLen} bytes"
      else resolveInput cfg now f ⟨workflow, text, none, defaultTimeoutSeconds⟩

/-- `submit_job` up to its first statement. -/
def start (cfg : Config) (now : Int) (f : SubmitFields) : SubmitPc :=
  if ¬ isValidSha256Hex f.inputSha256 then
    badRequest "input_sha256 must be 64 lowercase hex chars"
  else if f.inputName.any (fun n => n.utf8ByteSize > maxInputNameLen) then
    badRequest s!"input_name must be at most {maxInputNameLen} bytes"
  else match f.promptId, f.promptText with
    | some _, some _ => badRequest "supply prompt_id OR prompt_text, not both"
    | none, none => badRequest "one of prompt_id or prompt_text is required"
    | some pid, none => .selectPrompt f pid
    | none, some text => resolveText cfg now f text

/-- `resolve_input` once the row, if any, is known to have no file. -/
def needUpload (f : SubmitFields) (p : Resolved) (now : Int) (row : Option Int) : SubmitPc :=
  match f.upload with
  | none => refuse (.needUpload row)
  | some u => match dataPath .cacheInputs (f.inputSha256 ++ "." ++ u.kind.ext) with
    | .error e => fail e
    | .ok path => .write f p now row u path

def next (cfg : Config) (now : Int) : SubmitPc → Proc SubmitPc
  | .selectPrompt f pid => some ⟨.sql (.selectPrompt pid), fun
    | .error e => fail e
    | .ok none => badRequest s!"unknown prompt_id: {pid}"
    | .ok (some (text, workflow, timeout)) => match cfg.workflows.supports workflow with
      | .error e => badRequest e
      | .ok () => resolveInput cfg now f ⟨workflow, text, some pid, clampTimeoutSeconds timeout⟩⟩
  | .selectInput f p now => some ⟨.sql (.selectInputBySha f.inputSha256), fun
    | .error e => fail e
    | .ok none => needUpload f p now none
    | .ok (some (id, none)) => needUpload f p now (some id)
    | .ok (some (id, some path)) => .stat f p now id path⟩
  | .stat f p now id path => some ⟨.file (.metadata path), fun
    | true => .touch f p now id
    | false => .clearPath f p now id⟩
  | .touch _ p now id => some ⟨.sql (.touchInput now id), fun
    | .error e => fail e
    | .ok () => .newJobId p id⟩
  | .clearPath f p now id => some ⟨.sql (.clearInputPath id), fun
    | .error e => fail e
    | .ok () => needUpload f p now (some id)⟩
  | .write f p now row u path => some ⟨.file (.atomicWrite path u.bytes), fun
    | .error e => fail e
    | .ok () => .dimensions f p now row u path⟩
  | .dimensions f p now row u path => some ⟨.runtime .imageDimensions, fun d =>
    let fields := ⟨path, f.inputName, u.kind.contentType, u.bytes.length, d.map Prod.fst,
      d.map Prod.snd⟩
    match row with
    | some id => .updateInput f p now id fields
    | none => .insertInput f p now fields⟩
  | .updateInput _ p now id fields => some ⟨.sql (.storeInput now id fields), fun
    | .error e => fail e
    | .ok () => .newJobId p id⟩
  | .insertInput f p now fields => some ⟨.sql (.insertInput f.inputSha256 now fields), fun
    | .error e => fail e
    | .ok id => .newJobId p id⟩
  | .newJobId p inputId => some ⟨.runtime .newUuid, fun id => .seed p inputId id⟩
  | .seed p inputId id => some ⟨.runtime .randomSeed, fun n => .insertJob p inputId id n⟩
  | .insertJob p inputId id n =>
    some ⟨.sql (.insertJob (newJob id inputId p.sourcePromptId p.promptText p.workflow
      p.timeoutSeconds n now)), fun
    | .error e => fail e
    | .ok () => .wakeWorker inputId id⟩
  | .wakeWorker inputId id => some ⟨.runtime .tryWake, fun _ => .answered (.accepted id inputId)⟩
  | .answered _ => none

theorem resolveInput_cases (cfg : Config) (now : Int) (f : SubmitFields) (p : Resolved) :
    (∃ e, resolveInput cfg now f p = badRequest e) ∨
      resolveInput cfg now f p = .selectInput f p now := by
  unfold resolveInput
  split
  · exact .inr rfl
  · dsimp only
    split
    · exact .inl ⟨_, rfl⟩
    · exact .inr rfl

/-- A text of the client's own is refused, or it has passed the checks and the input is next. -/
theorem resolveText_cases (cfg : Config) (now : Int) (f : SubmitFields) (text : String) :
    (∃ e, resolveText cfg now f text = badRequest e) ∨
      ∃ workflow, cfg.workflows.supports workflow = .ok () ∧
        text.toList.all Redact.isWhitespace = false ∧ text.utf8ByteSize ≤ maxPromptLen ∧
        resolveText cfg now f text =
          resolveInput cfg now f ⟨workflow, text, none, defaultTimeoutSeconds⟩ := by
  unfold resolveText
  split
  · exact .inl ⟨_, rfl⟩
  · split
    · exact .inl ⟨_, rfl⟩
    · rename_i hflow
      split
      · exact .inl ⟨_, rfl⟩
      · rename_i hblank
        split
        · exact .inl ⟨_, rfl⟩
        · rename_i hlen
          exact .inr ⟨_, hflow, by simpa using hblank, Nat.le_of_not_lt hlen, rfl⟩

/-- A request is refused, or its hash is well formed and either its prompt is looked up or its
text has passed the checks. -/
theorem start_resolves (cfg : Config) (now : Int) (f : SubmitFields) :
    (∃ e, start cfg now f = badRequest e) ∨ isValidSha256Hex f.inputSha256 = true ∧
      ((∃ pid, start cfg now f = .selectPrompt f pid) ∨
        ∃ workflow text, cfg.workflows.supports workflow = .ok () ∧
          text.toList.all Redact.isWhitespace = false ∧ text.utf8ByteSize ≤ maxPromptLen ∧
          start cfg now f =
            resolveInput cfg now f ⟨workflow, text, none, defaultTimeoutSeconds⟩) := by
  unfold start
  split
  · exact .inl ⟨_, rfl⟩
  · rename_i hvalid
    have hsha : isValidSha256Hex f.inputSha256 = true := Classical.not_not.mp hvalid
    split
    · exact .inl ⟨_, rfl⟩
    · split
      · exact .inl ⟨_, rfl⟩
      · exact .inl ⟨_, rfl⟩
      · exact .inr ⟨hsha, .inl ⟨_, rfl⟩⟩
      · exact (resolveText_cases cfg now f _).imp_right fun ⟨workflow, h⟩ =>
          ⟨hsha, .inr ⟨workflow, _, h⟩⟩

theorem start_cases (cfg : Config) (now : Int) (f : SubmitFields) :
    (∃ e, start cfg now f = badRequest e) ∨ isValidSha256Hex f.inputSha256 = true ∧
      ((∃ pid, start cfg now f = .selectPrompt f pid) ∨
        ∃ p, start cfg now f = .selectInput f p now) := by
  rcases start_resolves cfg now f with h | ⟨hsha, h | ⟨workflow, text, -, -, -, h⟩⟩
  · exact .inl h
  · exact .inr ⟨hsha, .inl h⟩
  · rcases resolveInput_cases cfg now f ⟨workflow, text, none, defaultTimeoutSeconds⟩ with ⟨e, he⟩ | he
    · exact .inl ⟨e, h.trans he⟩
    · exact .inr ⟨hsha, .inr ⟨_, h.trans he⟩⟩

theorem needUpload_cases (f : SubmitFields) (p : Resolved) (now : Int) (row : Option Int) :
    (∃ e, needUpload f p now row = refuse e) ∨
      ∃ u path, dataPath .cacheInputs (f.inputSha256 ++ "." ++ u.kind.ext) = .ok path ∧
        needUpload f p now row = .write f p now row u path := by
  unfold needUpload
  split
  · exact .inl ⟨_, rfl⟩
  · split
    · exact .inl ⟨_, rfl⟩
    · rename_i hpath
      exact .inr ⟨_, _, hpath, rfl⟩

end SubmitPc

inductive CancelPc where
  | tryRunning (jobId : String) (now : Int)
  | tryQueued (jobId : String) (now : Int)
  | retryRunning (jobId : String) (now : Int)
  | interrupt (jobId : String)
  | notify (jobId : String)
  | answered (jobId : String) (r : Response)
  deriving DecidableEq, Repr

/-- `/interrupt` is sent only when the row was taken from `running`, and a
failure of it is only logged. -/
def CancelPc.next : CancelPc → Proc CancelPc
  | .tryRunning id now => some ⟨.sql (.job (.cancelRunning now id)), fun
    | .error e => .answered id (.error (.internal e))
    | .ok n => if n = 1 then .interrupt id else .tryQueued id now⟩
  | .tryQueued id now => some ⟨.sql (.job (.cancelQueued now id)), fun
    | .error e => .answered id (.error (.internal e))
    | .ok n => if n = 0 then .retryRunning id now else .notify id⟩
  | .retryRunning id now => some ⟨.sql (.job (.cancelRunning now id)), fun
    | .error e => .answered id (.error (.internal e))
    | .ok n => if n = 0 then .answered id (.error .notFound) else .interrupt id⟩
  | .interrupt id => some ⟨.comfy .interrupt, fun _ => .notify id⟩
  | .notify id => some ⟨.runtime .notifyJobChange, fun _ => .answered id .noContent⟩
  | .answered _ _ => none

/-- Which of the two `UPDATE`s of `deleted_at` a request is for. -/
inductive HideKind where
  | delete | restore
  deriving DecidableEq, Repr

def HideKind.stmt (now : Int) (jobId : String) : HideKind → JobStmt
  | .delete => .deleteJob now jobId
  | .restore => .restoreJob jobId

inductive HidePc where
  | update (kind : HideKind) (jobId : String) (now : Int)
  | notify (kind : HideKind) (jobId : String)
  | answered (kind : HideKind) (jobId : String) (r : Response)
  deriving DecidableEq, Repr

def HidePc.next : HidePc → Proc HidePc
  | .update k id now => some ⟨.sql (.job (k.stmt now id)), fun
    | .error e => .answered k id (.error (.internal e))
    | .ok n => if n = 0 then .answered k id (.error .notFound) else .notify k id⟩
  | .notify k id => some ⟨.runtime .notifyJobChange, fun _ => .answered k id .noContent⟩
  | .answered _ _ _ => none

def maxWaitSeconds : Nat := 30

/-- `row` is what the handler last kept of the job, from `subscribe` on the row
of the initial pair; `seen` is the `job_events` version its receiver has seen. -/
inductive GetPc where
  | selectRow (jobId : String) (wait : Option Nat)
  | subscribe (row : JobFullRow)
  | checkDeadline (row : JobFullRow) (seen : Nat)
  | changed (row : JobFullRow) (seen : Nat)
  | reread (row : JobFullRow) (seen : Nat)
  | countAhead (row : JobFullRow)
  | answered (r : Response)
  deriving DecidableEq, Repr

namespace GetPc

/-- The status and the progress that a long poll compares. -/
def pair (r : JobFullRow) : Status × ℚ := (r.status, r.progress)

/-- The end of `get_job`; only a queued job has a position. -/
def finish (row : JobFullRow) : GetPc :=
  if row.status = .queued then .countAhead row else .answered (.job row none)

def fail (e : String) : GetPc := .answered (.error (.internal e))

def next : GetPc → Proc GetPc
  | .selectRow id wait => some ⟨.sql (.fetchJobRow id), fun
    | .error e => fail e
    | .ok none => .answered (.error .notFound)
    | .ok (some row) =>
      if 0 < min (wait.getD 0) maxWaitSeconds ∧ row.status.live = true then .subscribe row
      else finish row⟩
  | .subscribe row => some ⟨.runtime .subscribe, fun seen => .checkDeadline row seen⟩
  | .checkDeadline row seen => some ⟨.runtime .deadlinePassed, fun
    | true => finish row
    | false => .changed row seen⟩
  -- The signal and the fallback tick lead to the same re-read.
  | .changed row seen => some ⟨.runtime (.changed seen), fun seen => .reread row seen⟩
  | .reread row seen => some ⟨.sql (.fetchJobRow row.id), fun
    | .error e => fail e
    | .ok none => .answered (.error .notFound)
    | .ok (some current) =>
      if pair current ≠ pair row then finish current else .checkDeadline row seen⟩
  | .countAhead row => some ⟨.sql (.countAhead row.createdAt row.id), fun
    | .error e => fail e
    | .ok ahead => .answered (.job row (some ahead))⟩
  | .answered _ => none

end GetPc

end ZunServer.Handlers
