import ZunServer.Comfy
import ZunServer.Database

/-!
# The world the tasks share

The server is a set of asynchronous tasks over one shared state: the database,
the files under `data_dir`, ComfyUI, the wake channel, the progress channel. A
task is always about to make one call; a step makes the call, under a fate the
environment chose for it, and the task goes on with the answer.
-/
namespace ZunServer.Calls

open KeyedTable
open Schema Statements Database Comfy

def maxPromptLen : Nat := 8 * 1024
def maxInputNameLen : Nat := 255
def defaultTimeoutSeconds : Int := 120
def minTimeoutSeconds : Int := 1
def maxTimeoutSeconds : Int := 1800

def clampTimeoutSeconds : Option Int → Int
  | some t => max minTimeoutSeconds (min t maxTimeoutSeconds)
  | none => defaultTimeoutSeconds

structure WorkflowSupport where
  supported : Bool
  reason : Option String
  deriving DecidableEq, Repr

/-- `WorkflowRegistry`; a template is known by the name it is filed under. -/
structure WorkflowRegistry where
  templates : List String
  support : List (String × WorkflowSupport)
  deriving DecidableEq, Repr

def WorkflowRegistry.supports (w : WorkflowRegistry) (name : String) : Except String Unit :=
  match w.support.lookup name with
  | some s =>
    let reason := s.reason.getD "unsupported"
    if s.supported then .ok ()
    else .error s!"workflow '{name}' is not supported by this server: {reason}"
  | none => .error s!"unknown workflow: {name}"

def WorkflowRegistry.supportedTemplate (w : WorkflowRegistry) (name : String) :
    Except String String :=
  match w.supports name with
  | .ok () => if name ∈ w.templates then .ok name else .error s!"unknown workflow: {name}"
  | .error e => .error e

/-- The parts of `AppState` that never change; `sha256Hex` is `hash::sha256_hex`. -/
structure Config where
  dataDir : String
  sha256Hex : Bytes → String
  workflows : WorkflowRegistry

/-- An `anyhow::Error`: its printed chain, and whether it says that ComfyUI was
not there (`comfy::is_unreachable`). -/
structure AnyError where
  chain : String
  unreachable : Bool
  deriving DecidableEq, Repr

inductive FileCall where
  | metadata (p : DataPath)
  | read (p : DataPath)
  | atomicWrite (p : DataPath) (b : Bytes)
  | removeFile (p : DataPath)
  | render (output dst : DataPath)
  deriving DecidableEq, Repr

inductive Removal where
  | removed
  | notFound
  | failed (e : String)
  deriving DecidableEq, Repr

@[reducible] def FileCall.Answer : FileCall → Type
  | .metadata _ => Bool
  | .read _ => Except String Bytes
  | .atomicWrite _ _ | .render _ _ => Except String Unit
  | .removeFile _ => Removal

inductive ComfyCall where
  | uploadImage (b : Bytes) (filename : String)
  | connectWs (clientId : String)
  | submitPrompt (workflow : EditWorkflow) (clientId : String)
  | interrupt
  | getHistory (promptId : String)
  | view (img : HistoryImage)
  deriving DecidableEq, Repr

@[reducible] def ComfyCall.Result : ComfyCall → Type
  | .uploadImage _ _ | .submitPrompt _ _ => String
  | .connectWs _ | .interrupt => Unit
  | .getHistory _ => Option HistoryEntry
  | .view _ => Bytes

/-- How `await_completion`, under its timeout, comes to an end. -/
inductive Ending where
  | completed
  | failed (e : String)
  | elapsed
  deriving DecidableEq, Repr

inductive Idle where
  | woken | tick | shutdown
  deriving DecidableEq, Repr

inductive RuntimeCall where
  | newUuid
  | randomSeed
  | imageDimensions
  | tryWake
  | idle
  | sleep
  | shutdownRequested
  | notifyJobChange
  | spawnProgressWriter (jobId : String)
  | nextFrame (promptId : String)
  | joinProgressWriter
  /-- A receiver of `job_events`, known by the version it has seen. -/
  | subscribe
  | deadlinePassed
  /-- `events.changed()` under `timeout_at`. -/
  | changed (seen : Nat)
  deriving DecidableEq, Repr

@[reducible] def RuntimeCall.Answer : RuntimeCall → Type
  | .newUuid => String
  | .randomSeed => Int
  | .imageDimensions => Option (Int × Int)
  | .idle => Idle
  | .shutdownRequested => Bool
  | .nextFrame _ => Option Ending
  | .subscribe | .changed _ => Nat
  | .deadlinePassed => Bool
  | .tryWake | .sleep | .notifyJobChange | .spawnProgressWriter _ | .joinProgressWriter => Unit

inductive Call where
  | sql (q : Sql)
  | file (q : FileCall)
  | comfy (q : ComfyCall)
  | runtime (q : RuntimeCall)
  deriving DecidableEq, Repr

@[reducible] def Call.Answer : Call → Type
  | .sql q => Except String q.Result
  | .file q => q.Answer
  | .comfy q => Except AnyError q.Result
  | .runtime q => q.Answer

/-- A task that is about to make a call, or is over. -/
abbrev Proc (τ : Type) := Option ((c : Call) × (c.Answer → τ))

def Proc.map {τ υ : Type} (g : τ → υ) (p : Proc τ) : Proc υ :=
  Option.map (fun ⟨c, k⟩ => ⟨c, fun a => g (k a)⟩) p

theorem Proc.map_eq_some {τ υ : Type} {g : τ → υ} {p : Proc τ} {c : Call} {k : c.Answer → υ} :
    p.map g = some ⟨c, k⟩ ↔ ∃ k₀, p = some ⟨c, k₀⟩ ∧ k = fun a => g (k₀ a) := by
  cases p with
  | none => simp [Proc.map]
  | some ck =>
    obtain ⟨c₀, k₀⟩ := ck
    constructor
    · intro h
      cases h
      exact ⟨k₀, rfl, rfl⟩
    · rintro ⟨k₁, hp, rfl⟩
      cases hp
      rfl

/-- What the environment decides about one call. -/
inductive Fate where
  | ok
  | sqlFails (e : String)
  | ioFails (e : String)
  | httpFails (e : String)
  | unreachable (e : String)
  /-- The request was served, but no usable answer came back. -/
  | answerLost (promptId e : String)
  | name (s : String)
  | body (b : Bytes)
  | history (h : Option HistoryEntry)
  | frame (f : Frame)
  | elapsed
  | stop
  | drew (id : String)
  | seed (u : UInt64)
  | dimensions (d : Option (Int × Int))
  deriving DecidableEq, Repr

/-- The progress writer of `process_job` and its channel. `bump` is set between
its `UPDATE` and the `job_events` bump that follows it. -/
structure Writer where
  jobId : String
  channel : List ℚ
  lastWritten : ℚ
  bump : Bool
  deriving DecidableEq, Repr

/-- `issued` are the UUIDs drawn so far, `wake` the token of the one-slot wake
channel, `events` the `job_events` version. -/
structure World where
  db : Db
  files : Files
  comfy : Backend
  now : Int
  issued : List String
  wake : Bool
  events : Nat
  writer : Option Writer
  shutdown : Bool

def World.empty : World where
  db := Db.empty
  files := fun _ => none
  comfy := Backend.idle
  now := 0
  issued := []
  wake := false
  events := 0
  writer := none
  shutdown := false

/-- A statement that fails has changed nothing. -/
def execSql (w : World) (q : Sql) : Fate → Option (World × Except String q.Result)
  | .ok => match q.run w.db with
    | .ok (db, a) => some ({ w with db := db }, .ok a)
    | .error e => some (w, .error e)
  | .sqlFails e => some (w, .error e)
  | _ => none

/-- `atomicWrite` is one step here, the rename. The staging file that it leaves where the process
dies in the middle of it is in `AtomicWrites`, and not among these files. -/
def execFile (w : World) : (q : FileCall) → Fate → Option (World × q.Answer)
  | .metadata p, .ok => some (w, (w.files p).isSome)
  | .metadata _, .ioFails _ => some (w, false)
  | .read p, .ok => some (w, match w.files p with
    | some b => .ok b
    | none => .error "No such file or directory (os error 2)")
  | .read _, .ioFails e => some (w, .error e)
  | .atomicWrite p b, .ok => some ({ w with files := w.files.put p (some b) }, .ok ())
  | .atomicWrite _ _, .ioFails e => some (w, .error e)
  | .removeFile p, .ok => some ({ w with files := w.files.put p none },
      if (w.files p).isSome then .removed else .notFound)
  | .removeFile _, .ioFails e => some (w, .failed e)
  | .render output dst, .body b =>
    if (w.files output).isSome then some ({ w with files := w.files.put dst (some b) }, .ok ())
    else none
  | .render _ _, .ioFails e => some (w, .error e)
  | _, _ => none

/-- ComfyUI's answers. `submit_prompt` is retried only while no connection was
made, so one call is accepted at most once. -/
def execComfy (w : World) : (q : ComfyCall) → Fate → Option (World × Except AnyError q.Result)
  | .uploadImage _ _, .name s => some (w, .ok s)
  | .connectWs _, .ok => some (w, .ok ())
  | .submitPrompt wf client, .name id =>
    (w.comfy.accept ⟨id, client, some wf⟩).map fun b => ({ w with comfy := b }, .ok id)
  | .submitPrompt wf client, .answerLost id e =>
    (w.comfy.accept ⟨id, client, some wf⟩).map fun b => ({ w with comfy := b }, .error ⟨e, false⟩)
  | .interrupt, .ok => some ({ w with comfy := w.comfy.stop }, .ok ())
  | .interrupt, .answerLost _ e => some ({ w with comfy := w.comfy.stop }, .error ⟨e, false⟩)
  | .getHistory _, .history h => some (w, .ok h)
  | .view _, .body b => some (w, .ok b)
  | .connectWs _, .httpFails e => some (w, .error ⟨e, true⟩)
  | _, .unreachable e => some (w, .error ⟨e, true⟩)
  | _, .httpFails e => some (w, .error ⟨e, false⟩)
  | _, _ => none

/-- One frame on the WebSocket; `none` keeps waiting. ComfyUI sends a terminal
frame of a prompt only once the prompt has ended. -/
def execFrame (w : World) (promptId : String) : Fate → Option (World × Option Ending)
  | .frame (.progress value max) => match progressFraction value max, w.writer with
    | some p, some wr => some ({ w with writer := some { wr with channel := wr.channel ++ [p] } }, none)
    | _, _ => some (w, none)
  | .frame .executingNull => if promptId ∈ w.comfy.ended then some (w, some .completed) else none
  | .frame (.executionError d) =>
    if promptId ∈ w.comfy.ended then some (w, some (.failed s!"comfyui execution_error: {d}"))
    else none
  | .frame .other => some (w, none)
  | .frame .close => some (w, some (.failed "comfy ws closed before completion"))
  | .frame (.transportError e) => some (w, some (.failed s!"comfy ws error: {e}"))
  | .frame .streamEnd => some (w, some (.failed "comfy ws stream ended before completion"))
  | .elapsed => some (w, some .elapsed)
  | _ => none

/-- The hyphenated form of a version 4 UUID, as far as anything relies on it. -/
def isUuid (id : String) : Prop :=
  id.length = 36 ∧ ∀ c ∈ id.toList, c.isDigit ∨ ('a' ≤ c ∧ c ≤ 'f') ∨ c = '-'

-- through `List.all`: a quantifier over `Char` may be decided by trying every character
instance (id : String) : Decidable (isUuid id) :=
  decidable_of_iff (id.length = 36 ∧
    (id.toList.all fun c => c.isDigit ∨ ('a' ≤ c ∧ c ≤ 'f') ∨ c = '-') = true) (by
      simp [isUuid])

/-- `random_seed`, of the number drawn: `(u >> 1) as i64`. -/
def randomSeed (u : UInt64) : Int := (u >>> 1).toInt64.toInt

theorem randomSeed_nonneg (u : UInt64) : 0 ≤ randomSeed u := by
  have hhalf : (u >>> 1).toNat = u.toNat / 2 := by
    simp [UInt64.toNat_shiftRight, Nat.shiftRight_eq_div_pow]
  have hseed : randomSeed u = (u >>> 1).toNat := by
    rw [randomSeed, ← Int64.toInt_toBitVec, UInt64.toBitVec_toInt64, BitVec.toInt_eq_toNat_of_lt]
    · rfl
    · have hu := u.toNat_lt
      rw [UInt64.toNat_toBitVec]
      omega
  rw [hseed]
  exact Int.natCast_nonneg _

/-- Of UUIDs the server relies on that no two draws agree. -/
def execRuntime (w : World) : (q : RuntimeCall) → Fate → Option (World × q.Answer)
  | .newUuid, .drew id =>
    if isUuid id ∧ id ∉ w.issued then some ({ w with issued := id :: w.issued }, id) else none
  | .imageDimensions, .dimensions d => some (w, d)
  | .tryWake, .ok => some ({ w with wake := true }, ())
  | .idle, .ok => if w.wake then some ({ w with wake := false }, .woken) else none
  | .idle, .elapsed => some (w, .tick)
  | .idle, .stop => if w.shutdown then some (w, .shutdown) else none
  | .sleep, .elapsed => some (w, ())
  | .shutdownRequested, .ok => some (w, w.shutdown)
  | .notifyJobChange, .ok => some ({ w with events := w.events + 1 }, ())
  | .spawnProgressWriter id, .ok => some ({ w with writer := some ⟨id, [], 0, false⟩ }, ())
  | .nextFrame id, f => execFrame w id f
  | .joinProgressWriter, .ok => match w.writer with
    | some ⟨_, [], _, false⟩ => some ({ w with writer := none }, ())
    | _ => none
  | .subscribe, .ok => some (w, w.events)
  | .deadlinePassed, .ok => some (w, false)
  | .deadlinePassed, .elapsed => some (w, true)
  | .changed seen, .ok => if seen < w.events then some (w, w.events) else none
  | .changed seen, .elapsed => some (w, seen)
  | .randomSeed, .seed u => some (w, randomSeed u)
  | _, _ => none

/-- Make a call. `none`: the fate does not apply to it, or the call blocks. -/
def exec (w : World) : (c : Call) → Fate → Option (World × c.Answer)
  | .sql q, f => execSql w q f
  | .file q, f => execFile w q f
  | .comfy q, f => execComfy w q f
  | .runtime q, f => execRuntime w q f

/-- One step of a task: its call, and what the task becomes. -/
def perform {τ : Type} (p : Proc τ) (f : Fate) (w : World) : Option (World × τ) :=
  p.bind fun ⟨c, k⟩ => (exec w c f).map fun (w', a) => (w', k a)

theorem perform_eq_some {τ : Type} {p : Proc τ} {f : Fate} {w w' : World} {t : τ} :
    perform p f w = some (w', t) ↔
      ∃ (c : Call) (k : c.Answer → τ) (a : c.Answer), p = some ⟨c, k⟩ ∧
        exec w c f = some (w', a) ∧ k a = t := by
  cases p with
  | none => simp [perform]
  | some ck =>
    obtain ⟨c, k⟩ := ck
    simp only [perform, Option.bind_some, Option.map_eq_some_iff, Prod.exists, Prod.mk.injEq,
      Option.some.injEq]
    constructor
    · rintro ⟨w₁, a, h, rfl, rfl⟩
      exact ⟨c, k, a, rfl, h, rfl⟩
    · rintro ⟨c', k', a, hck, h, rfl⟩
      cases hck
      exact ⟨w', a, h, rfl, rfl⟩

theorem perform_map {τ υ : Type} {g : τ → υ} {p : Proc τ} {f : Fate} {w w' : World} {u : υ} :
    perform (p.map g) f w = some (w', u) ↔ ∃ t, perform p f w = some (w', t) ∧ g t = u := by
  cases p with
  | none => simp [perform, Proc.map]
  | some ck => simp [perform, Proc.map]

/-- The step the progress writer takes on its own: an `UPDATE` for a step of at
least 2% or any decrease, then the `job_events` bump. A failed `UPDATE` is ignored. -/
def writerStep (w : World) (f : Fate) : Option World :=
  match w.writer with
  | none => none
  | some ⟨id, ps, last, true⟩ =>
    some { w with writer := some ⟨id, ps, last, false⟩, events := w.events + 1 }
  | some ⟨_, [], _, false⟩ => none
  | some ⟨id, p :: ps, last, false⟩ =>
    if p < last ∨ p - last ≥ 2 / 100 then
      (execSql w (.job (.writeProgress id p)) f).map fun (w', _) =>
        { w' with writer := some ⟨id, ps, p, true⟩ }
    else some { w with writer := some ⟨id, ps, last, false⟩ }

theorem execSql_eq_some {w w' : World} {q : Sql} {f : Fate} {x : Except String q.Result}
    (h : execSql w q f = some (w', x)) :
    (∃ db a, f = .ok ∧ q.run w.db = .ok (db, a) ∧ w' = { w with db := db } ∧ x = .ok a) ∨
      (w' = w ∧ ∃ e, x = .error e) := by
  cases f with
  | ok =>
    simp only [execSql] at h
    split at h
    · rename_i db a hrun
      cases h
      exact .inl ⟨db, a, rfl, hrun, rfl, rfl⟩
    · cases h
      exact .inr ⟨rfl, _, rfl⟩
  | sqlFails e =>
    cases h
    exact .inr ⟨rfl, _, rfl⟩
  | _ => cases h

/-- A statement that violates no constraint runs, or fails and changes nothing. -/
theorem exec_sql {w w' : World} {q : Sql} {f : Fate} {x : Except String q.Result} {db : Db}
    {a : q.Result} (hq : q.run w.db = .ok (db, a)) (h : exec w (.sql q) f = some (w', x)) :
    (f = .ok ∧ x = .ok a ∧ w' = { w with db := db }) ∨
    (∃ e, f = .sqlFails e ∧ x = .error e ∧ w' = w) := by
  cases f with
  | ok =>
    simp only [exec, execSql, hq, Option.some.injEq, Prod.mk.injEq] at h
    exact .inl ⟨rfl, h.2.symm, h.1.symm⟩
  | sqlFails e =>
    cases h
    exact .inr ⟨e, rfl, rfl, rfl⟩
  | _ => cases h

theorem exec_job {w w' : World} {st : JobStmt} {f : Fate} {x : Except String Nat}
    (h : exec w (.sql (.job st)) f = some (w', x)) :
    (f = .ok ∧ x = .ok (w.db.jobs.affected st.update) ∧
      w' = { w with db := { w.db with jobs := w.db.jobs.update st.update } }) ∨
    (∃ e, f = .sqlFails e ∧ x = .error e ∧ w' = w) :=
  exec_sql rfl h

/-- What a file operation can do to the files. -/
def FilesChange (q : FileCall) (fs fs' : Files) : Prop :=
  fs' = fs ∨ (∃ p b, q = .atomicWrite p b ∧ fs' = fs.put p (some b)) ∨
    (∃ p, q = .removeFile p ∧ fs' = fs.put p none) ∨
    (∃ out dst b, q = .render out dst ∧ fs' = fs.put dst (some b))

theorem execFile_frame {w w' : World} {q : FileCall} {f : Fate} {x : q.Answer}
    (h : execFile w q f = some (w', x)) :
    w' = { w with files := w'.files } ∧ FilesChange q w.files w'.files := by
  cases q with
  | metadata p =>
    cases f <;> simp only [execFile, reduceCtorEq, Option.some.injEq, Prod.mk.injEq] at h <;>
      (obtain ⟨rfl, -⟩ := h; exact ⟨rfl, .inl rfl⟩)
  | read p =>
    cases f <;> simp only [execFile, reduceCtorEq, Option.some.injEq, Prod.mk.injEq] at h <;>
      (obtain ⟨rfl, -⟩ := h; exact ⟨rfl, .inl rfl⟩)
  | atomicWrite p b =>
    cases f <;> simp only [execFile, reduceCtorEq, Option.some.injEq, Prod.mk.injEq] at h
    · obtain ⟨rfl, -⟩ := h
      exact ⟨rfl, .inr (.inl ⟨p, b, rfl, rfl⟩)⟩
    · obtain ⟨rfl, -⟩ := h
      exact ⟨rfl, .inl rfl⟩
  | removeFile p =>
    cases f <;> simp only [execFile, reduceCtorEq, Option.some.injEq, Prod.mk.injEq] at h
    · obtain ⟨rfl, -⟩ := h
      exact ⟨rfl, .inr (.inr (.inl ⟨p, rfl, rfl⟩))⟩
    · obtain ⟨rfl, -⟩ := h
      exact ⟨rfl, .inl rfl⟩
  | render out dst =>
    cases f <;> simp only [execFile, reduceCtorEq, Option.ite_none_right_eq_some,
      Option.some.injEq, Prod.mk.injEq] at h
    · obtain ⟨rfl, -⟩ := h
      exact ⟨rfl, .inl rfl⟩
    · obtain ⟨-, rfl, -⟩ := h
      exact ⟨rfl, .inr (.inr (.inr ⟨out, dst, _, rfl, rfl⟩))⟩

/-- What a request to ComfyUI can do to it. -/
def BackendChange (q : ComfyCall) (f : Fate) (b b' : Backend) : Prop :=
  b' = b ∨
    (∃ wf client id, q = .submitPrompt wf client ∧ (f = .name id ∨ ∃ e, f = .answerLost id e) ∧
      b.accept ⟨id, client, some wf⟩ = some b') ∨
    (q = .interrupt ∧ (f = .ok ∨ ∃ id e, f = .answerLost id e) ∧ b' = b.stop)

theorem execComfy_frame {w w' : World} {q : ComfyCall} {f : Fate} {x : Except AnyError q.Result}
    (h : execComfy w q f = some (w', x)) :
    w' = { w with comfy := w'.comfy } ∧ BackendChange q f w.comfy w'.comfy := by
  cases q with
  | submitPrompt wf client =>
    cases f <;> simp only [execComfy, reduceCtorEq, Option.some.injEq, Prod.mk.injEq,
      Option.map_eq_some_iff] at h
    case name id =>
      obtain ⟨b, hb, rfl, -⟩ := h
      exact ⟨rfl, .inr (.inl ⟨wf, client, id, rfl, .inl rfl, hb⟩)⟩
    case answerLost id e =>
      obtain ⟨b, hb, rfl, -⟩ := h
      exact ⟨rfl, .inr (.inl ⟨wf, client, id, rfl, .inr ⟨e, rfl⟩, hb⟩)⟩
    all_goals
      obtain ⟨rfl, -⟩ := h
      exact ⟨rfl, .inl rfl⟩
  | interrupt =>
    cases f <;> simp only [execComfy, reduceCtorEq, Option.some.injEq, Prod.mk.injEq] at h
    case ok =>
      obtain ⟨rfl, -⟩ := h
      exact ⟨rfl, .inr (.inr ⟨rfl, .inl rfl, rfl⟩)⟩
    case answerLost id e =>
      obtain ⟨rfl, -⟩ := h
      exact ⟨rfl, .inr (.inr ⟨rfl, .inr ⟨id, e, rfl⟩, rfl⟩)⟩
    all_goals
      obtain ⟨rfl, -⟩ := h
      exact ⟨rfl, .inl rfl⟩
  | _ =>
    cases f <;> simp only [execComfy, reduceCtorEq, Option.some.injEq, Prod.mk.injEq] at h <;>
      (obtain ⟨rfl, -⟩ := h; exact ⟨rfl, .inl rfl⟩)

/-- What a runtime call can do to the progress writer. -/
def WriterChange (q : RuntimeCall) (wr wr' : Option Writer) : Prop :=
  wr' = wr ∨ (∃ id, q = .spawnProgressWriter id ∧ wr' = some ⟨id, [], 0, false⟩) ∨
    (∃ pid w p, q = .nextFrame pid ∧ wr = some w ∧ 0 ≤ p ∧ p ≤ 1 ∧
      wr' = some { w with channel := w.channel ++ [p] }) ∨
    (q = .joinProgressWriter ∧ wr' = none)

/-- What a runtime call can do to the UUIDs drawn. -/
def IssuedChange (q : RuntimeCall) (ids ids' : List String) : Prop :=
  ids' = ids ∨ (∃ id, q = .newUuid ∧ isUuid id ∧ id ∉ ids ∧ ids' = id :: ids)

theorem execFrame_frame {w w' : World} {pid : String} {f : Fate} {x : Option Ending}
    (h : execFrame w pid f = some (w', x)) :
    w' = { w with writer := w'.writer } ∧ WriterChange (.nextFrame pid) w.writer w'.writer := by
  cases f with
  | frame fr =>
    cases fr with
    | progress value max =>
      simp only [execFrame] at h
      split at h
      · rename_i p wr hp hwr
        cases h
        obtain ⟨h₀, h₁⟩ := progressFraction_bounds hp
        exact ⟨rfl, .inr (.inr (.inl ⟨pid, wr, p, rfl, hwr, h₀, h₁, rfl⟩))⟩
      · cases h
        exact ⟨rfl, .inl rfl⟩
    | executingNull | executionError d =>
      simp only [execFrame, Option.ite_none_right_eq_some, Option.some.injEq, Prod.mk.injEq] at h
      obtain ⟨-, rfl, -⟩ := h
      exact ⟨rfl, .inl rfl⟩
    | _ =>
      cases h
      exact ⟨rfl, .inl rfl⟩
  | elapsed =>
    cases h
    exact ⟨rfl, .inl rfl⟩
  | _ => cases h

theorem execRuntime_frame {w w' : World} {q : RuntimeCall} {f : Fate} {x : q.Answer}
    (h : execRuntime w q f = some (w', x)) :
    w' = { w with issued := w'.issued, wake := w'.wake, events := w'.events, writer := w'.writer } ∧
      IssuedChange q w.issued w'.issued ∧ WriterChange q w.writer w'.writer := by
  cases q with
  | nextFrame pid =>
    obtain ⟨hw, hwr⟩ := execFrame_frame h
    rw [hw]
    exact ⟨rfl, .inl rfl, hwr⟩
  | newUuid =>
    cases f <;> simp only [execRuntime, reduceCtorEq, Option.ite_none_right_eq_some,
      Option.some.injEq, Prod.mk.injEq] at h
    obtain ⟨⟨hu, hf⟩, rfl, rfl⟩ := h
    exact ⟨rfl, .inr ⟨_, rfl, hu, hf, rfl⟩, .inl rfl⟩
  | joinProgressWriter =>
    cases f <;> simp only [execRuntime, reduceCtorEq] at h
    split at h
    · cases h
      exact ⟨rfl, .inl rfl, .inr (.inr (.inr ⟨rfl, rfl⟩))⟩
    · cases h
  | spawnProgressWriter id =>
    cases f <;> simp only [execRuntime, reduceCtorEq, Option.some.injEq, Prod.mk.injEq] at h
    obtain ⟨rfl, -⟩ := h
    exact ⟨rfl, .inl rfl, .inr (.inl ⟨id, rfl, rfl⟩)⟩
  | idle =>
    cases f <;> simp only [execRuntime, reduceCtorEq, Option.ite_none_right_eq_some,
      Option.some.injEq, Prod.mk.injEq] at h
    case elapsed =>
      obtain ⟨rfl, -⟩ := h
      exact ⟨rfl, .inl rfl, .inl rfl⟩
    all_goals
      obtain ⟨-, rfl, -⟩ := h
      exact ⟨rfl, .inl rfl, .inl rfl⟩
  | changed seen =>
    cases f <;> simp only [execRuntime, reduceCtorEq, Option.ite_none_right_eq_some,
      Option.some.injEq, Prod.mk.injEq] at h
    case ok =>
      obtain ⟨-, rfl, -⟩ := h
      exact ⟨rfl, .inl rfl, .inl rfl⟩
    case elapsed =>
      obtain ⟨rfl, -⟩ := h
      exact ⟨rfl, .inl rfl, .inl rfl⟩
  | deadlinePassed =>
    cases f <;> simp only [execRuntime, reduceCtorEq, Option.some.injEq, Prod.mk.injEq] at h <;>
      (obtain ⟨rfl, -⟩ := h; exact ⟨rfl, .inl rfl, .inl rfl⟩)
  | _ =>
    cases f <;> simp only [execRuntime, reduceCtorEq, Option.some.injEq, Prod.mk.injEq] at h
    obtain ⟨rfl, -⟩ := h
    exact ⟨rfl, .inl rfl, .inl rfl⟩

/-- What a runtime call can do to the wake channel. -/
def WakeChange (q : RuntimeCall) (b b' : Bool) : Prop :=
  b' = b ∨ (q = .tryWake ∧ b' = true) ∨ q = .idle

/-- What a runtime call can do to the `job_events` version. -/
def EventsChange (q : RuntimeCall) (n n' : Nat) : Prop :=
  n' = n ∨ (q = .notifyJobChange ∧ n' = n + 1)

theorem execRuntime_signals {w w' : World} {q : RuntimeCall} {f : Fate} {x : q.Answer}
    (h : execRuntime w q f = some (w', x)) :
    WakeChange q w.wake w'.wake ∧ EventsChange q w.events w'.events := by
  cases q with
  | nextFrame pid =>
    rw [(execFrame_frame h).1]
    exact ⟨.inl rfl, .inl rfl⟩
  | tryWake =>
    cases f <;> cases h
    exact ⟨.inr (.inl ⟨rfl, rfl⟩), .inl rfl⟩
  | notifyJobChange =>
    cases f <;> cases h
    exact ⟨.inl rfl, .inr ⟨rfl, rfl⟩⟩
  | idle =>
    refine ⟨.inr (.inr rfl), ?_⟩
    cases f with
    | elapsed =>
      cases h
      exact .inl rfl
    | ok | stop =>
      obtain ⟨-, h⟩ := Option.ite_none_right_eq_some.mp h
      cases h
      exact .inl rfl
    | _ => cases h
  | joinProgressWriter =>
    cases f <;> simp only [execRuntime, reduceCtorEq] at h
    split at h <;> cases h
    exact ⟨.inl rfl, .inl rfl⟩
  | newUuid =>
    cases f <;> simp only [execRuntime, reduceCtorEq, Option.ite_none_right_eq_some,
      Option.some.injEq, Prod.mk.injEq] at h
    obtain ⟨-, rfl, -⟩ := h
    exact ⟨.inl rfl, .inl rfl⟩
  | changed seen =>
    cases f with
    | ok =>
      obtain ⟨-, h⟩ := Option.ite_none_right_eq_some.mp h
      cases h
      exact ⟨.inl rfl, .inl rfl⟩
    | elapsed =>
      cases h
      exact ⟨.inl rfl, .inl rfl⟩
    | _ => cases h
  | _ => cases f <;> cases h <;> exact ⟨.inl rfl, .inl rfl⟩

/-- What a call can change in the world. -/
structure Change (c : Call) (f : Fate) (w w' : World) : Prop where
  now : w'.now = w.now
  shutdown : w'.shutdown = w.shutdown
  db : w'.db = w.db ∨ ∃ q a, c = .sql q ∧ q.run w.db = .ok (w'.db, a)
  files : w'.files = w.files ∨ ∃ q, c = .file q ∧ FilesChange q w.files w'.files
  comfy : w'.comfy = w.comfy ∨ ∃ q, c = .comfy q ∧ BackendChange q f w.comfy w'.comfy
  issued : w'.issued = w.issued ∨ ∃ q, c = .runtime q ∧ IssuedChange q w.issued w'.issued
  writer : w'.writer = w.writer ∨ ∃ q, c = .runtime q ∧ WriterChange q w.writer w'.writer
  wake : w'.wake = w.wake ∨ ∃ q, c = .runtime q ∧ WakeChange q w.wake w'.wake
  events : w'.events = w.events ∨ ∃ q, c = .runtime q ∧ EventsChange q w.events w'.events

theorem exec_change {w w' : World} {c : Call} {f : Fate} {x : c.Answer}
    (h : exec w c f = some (w', x)) : Change c f w w' := by
  cases c with
  | sql q =>
    rcases execSql_eq_some h with ⟨db, a, -, hrun, rfl, -⟩ | ⟨rfl, -⟩
    · exact ⟨rfl, rfl, .inr ⟨q, a, rfl, hrun⟩, .inl rfl, .inl rfl, .inl rfl, .inl rfl, .inl rfl,
        .inl rfl⟩
    · exact ⟨rfl, rfl, .inl rfl, .inl rfl, .inl rfl, .inl rfl, .inl rfl, .inl rfl, .inl rfl⟩
  | file q =>
    obtain ⟨hw, hq⟩ := execFile_frame h
    rw [hw]
    exact ⟨rfl, rfl, .inl rfl, .inr ⟨q, rfl, hq⟩, .inl rfl, .inl rfl, .inl rfl, .inl rfl, .inl rfl⟩
  | comfy q =>
    obtain ⟨hw, hq⟩ := execComfy_frame h
    rw [hw]
    exact ⟨rfl, rfl, .inl rfl, .inl rfl, .inr ⟨q, rfl, hq⟩, .inl rfl, .inl rfl, .inl rfl, .inl rfl⟩
  | runtime q =>
    obtain ⟨hw, hi, hwr⟩ := execRuntime_frame h
    obtain ⟨hwake, hevents⟩ := execRuntime_signals h
    rw [hw]
    exact ⟨rfl, rfl, .inl rfl, .inl rfl, .inl rfl, .inr ⟨q, rfl, hi⟩, .inr ⟨q, rfl, hwr⟩,
      .inr ⟨q, rfl, hwake⟩, .inr ⟨q, rfl, hevents⟩⟩

theorem runtime_keeps {w w' : World} {q : RuntimeCall} {f : Fate} {x : q.Answer}
    (h : exec w (.runtime q) f = some (w', x)) : w'.db = w.db ∧ w'.files = w.files := by
  constructor
  · rcases (exec_change h).db with hdb | ⟨q', a, hq, -⟩
    · exact hdb
    · cases hq
  · rcases (exec_change h).files with hfs | ⟨q', hq, -⟩
    · exact hfs
    · cases hq

/-- The writer changes the row of its own job at most. -/
theorem writerStep_change {w w' : World} {f : Fate} (h : writerStep w f = some w') :
    ∃ wr wr', w.writer = some wr ∧
      w' = { w with db := w'.db, events := w'.events, writer := some wr' } ∧
      wr'.jobId = wr.jobId ∧ (∀ p ∈ wr'.channel, p ∈ wr.channel) ∧
      (w'.db = w.db ∨ ∃ p ∈ wr.channel, ∃ n : Nat,
        (Sql.job (.writeProgress wr.jobId p)).run w.db = .ok (w'.db, n)) := by
  unfold writerStep at h
  split at h
  · cases h
  · rename_i id ps last hwr
    cases h
    exact ⟨_, _, hwr, rfl, rfl, fun p hp => hp, .inl rfl⟩
  · cases h
  · rename_i id p ps last hwr
    have hmem : p ∈ p :: ps := List.mem_cons_self
    have hsub : ∀ q ∈ ps, q ∈ p :: ps := fun q hq => List.mem_cons_of_mem p hq
    split at h
    · obtain ⟨⟨w₁, x⟩, hex, rfl⟩ := Option.map_eq_some_iff.mp h
      rcases execSql_eq_some hex with ⟨db, a, -, hrun, rfl, -⟩ | ⟨rfl, -⟩
      · exact ⟨_, _, hwr, rfl, rfl, hsub, .inr ⟨p, hmem, a, hrun⟩⟩
      · exact ⟨_, _, hwr, rfl, rfl, hsub, .inl rfl⟩
    · cases h
      exact ⟨_, _, hwr, rfl, rfl, hsub, .inl rfl⟩

inductive AppError where
  | notFound
  | badRequest (e : String)
  | notReady
  | needUpload (inputId : Option Int)
  | internal (e : String)
  deriving DecidableEq, Repr

inductive DerivedFormat where
  | jpeg | avif
  deriving DecidableEq, Repr

def DerivedFormat.extension : DerivedFormat → String
  | .jpeg => "jpg"
  | .avif => "avif"

inductive Response where
  /-- `202`, with the ids of the new job and of its input. -/
  | accepted (jobId : String) (inputId : Int)
  /-- `204` -/
  | noContent
  | file (p : DataPath) (format : DerivedFormat)
  /-- `200` of `get_job`, with the queue position of a queued job. -/
  | job (row : JobFullRow) (queuePosition : Option Nat)
  /-- `200`, or `201` of a prompt just created. -/
  | prompt (row : CustomPromptRow) (created : Bool)
  /-- `422`: the body does not deserialise. -/
  | rejected
  | error (e : AppError)
  deriving DecidableEq, Repr

end ZunServer.Calls
