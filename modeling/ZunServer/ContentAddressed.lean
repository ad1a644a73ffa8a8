import ZunServer.FileWrites
import ZunServer.FirstUpload
import ZunServer.InputCache

/-!
# The input cache is content-addressed

A file of the input cache is named by the hash of its bytes, and a row names the
file of its own hash. So the worker uploads, however late, bytes of the hash
that the client sent along with the request.
-/
namespace ZunServer.ContentAddressed

open KeyedTable
open Schema Statements Database Comfy Calls Renditions Worker Handlers CustomPrompts Purge Server
open Rows Lifecycle SubmitSteps WorkerSteps FileWrites JobFiles InputCache FirstUpload

/-- The file of an input, by its hash and the kind of the image. -/
def inputPath (sha : String) (k : ImageKind) : DataPath := ⟨.cacheInputs, sha ++ "." ++ k.ext⟩

theorem inputPath_inj {sha sha' : String} {k k' : ImageKind}
    (h : inputPath sha k = inputPath sha' k') : sha = sha' := by
  have hname : sha.toList ++ '.' :: k.ext.toList = sha'.toList ++ '.' :: k'.ext.toList := by
    have he := congrArg (fun p => p.filename.toList) h
    simpa [inputPath] using he
  have hlen : ('.' :: k.ext.toList).length = ('.' :: k'.ext.toList).length := by
    cases k <;> cases k' <;> rfl
  exact String.toList_injective (List.append_inj' hname hlen).1

/-- The file may be the one of an input of this hash. -/
def Names (sha : String) (p : DataPath) : Prop := ∃ k, p = inputPath sha k

theorem Names.inj {sha sha' : String} {p : DataPath} (h : Names sha p) (h' : Names sha' p) :
    sha = sha' := by
  obtain ⟨k, rfl⟩ := h
  obtain ⟨k', he⟩ := h'
  exact inputPath_inj he

theorem Names.input {sha : String} {p : DataPath} (h : Names sha p) : p.sub = .cacheInputs := by
  obtain ⟨k, rfl⟩ := h
  rfl

/-- The bytes that came with a request have the hash that came with it. -/
def Checked (cfg : Config) (f : SubmitFields) : Prop :=
  ∀ u ∈ f.upload, cfg.sha256Hex u.bytes = f.inputSha256

/-- The request as the handler still has it. -/
def fieldsOf : SubmitPc → Option SubmitFields
  | .selectPrompt f _ | .selectInput f _ _ | .stat f _ _ _ _ | .touch f _ _ _ | .clearPath f _ _ _
  | .write f _ _ _ _ _ | .dimensions f _ _ _ _ _ | .updateInput f _ _ _ _
  | .insertInput f _ _ _ => some f
  | _ => none

/-- Past the hash check of `resolve_input`, and not refused. -/
def resolving : SubmitPc → Bool
  | .selectPrompt _ _ => false
  | .answered r => match r with
    | .accepted _ _ => true
    | _ => false
  | _ => true

/-- The input row that the handler has found or made. -/
def rowOf : SubmitPc → Option Int
  | .stat _ _ _ id _ | .touch _ _ _ id | .clearPath _ _ _ id | .updateInput _ _ _ id _
  | .newJobId _ id | .seed _ id _ | .insertJob _ id _ _ | .wakeWorker id _
  | .answered (.accepted _ id) => some id
  | .write _ _ _ row _ _ | .dimensions _ _ _ row _ _ => row
  | _ => none

/-- The file that the handler stores the bytes in. -/
def pathOf : SubmitPc → Option DataPath
  | .write _ _ _ _ _ path | .dimensions _ _ _ _ _ path => some path
  | .updateInput _ _ _ _ fields | .insertInput _ _ _ fields => some fields.path
  | _ => none

def uploadOf : SubmitPc → Option Upload
  | .write _ _ _ _ u _ => some u
  | _ => none

/-- The handler serves this request, and is right about its input so far. -/
structure Serves (cfg : Config) (f : SubmitFields) (w : World) (pc : SubmitPc) : Prop where
  fields : ∀ g ∈ fieldsOf pc, g = f
  hash : resolving pc = true → Checked cfg f
  row : ∀ id ∈ rowOf pc, RowIs f.inputSha256 w id
  path : ∀ p ∈ pathOf pc, Names f.inputSha256 p
  upload : ∀ u ∈ uploadOf pc, f.upload = some u

theorem Serves.step {cfg : Config} {f : SubmitFields} {s t : State} {a : Act} {pc : SubmitPc}
    (h : Serves cfg f s.world pc) (hm : Moved cfg s t a) : Serves cfg f t.world pc :=
  { h with row := fun id hid => (h.row id hid).step hm }

theorem serves_refuse (cfg : Config) (f : SubmitFields) (w : World) (e : AppError) :
    Serves cfg f w (.refuse e) where
  fields g hg := by cases hg
  hash h := by cases h
  row id hid := by cases hid
  path p hp := by cases hp
  upload u hu := by cases hu

theorem resolveInput_checked {cfg : Config} {now n : Int} {f g : SubmitFields} {p q : Resolved}
    (h : SubmitPc.resolveInput cfg now f p = .selectInput g q n) : g = f ∧ Checked cfg f := by
  unfold SubmitPc.resolveInput at h
  split at h
  · rename_i hup
    cases h
    refine ⟨rfl, fun u hu => ?_⟩
    rw [hup] at hu
    cases hu
  · rename_i u hup
    dsimp only at h
    split at h
    · cases h
    · rename_i hsha
      cases h
      refine ⟨rfl, fun v hv => ?_⟩
      obtain rfl := Option.some.inj (hup.symm.trans hv)
      exact Classical.not_not.mp hsha

theorem serves_selectInput {cfg : Config} {f : SubmitFields} (h : Checked cfg f) (w : World)
    (p : Resolved) (now : Int) : Serves cfg f w (.selectInput f p now) where
  fields g hg := (Option.some.inj hg).symm
  hash _ := h
  row id hid := by cases hid
  path q hq := by cases hq
  upload u hu := by cases hu

theorem serves_resolveInput (cfg : Config) (now : Int) (f : SubmitFields) (p : Resolved)
    (w : World) : Serves cfg f w (.resolveInput cfg now f p) := by
  rcases SubmitPc.resolveInput_cases cfg now f p with ⟨e, he⟩ | he
  · rw [he]
    exact serves_refuse cfg f w _
  · rw [he]
    exact serves_selectInput (resolveInput_checked he).2 w p now

theorem serves_start (cfg : Config) (now : Int) (f : SubmitFields) (w : World) :
    Serves cfg f w (.start cfg now f) := by
  rcases SubmitPc.start_resolves cfg now f with
    ⟨e, h⟩ | ⟨-, ⟨pid, h⟩ | ⟨workflow, text, -, -, -, h⟩⟩
  · rw [h]
    exact serves_refuse cfg f w _
  · rw [h]
    constructor
    · exact fun g hg => (Option.some.inj hg).symm
    all_goals exact nofun
  · rw [h]
    exact serves_resolveInput cfg now f _ w

theorem serves_needUpload {cfg : Config} {f : SubmitFields} (h : Checked cfg f) {w : World}
    (p : Resolved) (now : Int) {row : Option Int} (hrow : ∀ id ∈ row, RowIs f.inputSha256 w id) :
    Serves cfg f w (.needUpload f p now row) := by
  unfold SubmitPc.needUpload
  split
  · exact serves_refuse cfg f w _
  · rename_i u hup
    split
    · exact serves_refuse cfg f w _
    · rename_i path hpath
      exact {
        fields := fun g hg => (Option.some.inj hg).symm
        hash := fun _ => h
        row := hrow
        path := fun q hq => ⟨u.kind, (Option.some.inj hq).symm.trans (dataPath_ok hpath)⟩
        upload := fun v hv => hup.trans (congrArg some (Option.some.inj hv)) }

/-- One call of the handler. -/
theorem serves_moved {cfg : Config} {f : SubmitFields} {s t : State} {i : Nat} {φ : Fate}
    {pc pc' : SubmitPc} (hm : Moved cfg s t (.task i φ))
    (hp : perform (pc.next cfg s.world.now) φ s.world = some (t.world, pc'))
    (h : Serves cfg f s.world pc) : Serves cfg f t.world pc' := by
  have hstep := h.step hm
  cases submit_step hp with
  | fails hf hw => exact serves_refuse cfg f _ _
  | refused hw => exact serves_refuse cfg f _ _
  | duplicate hw hdup => exact serves_refuse cfg f _ _
  | notQueued hw hdup => exact serves_refuse cfg f _ _
  | prompt hw =>
    rename_i fl pid p
    obtain rfl := h.fields fl rfl
    obtain ⟨c, k, x, hc, -, hk⟩ := perform_eq_some.mp hp
    cases hc
    dsimp only at hk
    split at hk
    · cases hk
    · cases hk
    · split at hk
      · cases hk
      · exact serves_selectInput (resolveInput_checked hk).2 _ _ _
  | absent hf hw hnone =>
    rename_i fl p now
    obtain rfl := h.fields fl rfl
    exact serves_needUpload (h.hash rfl) p now (fun id hid => by cases hid)
  | noPath hw hr hsha hpath =>
    rename_i fl p now r
    obtain rfl := h.fields fl rfl
    refine serves_needUpload (h.hash rfl) p now fun id hid => ?_
    obtain rfl := Option.some.inj hid
    exact ⟨r, by rw [hw]; exact Table.find?_of_mem hr, hsha⟩
  | cached hw hr hsha hpath =>
    rename_i fl p now r path
    obtain rfl := h.fields fl rfl
    refine ⟨fun g hg => (Option.some.inj hg).symm, fun _ => h.hash rfl, fun id hid => ?_, nofun, nofun⟩
    obtain rfl := Option.some.inj hid
    exact ⟨r, by rw [hw]; exact Table.find?_of_mem hr, hsha⟩
  | hit hf hw hfile | miss hw hfile =>
    exact ⟨hstep.fields, hstep.hash, hstep.row, nofun, nofun⟩
  | touched hin hfs | drew hnew hw | seeded hw | queued hin hfs hjob | woke hdb hfs =>
    exact ⟨nofun, hstep.hash, hstep.row, nofun, nofun⟩
  | cleared hf hin hfs =>
    rename_i fl p now id
    obtain rfl := h.fields fl rfl
    exact serves_needUpload (h.hash rfl) p now hstep.row
  | wrote hf hdb hfs => exact ⟨hstep.fields, hstep.hash, hstep.row, hstep.path, nofun⟩
  | decodedOld hdb hfs hfields =>
    refine ⟨hstep.fields, hstep.hash, hstep.row, fun q hq => ?_, nofun⟩
    exact hstep.path q ((congrArg some hfields).symm.trans hq)
  | decodedNew hdb hfs hfields =>
    refine ⟨hstep.fields, hstep.hash, nofun, fun q hq => ?_, nofun⟩
    exact hstep.path q ((congrArg some hfields).symm.trans hq)
  | stored hf hin hfs => exact ⟨nofun, hstep.hash, hstep.row, nofun, nofun⟩
  | inserted hnew hin hfs =>
    rename_i fl p now fields
    obtain rfl := h.fields fl rfl
    refine ⟨nofun, h.hash, fun id hid => ?_, nofun, nofun⟩
    obtain rfl := Option.some.inj hid
    exact ⟨_, (Table.find?_insert hin _).trans (if_pos rfl), rfl⟩

theorem serves_origin {cfg : Config} {s t : State} {a : Act} (hm : Moved cfg s t a)
    (h : ∀ (i : Nat) pc, s.tasks[i]? = some (.submit pc) → ∃ f, Serves cfg f s.world pc) {i : Nat}
    {pc : SubmitPc} (hi : t.tasks[i]? = some (.submit pc)) : ∃ f, Serves cfg f t.world pc := by
  cases hm.origin hi with
  | kept hi₀ _ =>
    obtain ⟨f, hf⟩ := h i pc hi₀
    exact ⟨f, hf.step hm⟩
  | moved hi₀ hp =>
    cases task_moved hp with
    | submit hp =>
      obtain ⟨f, hf⟩ := h i _ hi₀
      exact ⟨f, serves_moved hm hp hf⟩
  | arrived hlen hτ =>
    rename_i r
    cases r with
    | submit f =>
      cases hτ
      exact ⟨f, serves_start cfg _ f _⟩
    | _ => cases hτ
  | spawned _ _ _ hτ => cases hτ
  | dropped hτ => cases hτ

/-- The worker has the path and the hash of the input of its job, then its bytes. -/
def Holds (cfg : Config) (w : World) : WorkerPc → Prop
  | .process job stage => match stage with
    | .readInput path sha => Names sha path ∧ RowIs sha w job.inputId
    | .uploadImage _ sha b => cfg.sha256Hex b = sha ∧ RowIs sha w job.inputId
    | _ => True
  | _ => True

theorem Holds.step {cfg : Config} {s t : State} {a : Act} {pc : WorkerPc}
    (h : Holds cfg s.world pc) (hm : Moved cfg s t a) : Holds cfg t.world pc := by
  cases pc with
  | process job stage =>
    cases stage with
    | readInput path sha => exact ⟨h.1, h.2.step hm⟩
    | uploadImage path sha b => exact ⟨h.1, h.2.step hm⟩
    | _ => trivial
  | _ => trivial

theorem selected_row {cfg : Config} {w w' : World} {f : Fate} {job : QueuedJob} {path : DataPath}
    {sha : String} {l : List GeneratePc}
    (h : perform ((WorkerPc.process job .selectInput).next cfg w.now) f w =
      some (w', .process job (.readInput path sha), l)) :
    ∃ r, w.db.inputs.find? job.inputId = some r ∧ r.path = some path ∧ r.sha256 = sha := by
  obtain ⟨c, k, x, hc, hex, hk⟩ := perform_eq_some.mp h
  have herr : ∀ e l', (errorArm job e, l') ≠ (.process job (.readInput path sha), l) := by
    intro e l' he
    have harm := errorArm_cases job e
    rw [(Prod.mk.inj he).1] at harm
    cases harm
  cases hc
  rcases exec_sql_ok rfl hex with ⟨-, -, e, rfl⟩ | ⟨-, -, rfl⟩
  · exact absurd hk (herr _ _)
  · cases hr : w.db.inputs.find? job.inputId with
    | none =>
      rw [hr] at hk
      exact absurd hk (herr _ _)
    | some r =>
      rw [hr] at hk
      dsimp only [Option.map_some] at hk
      cases hpath : r.path with
      | none =>
        rw [hpath] at hk
        exact absurd hk (herr _ _)
      | some p =>
        rw [hpath] at hk
        dsimp only at hk
        split at hk
        · exact absurd hk (herr _ _)
        · cases hk
          exact ⟨r, rfl, hpath, rfl⟩

theorem read_bytes {cfg : Config} {w w' : World} {f : Fate} {job : QueuedJob}
    {path path' : DataPath} {sha sha' : String} {b : Bytes} {l : List GeneratePc}
    (h : perform ((WorkerPc.process job (.readInput path sha)).next cfg w.now) f w =
      some (w', .process job (.uploadImage path' sha' b), l)) :
    sha' = sha ∧ w.files path = some b := by
  obtain ⟨c, k, x, hc, hex, hk⟩ := perform_eq_some.mp h
  have herr : ∀ e l', (errorArm job e, l') ≠ (.process job (.uploadImage path' sha' b), l) := by
    intro e l' he
    have harm := errorArm_cases job e
    rw [(Prod.mk.inj he).1] at harm
    cases harm
  cases hc
  cases f <;> simp only [exec, execFile, reduceCtorEq, Option.some.injEq, Prod.mk.injEq] at hex
  case ok =>
    obtain ⟨rfl, rfl⟩ := hex
    cases hfile : w.files path with
    | none =>
      rw [hfile] at hk
      exact absurd hk (herr _ _)
    | some b' =>
      rw [hfile] at hk
      cases hk
      exact ⟨rfl, rfl⟩
  case ioFails e =>
    obtain ⟨rfl, rfl⟩ := hex
    exact absurd hk (herr _ _)

structure Addressed (cfg : Config) (s : State) : Prop where
  filed : Filed s
  files : ∀ sha k b, s.world.files (inputPath sha k) = some b → cfg.sha256Hex b = sha
  rows : ∀ r ∈ s.world.db.inputs.rows, ∀ p, r.path = some p → Names r.sha256 p
  submits : ∀ (i : Nat) pc, s.tasks[i]? = some (.submit pc) → ∃ f, Serves cfg f s.world pc
  worker : Holds cfg s.world s.worker

theorem addressed_files {cfg : Config} {s t : State} {a : Act} (h : Addressed cfg s)
    (hm : Moved cfg s t a) {sha : String} {k : ImageKind} {b : Bytes}
    (hb : t.world.files (inputPath sha k) = some b) : cfg.sha256Hex b = sha := by
  have kept : ∀ {p : DataPath} {x : Option Bytes}, t.world.files = s.world.files.put p x →
      inputPath sha k ≠ p → cfg.sha256Hex b = sha := by
    intro p x he hne
    rw [he, Files.put_other _ _ _ _ hne] at hb
    exact h.files sha k b hb
  have gone : ∀ {p : DataPath}, t.world.files = s.world.files.put p none →
      cfg.sha256Hex b = sha := by
    intro p he
    refine kept he fun hp => ?_
    rw [he, hp, Files.put_same] at hb
    cases hb
  cases file_step hm with
  | same he => exact h.files sha k b (he ▸ hb)
  | purged hi hp he => exact gone he
  | vanished he => exact gone he
  | wrote hw he =>
    rename_i p b'
    by_cases hp : inputPath sha k = p
    · subst hp
      rw [he, Files.put_same] at hb
      obtain rfl := Option.some.inj hb
      obtain ⟨i, fl, q, now, row, u, -, hi, rfl⟩ := hw.of_input h.filed rfl
      obtain ⟨f, hf⟩ := h.submits i _ hi
      have hup : f.upload = some u := hf.upload u rfl
      rw [hf.hash rfl u hup]
      obtain ⟨k', hk'⟩ := hf.path _ rfl
      exact (inputPath_inj hk').symm
    · exact kept he hp

theorem addressed_rows {cfg : Config} {s t : State} {a : Act} (h : Addressed cfg s)
    (hm : Moved cfg s t a) {r : InputRow} (hr : r ∈ t.world.db.inputs.rows) {p : DataPath}
    (hp : r.path = some p) : Names r.sha256 p := by
  have updated : ∀ u : Update InputRow.id,
      (∀ r₀ ∈ s.world.db.inputs.rows, u.cond r₀ = true → ∀ q, (u.set r₀).path = some q →
        Names (u.set r₀).sha256 q) →
      t.world.db.inputs = s.world.db.inputs.update u → Names r.sha256 p := by
    intro u hu he
    rw [he] at hr
    obtain ⟨r₀, hr₀, rfl⟩ := Table.mem_update.mp hr
    unfold Update.row at hp ⊢
    split at hp
    · rename_i hc
      rw [if_pos hc]
      exact hu r₀ hr₀ hc p hp
    · rename_i hc
      rw [if_neg hc]
      exact h.rows r₀ hr₀ p hp
  cases hm.inputs with
  | same he => exact h.rows r (he ▸ hr) p hp
  | touched hi he => exact updated _ (fun r₀ hr₀ _ q hq => h.rows r₀ hr₀ q hq) he
  | cleared hi he | purged hi he => exact updated _ (fun r₀ _ _ q hq => by cases hq) he
  | stored hi he =>
    rename_i i fl q now id fields
    refine updated _ (fun r₀ hr₀ hc q hq => ?_) he
    obtain ⟨f, hf⟩ := h.submits _ _ hi
    obtain ⟨r', hr', hsha⟩ := hf.row id rfl
    have hid : r₀.id = id := of_decide_eq_true hc
    obtain rfl := Option.some.inj (hr'.symm.trans (Table.find?_eq_some.mpr ⟨hr₀, hid⟩))
    obtain rfl := Option.some.inj hq
    exact hsha.symm ▸ hf.path _ rfl
  | inserted hi hnew he =>
    rename_i i fl q now fields
    rw [(Table.insert?_eq_some.mp he).2] at hr
    rcases List.mem_append.mp hr with hr | hr
    · exact h.rows r hr p hp
    · obtain rfl := List.mem_singleton.mp hr
      obtain rfl := Option.some.inj hp
      obtain ⟨f, hf⟩ := h.submits _ _ hi
      obtain rfl := hf.fields fl rfl
      exact hf.path _ rfl

theorem holds_step {cfg : Config} {s t : State} {a : Act} (h : Addressed cfg s)
    (hm : Moved cfg s t a) : Holds cfg t.world t.worker := by
  have hstep : Holds cfg t.world s.worker := h.worker.step hm
  cases hm with
  | task _ _ hw _ | writer _ hw _ | arrive _ hw _ | drop _ _ _ hw _ | env _ hw _ =>
    rw [hw]
    exact hstep
  | crash he =>
    rw [he]
    trivial
  | @worker f spawned hp tasks =>
    have hmoved : Moved cfg s t (.worker f) := .worker hp tasks
    have hrow : ∀ {sha id}, RowIs sha s.world id → RowIs sha t.world id :=
      fun hr => hr.step hmoved
    have hholds := h.worker
    generalize hpc : s.worker = pc at hp hholds
    generalize hpc' : t.worker = pc' at hp ⊢
    cases worker_step hp with
    | stage hs =>
      cases hs with
      | goes hg =>
        cases hg with
        | selected =>
          obtain ⟨r, hr, hpath, hsha⟩ := selected_row hp
          exact ⟨hsha ▸ h.rows r (Table.find?_eq_some.mp hr).1 _ hpath, hrow ⟨r, hr, hsha⟩⟩
        | read =>
          obtain ⟨-, hb⟩ := read_bytes hp
          obtain ⟨⟨k, rfl⟩, hr⟩ := hholds
          exact ⟨h.files _ k _ hb, hrow hr⟩
        | _ => trivial
      | fails _ he => cases he <;> trivial
      | _ => trivial
    | claimFails hf he => cases he <;> trivial
    | free _ h' => cases pc' <;> trivial
    | _ => trivial

theorem Addressed.step {cfg : Config} {s t : State} {a : Act} (h : Addressed cfg s)
    (hm : Moved cfg s t a) : Addressed cfg t where
  filed := h.filed.step hm
  files _ _ _ hb := addressed_files h hm hb
  rows _ hr _ hp := addressed_rows h hm hr hp
  submits _ _ hi := serves_origin hm h.submits hi
  worker := holds_step h hm

theorem Addressed.init (cfg : Config) : Addressed cfg State.init where
  filed := Filed.init
  files sha k b hb := by cases hb
  rows r hr := by simp [State.init, World.empty, Db.empty, Table.empty] at hr
  submits i pc hi := by simp [State.init] at hi
  worker := trivial

theorem reachable_addressed {cfg : Config} {s : State} (h : Reachable cfg s) : Addressed cfg s :=
  Runs.Reachable.invariant (Addressed.init cfg) (fun _ _ _ hi hs => hi.step (step_moved hs)) h

/-- The job is about this input, for its row and for the worker. -/
structure MadeFor (jobId : String) (id : Int) (s : State) : Prop where
  settled : Settled s jobId
  row : OnRow s jobId fun r => r.inputId = id
  worker : ∀ job, fetched s.worker = some job → job.id = jobId → job.inputId = id

theorem MadeFor.step {cfg : Config} {s t : State} {a : Act} {jobId : String} {id : Int}
    (h : MadeFor jobId id s) (hm : Moved cfg s t a) : MadeFor jobId id t where
  settled := h.settled.step hm
  row := h.row.step hm h.settled fun st r _ _ hr => (stmt_sameRequest st r).inputId.trans hr
  worker job hjob hid := by
    rcases fetched_origin hm hjob with hs | ⟨r, hr, rfl⟩
    · exact h.worker job hs hid
    · exact h.row r (Table.find?_eq_some.mpr ⟨hr, hid⟩)

/-- Every submit that has inserted its job has made it for its input. -/
structure Made (s : State) : Prop where
  fetched : FetchedOk s
  jobs : ∀ (i : Nat) pc jobId id, s.tasks[i]? = some (.submit pc) →
    inserted pc = some (jobId, id) → MadeFor jobId id s

theorem madeFor_queued {cfg : Config} {s t : State} {i : Nat} {f : Fate} {p : Resolved}
    {id n : Int} {jobId : String} (h : Made s) (hm : Moved cfg s t (.task i f))
    (hi : s.tasks[i]? = some (.submit (.insertJob p id jobId n)))
    (hjob : s.world.db.jobs.insert? (newJob jobId id p.sourcePromptId p.promptText p.workflow
      p.timeoutSeconds n s.world.now) = some t.world.db.jobs) : MadeFor jobId id t where
  settled := settled_inserted hm h.fetched.ids rfl hi rfl hjob
  row r hr := by
    rw [row?_insert hjob] at hr
    obtain rfl := Option.some.inj ((if_pos rfl).symm.trans hr)
    rfl
  worker job hj hid := by
    rcases fetched_origin hm hj with hs | ⟨r, hr, rfl⟩
    · exact absurd (congrArg some hid.symm) ((h.fetched.row job hs).1.2 i _ hi)
    · exact absurd (congrArg some hid.symm) ((h.fetched.ids.rows r hr).2 i _ hi)

theorem Made.step {cfg : Config} {s t : State} {a : Act} (h : Made s) (hm : Moved cfg s t a) :
    Made t where
  fetched := h.fetched.step hm
  jobs i pc jobId id hi hins := by
    rcases submit_origin hm hi with ⟨hi₀, -⟩ | ⟨fl, -, -, rfl⟩ | ⟨f, pc₀, rfl, hi₀, hs⟩
    · exact (h.jobs i pc jobId id hi₀ hins).step hm
    · rcases SubmitPc.start_cases cfg s.world.now fl with ⟨e, he⟩ | ⟨-, ⟨pid, he⟩ | ⟨p, he⟩⟩ <;>
        (rw [he] at hins; cases hins)
    · cases hs with
      | queued hin hfs hjob =>
        cases hins
        exact madeFor_queued h hm hi₀ hjob
      | woke hdb hfs => exact (h.jobs i _ jobId id hi₀ hins).step hm
      | absent hf hw hnone | noPath hw hr hsha hpath | cleared hf hin hfs =>
        rw [inserted_needUpload] at hins
        cases hins
      | _ => cases hins

theorem reachable_made {cfg : Config} {s : State} (h : Reachable cfg s) : Made s := by
  refine Runs.Reachable.invariant ⟨?_, ?_⟩ (fun _ _ _ hi hs => hi.step (step_moved hs)) h
  · exact ⟨IdsOk.init, fun _ hjob => by cases hjob⟩
  · exact fun i pc jobId id hi => by simp [State.init] at hi

/-- The task still serves the request that arrived, or is gone. -/
def ServesAt (cfg : Config) (f : SubmitFields) (i : Nat) (s : State) : Prop :=
  ∃ τ, s.tasks[i]? = some τ ∧ ∀ pc, τ = .submit pc → Serves cfg f s.world pc

theorem ServesAt.step {cfg : Config} {f : SubmitFields} {i : Nat} {s t : State} {a : Act}
    (h : ServesAt cfg f i s) (hm : Moved cfg s t a) (hup : staysUp a = true) :
    ServesAt cfg f i t := by
  obtain ⟨τ, hi, hτ⟩ := h
  rcases hm.task_at hup hi with ⟨hi', -⟩ | ⟨φ, τ', rfl, hi', hp⟩ | ⟨-, hi', -⟩
  · exact ⟨τ, hi', fun pc hpc => (hτ pc hpc).step hm⟩
  · refine ⟨τ', hi', fun pc' hpc' => ?_⟩
    subst hpc'
    cases task_moved hp with
    | submit hp => exact serves_moved hm hp (hτ _ rfl)
  · exact ⟨_, hi', fun pc hpc => by cases hpc⟩

theorem ServesAt.run {cfg : Config} {f : SubmitFields} {i : Nat} {as : List Act} {s t : State}
    (h : ServesAt cfg f i s) (hrun : run cfg as s = some t)
    (hup : ∀ a ∈ as, staysUp a = true) : ServesAt cfg f i t := by
  induction as generalizing s with
  | nil =>
    obtain rfl := Option.some.inj hrun
    exact h
  | cons a as ih =>
    obtain ⟨m, hm, hrest⟩ := Runs.run_cons_some.mp hrun
    exact ih (h.step (step_moved hm) (hup a List.mem_cons_self)) hrest
      fun a' ha' => hup a' (List.mem_cons_of_mem a ha')

/-- The job that the `i`-th task has inserted, and its input. -/
def created (s : State) (i : Nat) : Option (String × Int) :=
  match s.tasks[i]? with
  | some (.submit pc) => inserted pc
  | _ => none

theorem created_eq {s : State} {i : Nat} {x : String × Int} (h : created s i = some x) :
    ∃ pc, s.tasks[i]? = some (.submit pc) ∧ inserted pc = some x := by
  unfold created at h
  split at h
  · rename_i pc hi
    exact ⟨pc, hi, h⟩
  · cases h

theorem inserted_row {pc : SubmitPc} {jobId : String} {id : Int}
    (h : inserted pc = some (jobId, id)) : rowOf pc = some id ∧ resolving pc = true := by
  cases pc with
  | wakeWorker id' jobId' =>
    cases h
    exact ⟨rfl, rfl⟩
  | answered r =>
    cases r with
    | accepted jobId' id' =>
      cases h
      exact ⟨rfl, rfl⟩
    | _ => cases h
  | _ => cases h

/-- In every reachable state: every input file holds bytes of the hash in its
name, every path in `inputs` is that of the row's own hash, and when a request
arrives then and later inserts its job, what the worker ever uploads for that job
has the hash the request gave. Without a collision it is what was uploaded. -/
theorem inputs_addressed {cfg : Config} {s : State} (hs : Reachable cfg s) :
    (∀ sha k b, s.world.files (inputPath sha k) = some b → cfg.sha256Hex b = sha) ∧
    (∀ r ∈ s.world.db.inputs.rows, ∀ p, r.path = some p → ∃ k, p = inputPath r.sha256 k) ∧
    ∀ f as m jobId id, run cfg (.arrive (.submit f) :: as) s = some m →
      (∀ a ∈ as, staysUp a = true) → created m s.tasks.length = some (jobId, id) →
      ∀ bs t job path sha b, run cfg bs m = some t →
        t.worker = .process job (.uploadImage path sha b) → job.id = jobId →
        cfg.sha256Hex b = f.inputSha256 ∧
          ∀ u ∈ f.upload, (∀ b', cfg.sha256Hex b' = cfg.sha256Hex u.bytes → b' = u.bytes) →
            b = u.bytes := by
  have hcache := reachable_addressed hs
  refine ⟨hcache.files, hcache.rows, fun f as m jobId id hrun hup hcreated bs t job path sha b ht
    hw hjob => ?_⟩
  have hm : Reachable cfg m := hs.run hrun
  obtain ⟨s₁, hs₁, hrest⟩ := Runs.run_cons_some.mp hrun
  -- the request from its arrival to the `INSERT`
  have harrived : ServesAt cfg f s.tasks.length s₁ := by
    obtain rfl := Option.some.inj hs₁
    refine ⟨.submit (.start cfg s.world.now f), by simp [Request.start], fun pc hpc => ?_⟩
    cases hpc
    exact serves_start cfg _ f _
  obtain ⟨τ, hi', hτ⟩ := harrived.run hrest hup
  obtain ⟨pc, hi, hins⟩ := created_eq hcreated
  obtain rfl := Option.some.inj (hi.symm.trans hi')
  obtain ⟨hrow, hres⟩ := inserted_row hins
  have hserved := hτ pc rfl
  -- the job from then on
  have hlater : RowIs f.inputSha256 t.world id ∧ MadeFor jobId id t :=
    Runs.invariant (I := fun u => RowIs f.inputSha256 u.world id ∧ MadeFor jobId id u)
      (fun u a v hu hstep => ⟨hu.1.step (step_moved hstep), hu.2.step (step_moved hstep)⟩) ht
      ⟨hserved.row id hrow, (reachable_made hm).jobs _ pc jobId id hi hins⟩
  have hholds := (reachable_addressed (hm.run ht)).worker
  rw [hw] at hholds
  obtain ⟨hb, r, hr, hsha⟩ := hholds
  have hinput : job.inputId = id := hlater.2.worker job (by rw [hw]; rfl) hjob
  obtain ⟨r', hr', hsha'⟩ := hlater.1
  rw [hinput] at hr
  obtain rfl := Option.some.inj (hr.symm.trans hr')
  have hhash : cfg.sha256Hex b = f.inputSha256 := hb.trans (hsha.symm.trans hsha')
  exact ⟨hhash, fun u hu hinj => hinj b (hhash.trans (hserved.hash hres u hu).symm)⟩

/-- The worker takes the uploaded image to ComfyUI. -/
def uploads : List Act := startAndClaim ++ List.replicate 3 (.worker .ok)

/-- The upload that the worker is at. -/
def uploading : WorkerPc → Option (QueuedJob × DataPath × String × Bytes)
  | .process job (.uploadImage path sha b) => some (job, path, sha, b)
  | _ => none

theorem uploading_eq_some {pc : WorkerPc} {job : QueuedJob} {path : DataPath} {sha : String}
    {b : Bytes} (h : uploading pc = some (job, path, sha, b)) :
    pc = .process job (.uploadImage path sha b) := by
  cases pc with
  | process job' stage =>
    cases stage with
    | uploadImage path' sha' b' =>
      cases h
      rfl
    | _ => cases h
  | _ => cases h

theorem inputs_addressed_sample : ∃ m t job path b,
    run sampleConfig (firstSubmit 0 jobA) State.init = some m ∧
    run sampleConfig uploads m = some t ∧
    t.worker = .process job (.uploadImage path abcSha b) ∧ b = [97, 98, 99] := by
  have hrun : ((run sampleConfig (firstSubmit 0 jobA) State.init).bind fun m =>
      if created m 0 = some (jobA, 1) then
        (run sampleConfig uploads m).bind fun t => uploading t.worker
      else none).map (fun x => (x.1.id, x.2.2.1)) = some (jobA, abcSha) := by
    rw [← List.append_nil (firstSubmit 0 jobA), run_first]
    decide +kernel
  obtain ⟨⟨job, path, sha, b⟩, hrun, hx⟩ := Option.map_eq_some_iff.mp hrun
  obtain ⟨m, hm, h⟩ := Option.bind_eq_some_iff.mp hrun
  obtain ⟨hcreated, h⟩ := Option.ite_none_right_eq_some.mp h
  obtain ⟨t, ht, h⟩ := Option.bind_eq_some_iff.mp h
  obtain ⟨hid, rfl⟩ := Prod.mk.inj hx
  have hw := uploading_eq_some h
  refine ⟨m, t, job, path, b, hm, ht, hw, ?_⟩
  refine ((inputs_addressed (Runs.Reachable.start (step sampleConfig) State.init)).2.2
    sampleUpload _ m jobA 1 hm (by decide) hcreated uploads t job path abcSha b ht hw hid).2
    _ rfl fun b' hb' => ?_
  by_contra hne
  simp [sampleConfig, hne, abcSha] at hb'

end ZunServer.ContentAddressed
