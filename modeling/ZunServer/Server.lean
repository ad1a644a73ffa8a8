import ZunServer.Runs
import ZunServer.Worker
import ZunServer.Handlers
import ZunServer.CustomPrompts
import ZunServer.Purge

/-!
# The server as one system

The worker, the requests being served, the renditions being made and the purges
under way, over the world they share. Any of them may take the next step, and
so may ComfyUI, the clock, a client that goes away and the process that dies.
-/
namespace ZunServer.Server

open Schema Statements Database Comfy Calls Renditions Worker Handlers CustomPrompts Purge

inductive ServerTask where
  | submit (pc : SubmitPc)
  | cancel (pc : CancelPc)
  | hide (pc : HidePc)
  | derived (pc : DerivedPc)
  | generate (pc : GeneratePc)
  | purge (pc : PurgePc)
  | get (pc : GetPc)
  | prompt (pc : PromptPc)
  /-- Its client is gone, or it was killed. -/
  | dropped

def ServerTask.next (cfg : Config) (now : Int) : ServerTask → Proc ServerTask
  | .submit pc => (pc.next cfg now).map .submit
  | .cancel pc => pc.next.map .cancel
  | .hide pc => pc.next.map .hide
  | .derived pc => pc.next.map .derived
  | .generate pc => pc.next.map .generate
  | .purge pc => pc.next.map .purge
  | .get pc => pc.next.map .get
  | .prompt pc => (pc.next cfg now).map .prompt
  | .dropped => none

inductive Request where
  | submit (f : SubmitFields)
  | cancel (jobId : String)
  | hide (kind : HideKind) (jobId : String)
  | derived (col : Column) (jobId : String) (format : DerivedFormat)
  | purge (o : PurgeOpts)
  | get (jobId : String) (wait : Option Nat)
  | createPrompt (body : Serde.Json)
  | patchPrompt (id : Int) (body : Serde.Json)
  | deletePrompt (id : Int)

def Request.start (cfg : Config) (now : Int) : Request → ServerTask
  | .submit f => .submit (.start cfg now f)
  | .cancel id => .cancel (.tryRunning id now)
  | .hide k id => .hide (.update k id now)
  | .derived col id fmt => .derived (.selectRow ⟨col, id, fmt, none, none⟩)
  | .purge o => .purge (.selectStaleJobs o)
  | .get id wait => .get (.selectRow id wait)
  | .createPrompt body => .prompt (.create cfg body)
  | .patchPrompt id body => .prompt (.patch id body)
  | .deletePrompt id => .prompt (.delete id now)

/-- What happens to the world without the server doing anything: `vanish` is a
file removed by hand, `prompts` the prompt catalog edited by hand. -/
inductive Env where
  | comfy (e : Backend.Event)
  | clock (now : Int)
  | vanish (p : DataPath)
  | prompts (t : Prompts)
  | shutdown

def Env.apply (w : World) : Env → Option World
  | .comfy e => (w.comfy.step e).map fun b => { w with comfy := b }
  | .clock now => some { w with now := now }
  | .vanish p => some { w with files := w.files.put p none }
  | .prompts t => some { w with db := { w.db with prompts := t } }
  | .shutdown => some { w with shutdown := true }

structure State where
  world : World
  worker : WorkerPc
  tasks : List ServerTask

def State.init : State := ⟨World.empty, .start, []⟩

/-- The process dies and is started again: what is left is on disk or in ComfyUI. -/
def State.restart (s : State) : State where
  world := { s.world with wake := false, events := 0, writer := none, shutdown := false }
  worker := .start
  tasks := []

inductive Act where
  | worker (f : Fate)
  | task (i : Nat) (f : Fate)
  | writer (f : Fate)
  | arrive (r : Request)
  | drop (i : Nat)
  | env (e : Env)
  | crash

/-- The process stays up. -/
def staysUp : Act → Bool
  | .crash => false
  | _ => true

def step (cfg : Config) (s : State) : Act → Option State
  | .worker f => (perform (s.worker.next cfg s.world.now) f s.world).map fun (w, pc, spawned) =>
    ⟨w, pc, s.tasks ++ spawned.map .generate⟩
  | .task i f => (s.tasks[i]?).bind fun τ =>
    (perform (τ.next cfg s.world.now) f s.world).map fun (w, τ') =>
      { s with world := w, tasks := s.tasks.set i τ' }
  | .writer f => (writerStep s.world f).map fun w => { s with world := w }
  | .arrive r => some { s with tasks := s.tasks ++ [r.start cfg s.world.now] }
  | .drop i => (s.tasks[i]?).bind fun τ =>
    if (τ.next cfg s.world.now).isSome then some { s with tasks := s.tasks.set i .dropped }
    else none
  | .env e => (e.apply s.world).map fun w => { s with world := w }
  | .crash => some s.restart

abbrev run (cfg : Config) : List Act → State → Option State := Runs.run (step cfg)
abbrev Along (cfg : Config) : (State → Act → Prop) → List Act → State → Prop := Runs.Along (step cfg)
abbrev Reachable (cfg : Config) : State → Prop := Runs.Reachable (step cfg) State.init

/-- A step, said of its two ends. -/
inductive Moved (cfg : Config) (s t : State) : Act → Prop
  | worker {f : Fate} {spawned : List GeneratePc}
      (h : perform (s.worker.next cfg s.world.now) f s.world = some (t.world, t.worker, spawned))
      (tasks : t.tasks = s.tasks ++ spawned.map .generate) : Moved cfg s t (.worker f)
  | task {i : Nat} {f : Fate} {τ τ' : ServerTask} (hi : s.tasks[i]? = some τ)
      (h : perform (τ.next cfg s.world.now) f s.world = some (t.world, τ'))
      (worker : t.worker = s.worker) (tasks : t.tasks = s.tasks.set i τ') :
      Moved cfg s t (.task i f)
  | writer {f : Fate} (h : writerStep s.world f = some t.world) (worker : t.worker = s.worker)
      (tasks : t.tasks = s.tasks) : Moved cfg s t (.writer f)
  | arrive {r : Request} (world : t.world = s.world) (worker : t.worker = s.worker)
      (tasks : t.tasks = s.tasks ++ [r.start cfg s.world.now]) : Moved cfg s t (.arrive r)
  | drop {i : Nat} {τ : ServerTask} (hi : s.tasks[i]? = some τ)
      (live : (τ.next cfg s.world.now).isSome) (world : t.world = s.world)
      (worker : t.worker = s.worker) (tasks : t.tasks = s.tasks.set i .dropped) :
      Moved cfg s t (.drop i)
  | env {e : Env} (h : e.apply s.world = some t.world) (worker : t.worker = s.worker)
      (tasks : t.tasks = s.tasks) : Moved cfg s t (.env e)
  | crash (h : t = s.restart) : Moved cfg s t .crash

theorem step_moved {cfg : Config} {s t : State} {a : Act} (h : step cfg s a = some t) :
    Moved cfg s t a := by
  cases a with
  | worker f =>
    obtain ⟨⟨w, pc, spawned⟩, hp, rfl⟩ := Option.map_eq_some_iff.mp h
    exact .worker hp rfl
  | task i f =>
    obtain ⟨τ, hi, h⟩ := Option.bind_eq_some_iff.mp h
    obtain ⟨⟨w, τ'⟩, hp, rfl⟩ := Option.map_eq_some_iff.mp h
    exact .task hi hp rfl rfl
  | writer f =>
    obtain ⟨w, hw, rfl⟩ := Option.map_eq_some_iff.mp h
    exact .writer hw rfl rfl
  | arrive r =>
    obtain rfl := Option.some.inj h
    exact .arrive rfl rfl rfl
  | drop i =>
    obtain ⟨τ, hi, h⟩ := Option.bind_eq_some_iff.mp h
    obtain ⟨hlive, h⟩ := Option.ite_none_right_eq_some.mp h
    obtain rfl := Option.some.inj h
    exact .drop hi hlive rfl rfl rfl
  | env e =>
    obtain ⟨w, hw, rfl⟩ := Option.map_eq_some_iff.mp h
    exact .env hw rfl rfl
  | crash => exact .crash (Option.some.inj h).symm

/-- A handler on its own, with nothing else moving. -/
def alone {π : Type} (next : Int → π → Proc π) (s : World × π) (f : Fate) : Option (World × π) :=
  perform (next s.1.now s.2) f s.1

/-- What a handler does on its own is a run of the server in which only its task moves. -/
theorem run_alone {cfg : Config} {π : Type} (wrap : π → ServerTask) (next : Int → π → Proc π)
    (hnext : ∀ now pc, (wrap pc).next cfg now = (next now pc).map wrap) {fs : List Fate} {s : State}
    {i : Nat} {pc pc' : π} {w' : World} (hi : s.tasks[i]? = some (wrap pc))
    (h : Runs.run (alone next) fs (s.world, pc) = some (w', pc')) :
    run cfg (fs.map (.task i)) s = some ⟨w', s.worker, s.tasks.set i (wrap pc')⟩ := by
  induction fs generalizing s pc with
  | nil =>
    cases h
    obtain ⟨hlen, hget⟩ := List.getElem?_eq_some_iff.mp hi
    rw [← hget, List.set_getElem_self]
    rfl
  | cons f fs ih =>
    obtain ⟨⟨w, q⟩, hstep, hrest⟩ := Runs.run_cons_some.mp h
    have hcall : perform ((wrap pc).next cfg s.world.now) f s.world = some (w, wrap q) := by
      rw [hnext]
      exact perform_map.mpr ⟨q, hstep, rfl⟩
    have hmove : step cfg s (.task i f) = some ⟨w, s.worker, s.tasks.set i (wrap q)⟩ := by
      simp only [step, hi, Option.bind_some, hcall, Option.map_some]
    have hlen : i < s.tasks.length := (List.getElem?_eq_some_iff.mp hi).1
    have hrun := ih (s := ⟨w, s.worker, s.tasks.set i (wrap q)⟩)
      (List.getElem?_set_self hlen) hrest
    rw [List.set_set] at hrun
    exact Runs.run_cons_some.mpr ⟨_, hmove, hrun⟩

/-- A task that makes a call stays a task of its kind. -/
inductive TaskMoved (cfg : Config) (now : Int) (w w' : World) (f : Fate) :
    ServerTask → ServerTask → Prop
  | submit {pc pc' : SubmitPc} (h : perform (pc.next cfg now) f w = some (w', pc')) :
      TaskMoved cfg now w w' f (.submit pc) (.submit pc')
  | cancel {pc pc' : CancelPc} (h : perform pc.next f w = some (w', pc')) :
      TaskMoved cfg now w w' f (.cancel pc) (.cancel pc')
  | hide {pc pc' : HidePc} (h : perform pc.next f w = some (w', pc')) :
      TaskMoved cfg now w w' f (.hide pc) (.hide pc')
  | derived {pc pc' : DerivedPc} (h : perform pc.next f w = some (w', pc')) :
      TaskMoved cfg now w w' f (.derived pc) (.derived pc')
  | generate {pc pc' : GeneratePc} (h : perform pc.next f w = some (w', pc')) :
      TaskMoved cfg now w w' f (.generate pc) (.generate pc')
  | purge {pc pc' : PurgePc} (h : perform pc.next f w = some (w', pc')) :
      TaskMoved cfg now w w' f (.purge pc) (.purge pc')
  | get {pc pc' : GetPc} (h : perform pc.next f w = some (w', pc')) :
      TaskMoved cfg now w w' f (.get pc) (.get pc')
  | prompt {pc pc' : PromptPc} (h : perform (pc.next cfg now) f w = some (w', pc')) :
      TaskMoved cfg now w w' f (.prompt pc) (.prompt pc')

theorem task_moved {cfg : Config} {now : Int} {w w' : World} {f : Fate} {τ τ' : ServerTask}
    (h : perform (τ.next cfg now) f w = some (w', τ')) : TaskMoved cfg now w w' f τ τ' := by
  cases τ with
  | submit pc =>
    obtain ⟨pc', hp, rfl⟩ := perform_map.mp h
    exact .submit hp
  | cancel pc =>
    obtain ⟨pc', hp, rfl⟩ := perform_map.mp h
    exact .cancel hp
  | hide pc =>
    obtain ⟨pc', hp, rfl⟩ := perform_map.mp h
    exact .hide hp
  | derived pc =>
    obtain ⟨pc', hp, rfl⟩ := perform_map.mp h
    exact .derived hp
  | generate pc =>
    obtain ⟨pc', hp, rfl⟩ := perform_map.mp h
    exact .generate hp
  | purge pc =>
    obtain ⟨pc', hp, rfl⟩ := perform_map.mp h
    exact .purge hp
  | get pc =>
    obtain ⟨pc', hp, rfl⟩ := perform_map.mp h
    exact .get hp
  | prompt pc =>
    obtain ⟨pc', hp, rfl⟩ := perform_map.mp h
    exact .prompt hp
  | dropped => cases h

/-- Where the task at a place comes from. -/
inductive Origin (cfg : Config) (s t : State) (i : Nat) (τ : ServerTask) : Act → Prop
  | kept {a : Act} (hi : s.tasks[i]? = some τ) (ha : ∀ f, a ≠ .task i f) : Origin cfg s t i τ a
  | moved {f : Fate} {τ₀ : ServerTask} (hi : s.tasks[i]? = some τ₀)
      (h : perform (τ₀.next cfg s.world.now) f s.world = some (t.world, τ)) :
      Origin cfg s t i τ (.task i f)
  | arrived {r : Request} (hi : i = s.tasks.length) (hτ : τ = r.start cfg s.world.now) :
      Origin cfg s t i τ (.arrive r)
  | spawned {f : Fate} {l : List GeneratePc} {g : GeneratePc} (hi : s.tasks.length ≤ i)
      (h : perform (s.worker.next cfg s.world.now) f s.world = some (t.world, t.worker, l))
      (hg : g ∈ l) (hτ : τ = .generate g) : Origin cfg s t i τ (.worker f)
  | dropped (hτ : τ = .dropped) : Origin cfg s t i τ (.drop i)

theorem Moved.origin {cfg : Config} {s t : State} {a : Act} (h : Moved cfg s t a) {i : Nat}
    {τ : ServerTask} (hi : t.tasks[i]? = some τ) : Origin cfg s t i τ a := by
  cases h with
  | worker h tasks =>
    rw [tasks, List.getElem?_append] at hi
    split at hi
    · exact .kept hi (by simp)
    · rename_i hlen
      obtain ⟨g, hg, rfl⟩ := List.mem_map.mp (List.mem_of_getElem? hi)
      exact .spawned (by omega) h hg rfl
  | task hj h worker tasks =>
    rename_i j f τ₀ τ'
    rw [tasks, List.getElem?_set] at hi
    by_cases hij : j = i
    · subst hij
      simp only [↓reduceIte, Option.ite_none_right_eq_some, Option.some.injEq] at hi
      obtain ⟨-, rfl⟩ := hi
      exact .moved hj h
    · simp only [hij, ↓reduceIte] at hi
      exact .kept hi (by simp [hij])
  | writer h worker tasks => exact .kept (tasks ▸ hi) (by simp)
  | arrive world worker tasks =>
    rw [tasks, List.getElem?_append] at hi
    split at hi
    · exact .kept hi (by simp)
    · rename_i hlen
      have hmem := List.mem_of_getElem? hi
      have hzero : i - s.tasks.length = 0 := by
        by_contra hne
        rw [List.getElem?_eq_none (by simp; omega)] at hi
        cases hi
      exact .arrived (by omega) (by simpa using hmem)
  | drop hj live world worker tasks =>
    rename_i j τ₀
    rw [tasks, List.getElem?_set] at hi
    by_cases hij : j = i
    · subst hij
      simp only [↓reduceIte, Option.ite_none_right_eq_some, Option.some.injEq] at hi
      exact .dropped hi.2.symm
    · simp only [hij, ↓reduceIte] at hi
      exact .kept hi (by simp)
  | env h worker tasks => exact .kept (tasks ▸ hi) (by simp)
  | crash h =>
    subst h
    simp [State.restart] at hi

/-- A purge among the tasks is there from before, has just begun, or has moved. -/
theorem Moved.purge_origin {cfg : Config} {s t : State} {a : Act} (h : Moved cfg s t a) {i : Nat}
    {pc : PurgePc} (hi : t.tasks[i]? = some (.purge pc)) :
    (s.tasks[i]? = some (.purge pc) ∧ ∀ f, a ≠ .task i f) ∨
    (∃ o, a = .arrive (.purge o) ∧ i = s.tasks.length ∧ pc = .selectStaleJobs o) ∨
    (∃ f pc₀, a = .task i f ∧ s.tasks[i]? = some (.purge pc₀) ∧
      perform pc₀.next f s.world = some (t.world, pc)) := by
  cases h.origin hi with
  | kept hi ha => exact .inl ⟨hi, ha⟩
  | moved hi₀ hp =>
    cases task_moved hp with
    | purge hp => exact .inr (.inr ⟨_, _, rfl, hi₀, hp⟩)
  | arrived hlen hτ =>
    rename_i r
    cases r with
    | purge o =>
      cases hτ
      exact .inr (.inl ⟨o, rfl, hlen, rfl⟩)
    | _ => cases hτ
  | spawned hi hp hg hτ => cases hτ
  | dropped hτ => cases hτ

/-- Where the task at a place is after a step. -/
theorem Moved.task_at {cfg : Config} {s t : State} {a : Act} (h : Moved cfg s t a)
    (hup : staysUp a = true) {i : Nat} {τ : ServerTask} (hi : s.tasks[i]? = some τ) :
    (t.tasks[i]? = some τ ∧ ∀ f, a ≠ .task i f) ∨
    (∃ f τ', a = .task i f ∧ t.tasks[i]? = some τ' ∧
      perform (τ.next cfg s.world.now) f s.world = some (t.world, τ')) ∨
    (a = .drop i ∧ t.tasks[i]? = some .dropped ∧ (τ.next cfg s.world.now).isSome) := by
  have hlen : i < s.tasks.length := (List.getElem?_eq_some_iff.mp hi).1
  cases h with
  | worker h tasks =>
    rw [tasks, List.getElem?_append_left hlen]
    exact .inl ⟨hi, by simp⟩
  | task hj h worker tasks =>
    rename_i j f τ₀ τ'
    rw [tasks, List.getElem?_set]
    by_cases hij : j = i
    · subst hij
      obtain rfl := Option.some.inj (hi.symm.trans hj)
      refine .inr (.inl ⟨f, τ', rfl, ?_, h⟩)
      rw [if_pos rfl, if_pos hlen]
    · rw [if_neg hij]
      exact .inl ⟨hi, by simp [hij]⟩
  | writer h worker tasks =>
    rw [tasks]
    exact .inl ⟨hi, by simp⟩
  | arrive world worker tasks =>
    rw [tasks, List.getElem?_append_left hlen]
    exact .inl ⟨hi, by simp⟩
  | drop hj live world worker tasks =>
    rename_i j τ₀
    rw [tasks, List.getElem?_set]
    by_cases hij : j = i
    · subst hij
      obtain rfl := Option.some.inj (hi.symm.trans hj)
      rw [if_pos rfl, if_pos hlen]
      exact .inr (.inr ⟨rfl, rfl, live⟩)
    · rw [if_neg hij]
      exact .inl ⟨hi, by simp⟩
  | env h worker tasks =>
    rw [tasks]
    exact .inl ⟨hi, by simp⟩
  | crash h => cases hup

theorem Moved.dropped_stays {cfg : Config} {s t : State} {a : Act} (h : Moved cfg s t a)
    (hup : staysUp a = true) {i : Nat} (hi : s.tasks[i]? = some .dropped) :
    t.tasks[i]? = some .dropped := by
  rcases h.task_at hup hi with ⟨hi', -⟩ | ⟨f, τ', -, -, hp⟩ | ⟨-, hi', -⟩
  · exact hi'
  · cases hp
  · exact hi'

/-- Who runs a statement on `jobs`, and from where. -/
inductive Issues (s : State) : Act → JobStmt → Prop
  | reset (h : s.worker = .start) : Issues s (.worker .ok) .resetRunningJobs
  | claim {job} (h : s.worker = .claim job) :
      Issues s (.worker .ok) (.markRunning s.world.now job.id)
  | storePromptId {job client pid} (h : s.worker = .process job (.storePromptId client pid)) :
      Issues s (.worker .ok) (.updateComfyPromptId job.id pid)
  | markDone {job out w h} (h' : s.worker = .process job (.markDone out w h)) :
      Issues s (.worker .ok) (.markDone s.world.now job.id out w h)
  | requeue {job} (h : s.worker = .process job .requeue) : Issues s (.worker .ok) (.requeue job.id)
  | markFailed {job e} (h : s.worker = .process job (.markFailed e)) :
      Issues s (.worker .ok) (.markFailed s.world.now job.id e)
  | progress {f wr p} (h : s.world.writer = some wr) (hp : p ∈ wr.channel) :
      Issues s (.writer f) (.writeProgress wr.jobId p)
  | tryRunning {i id now} (h : s.tasks[i]? = some (.cancel (.tryRunning id now))) :
      Issues s (.task i .ok) (.cancelRunning now id)
  | tryQueued {i id now} (h : s.tasks[i]? = some (.cancel (.tryQueued id now))) :
      Issues s (.task i .ok) (.cancelQueued now id)
  | retryRunning {i id now} (h : s.tasks[i]? = some (.cancel (.retryRunning id now))) :
      Issues s (.task i .ok) (.cancelRunning now id)
  | hide {i k id now} (h : s.tasks[i]? = some (.hide (.update k id now))) :
      Issues s (.task i .ok) (k.stmt now id)
  | persistJpegFirst {i c out dst}
      (h : s.tasks[i]? = some (.derived (.persistJpegFirst c out dst))) :
      Issues s (.task i .ok) (.setDerivedPath c.col c.jobId dst)
  | persistJpeg {i c dst} (h : s.tasks[i]? = some (.derived (.persistJpeg c dst))) :
      Issues s (.task i .ok) (.setDerivedPath c.col c.jobId dst)
  | generated {i id out dst col rest}
      (h : s.tasks[i]? = some (.generate (.persist id out dst col rest))) :
      Issues s (.task i .ok) (.setDerivedPath col id dst)

/-- Only the worker claims a job, and only the one it has fetched. -/
theorem issues_markRunning {s : State} {a : Act} {now : Int} {id : String}
    (h : Issues s a (.markRunning now id)) :
    ∃ job, s.worker = .claim job ∧ job.id = id ∧ a = .worker .ok := by
  generalize hst : JobStmt.markRunning now id = st at h
  cases h with
  | claim hw => exact ⟨_, hw, (JobStmt.markRunning.inj hst).2.symm, rfl⟩
  | hide hi =>
    rename_i k _ _
    cases k <;> cases hst
  | _ => cases hst

theorem issues_writeProgress {s : State} {a : Act} {id : String} {p : ℚ}
    (h : Issues s a (.writeProgress id p)) : ∃ f, a = .writer f := by
  generalize hst : JobStmt.writeProgress id p = st at h
  cases h with
  | progress hwr hp => exact ⟨_, rfl⟩
  | hide hi =>
    rename_i k _ _
    cases k <;> cases hst
  | _ => cases hst

theorem worker_issues {cfg : Config} {s : State} {st : JobStmt}
    {k : Call.Answer (.sql (.job st)) → WorkerPc × List GeneratePc}
    (h : s.worker.next cfg s.world.now = some ⟨.sql (.job st), k⟩) : Issues s (.worker .ok) st := by
  cases hpc : s.worker with
  | process job stage =>
    rw [hpc] at h
    cases stage with
    | storePromptId client pid =>
      cases h
      exact .storePromptId hpc
    | markDone out w h' =>
      cases h
      exact .markDone hpc
    | requeue =>
      cases h
      exact .requeue hpc
    | markFailed e =>
      cases h
      exact .markFailed hpc
    | _ => cases h
  | start =>
    rw [hpc] at h
    cases h
    exact .reset hpc
  | claim job =>
    rw [hpc] at h
    cases h
    exact .claim hpc
  | _ =>
    rw [hpc] at h
    cases h

theorem task_issues {cfg : Config} {s : State} {i : Nat} {τ : ServerTask} (hi : s.tasks[i]? = some τ)
    {st : JobStmt} {k : Call.Answer (.sql (.job st)) → ServerTask}
    (h : τ.next cfg s.world.now = some ⟨.sql (.job st), k⟩) : Issues s (.task i .ok) st := by
  cases τ with
  | submit pc =>
    obtain ⟨k₀, h, -⟩ := Proc.map_eq_some.mp h
    cases pc <;> cases h
  | cancel pc =>
    obtain ⟨k₀, h, -⟩ := Proc.map_eq_some.mp h
    cases pc <;> cases h
    · exact .tryRunning hi
    · exact .tryQueued hi
    · exact .retryRunning hi
  | hide pc =>
    obtain ⟨k₀, h, -⟩ := Proc.map_eq_some.mp h
    cases pc <;> cases h
    exact .hide hi
  | derived pc =>
    obtain ⟨k₀, h, -⟩ := Proc.map_eq_some.mp h
    cases pc <;> cases h
    · exact .persistJpegFirst hi
    · exact .persistJpeg hi
  | generate pc =>
    obtain ⟨k₀, h, -⟩ := Proc.map_eq_some.mp h
    cases pc <;> cases h
    exact .generated hi
  | purge pc | get pc | prompt pc =>
    obtain ⟨k₀, h, -⟩ := Proc.map_eq_some.mp h
    cases pc <;> cases h
  | dropped => cases h

/-- A submit that inserts its job, and a purge that deletes one. -/
theorem task_insertJob {cfg : Config} {now : Int} {τ : ServerTask} {row : JobRow}
    {k : Call.Answer (.sql (.insertJob row)) → ServerTask}
    (h : τ.next cfg now = some ⟨.sql (.insertJob row), k⟩) :
    ∃ p inputId id n, τ = .submit (.insertJob p inputId id n) ∧
      row = newJob id inputId p.sourcePromptId p.promptText p.workflow p.timeoutSeconds n now := by
  cases τ with
  | submit pc =>
    obtain ⟨k₀, h, -⟩ := Proc.map_eq_some.mp h
    cases pc <;> cases h
    exact ⟨_, _, _, _, rfl, rfl⟩
  | cancel pc | hide pc | derived pc | generate pc | purge pc | get pc | prompt pc =>
    obtain ⟨k₀, h, -⟩ := Proc.map_eq_some.mp h
    cases pc <;> cases h
  | dropped => cases h

theorem task_deleteJobRow {cfg : Config} {now : Int} {τ : ServerTask} {id : String}
    {k : Call.Answer (.sql (.deleteJobRow id)) → ServerTask}
    (h : τ.next cfg now = some ⟨.sql (.deleteJobRow id), k⟩) :
    ∃ o r j todo, τ = .purge (.deleteRow o r j todo) ∧ id = j.id := by
  cases τ with
  | purge pc =>
    obtain ⟨k₀, h, -⟩ := Proc.map_eq_some.mp h
    cases pc <;> cases h
    exact ⟨_, _, _, _, rfl, rfl⟩
  | cancel pc | hide pc | derived pc | generate pc | submit pc | get pc | prompt pc =>
    obtain ⟨k₀, h, -⟩ := Proc.map_eq_some.mp h
    cases pc <;> cases h
  | dropped => cases h

/-- What the worker alone asks of the runtime. -/
def workersCall : RuntimeCall → Bool
  | .idle | .sleep | .shutdownRequested | .spawnProgressWriter _ | .nextFrame _
  | .joinProgressWriter => true
  | _ => false

theorem task_runtime {cfg : Config} {now : Int} {τ : ServerTask} {q : RuntimeCall}
    {k : Call.Answer (.runtime q) → ServerTask} (h : τ.next cfg now = some ⟨.runtime q, k⟩) :
    workersCall q = false := by
  cases τ with
  | submit pc | cancel pc | hide pc | derived pc | generate pc | purge pc | get pc | prompt pc =>
    obtain ⟨k₀, h, -⟩ := Proc.map_eq_some.mp h
    cases pc <;> cases h <;> rfl
  | dropped => cases h

/-- What a step does to the `jobs` table. -/
inductive JobsStep (s t : State) (a : Act) : Prop
  | same (h : t.world.db.jobs = s.world.db.jobs)
  | update {st : JobStmt} (hst : Issues s a st)
      (h : t.world.db.jobs = s.world.db.jobs.update st.update)
  | insert {i : Nat} {f : Fate} {p : Resolved} {inputId n : Int} {id : String} (ha : a = .task i f)
      (hi : s.tasks[i]? = some (.submit (.insertJob p inputId id n)))
      (h : s.world.db.jobs.insert? (newJob id inputId p.sourcePromptId p.promptText p.workflow
        p.timeoutSeconds n s.world.now) = some t.world.db.jobs)
  | delete {i : Nat} {f : Fate} {o : PurgeOpts} {r : PurgeReport} {j : StaleJob}
      {todo : List StaleJob} (ha : a = .task i f)
      (hi : s.tasks[i]? = some (.purge (.deleteRow o r j todo)))
      (h : t.world.db.jobs = s.world.db.jobs.delete (fun row => row.id = j.id))

theorem worker_sql {cfg : Config} {now : Int} {pc : WorkerPc} {q : Sql}
    {k : Call.Answer (.sql q) → WorkerPc × List GeneratePc}
    (h : pc.next cfg now = some ⟨.sql q, k⟩) :
    (∃ st, q = .job st) ∨ q = .fetchOldestQueued ∨ ∃ id, q = .selectInputById id := by
  cases pc with
  | process job stage => cases stage <;> cases h <;> simp
  | _ => cases h <;> simp

/-- What the environment may change, and what it leaves alone. -/
structure EnvChange (e : Env) (w w' : World) : Prop where
  jobs : w'.db.jobs = w.db.jobs
  inputs : w'.db.inputs = w.db.inputs
  prompts : w'.db.prompts = w.db.prompts ∨ ∃ t, e = .prompts t
  files : w'.files = w.files ∨ ∃ p, e = .vanish p ∧ w'.files = w.files.put p none
  comfy : w'.comfy = w.comfy ∨ ∃ c, e = .comfy c ∧ w.comfy.step c = some w'.comfy
  issued : w'.issued = w.issued
  writer : w'.writer = w.writer
  wake : w'.wake = w.wake
  events : w'.events = w.events

theorem Env.apply_change {w w' : World} {e : Env} (h : e.apply w = some w') : EnvChange e w w' := by
  cases e with
  | comfy c =>
    obtain ⟨b, hb, rfl⟩ := Option.map_eq_some_iff.mp h
    exact ⟨rfl, rfl, .inl rfl, .inl rfl, .inr ⟨c, rfl, hb⟩, rfl, rfl, rfl, rfl⟩
  | vanish p =>
    cases h
    exact ⟨rfl, rfl, .inl rfl, .inr ⟨p, rfl, rfl⟩, .inl rfl, rfl, rfl, rfl, rfl⟩
  | prompts t =>
    cases h
    exact ⟨rfl, rfl, .inr ⟨t, rfl⟩, .inl rfl, .inl rfl, rfl, rfl, rfl, rfl⟩
  | clock n | shutdown =>
    cases h
    exact ⟨rfl, rfl, .inl rfl, .inl rfl, .inl rfl, rfl, rfl, rfl, rfl⟩

/-- The statement that a step executes, if it writes to the database. -/
inductive SqlStep (cfg : Config) (s t : State) : Act → Prop
  | none {a : Act} (h : t.world.db = s.world.db) : SqlStep cfg s t a
  | worker {q : Sql} {k : Call.Answer (.sql q) → WorkerPc × List GeneratePc} {x : q.Result}
      (hc : s.worker.next cfg s.world.now = some ⟨.sql q, k⟩)
      (hrun : q.run s.world.db = .ok (t.world.db, x)) : SqlStep cfg s t (.worker .ok)
  | task {i : Nat} {τ : ServerTask} {q : Sql} {k : Call.Answer (.sql q) → ServerTask} {x : q.Result}
      (hi : s.tasks[i]? = some τ) (hc : τ.next cfg s.world.now = some ⟨.sql q, k⟩)
      (hrun : q.run s.world.db = .ok (t.world.db, x)) : SqlStep cfg s t (.task i .ok)
  | writer {f : Fate} {wr : Writer} {p : Rat} {n : Nat} (hwr : s.world.writer = some wr)
      (hp : p ∈ wr.channel)
      (hrun : (Sql.job (.writeProgress wr.jobId p)).run s.world.db = .ok (t.world.db, n)) :
      SqlStep cfg s t (.writer f)
  | env {e : Env} (h : EnvChange e s.world t.world) : SqlStep cfg s t (.env e)

theorem Moved.sql {cfg : Config} {s t : State} {a : Act} (h : Moved cfg s t a) :
    SqlStep cfg s t a := by
  cases h with
  | worker h tasks =>
    obtain ⟨c, k, x, hc, hex, -⟩ := perform_eq_some.mp h
    rcases (exec_change hex).db with hdb | ⟨q, y, rfl, -⟩
    · exact .none hdb
    rcases execSql_eq_some hex with ⟨db, y, rfl, hrun, hw, -⟩ | ⟨hw, -⟩
    · have hdb : t.world.db = db := by rw [hw]
      exact .worker hc (hdb ▸ hrun)
    · exact .none (by rw [hw])
  | task hi h worker tasks =>
    obtain ⟨c, k, x, hc, hex, -⟩ := perform_eq_some.mp h
    rcases (exec_change hex).db with hdb | ⟨q, y, rfl, -⟩
    · exact .none hdb
    rcases execSql_eq_some hex with ⟨db, y, rfl, hrun, hw, -⟩ | ⟨hw, -⟩
    · have hdb : t.world.db = db := by rw [hw]
      exact .task hi hc (hdb ▸ hrun)
    · exact .none (by rw [hw])
  | writer h worker tasks =>
    obtain ⟨wr, wr', hwr, -, -, -, hdb⟩ := writerStep_change h
    rcases hdb with hdb | ⟨p, hp, n, hrun⟩
    · exact .none hdb
    · exact .writer hwr hp hrun
  | arrive world worker tasks => exact .none (by rw [world])
  | drop hi live world worker tasks => exact .none (by rw [world])
  | env h worker tasks => exact .env (Env.apply_change h)
  | crash h => exact .none (by rw [h]; rfl)

theorem Moved.jobs {cfg : Config} {s t : State} {a : Act} (h : Moved cfg s t a) : JobsStep s t a := by
  cases h.sql with
  | none hdb => exact .same (by rw [hdb])
  | worker hc hrun =>
    rcases Sql.run_jobs hrun with ⟨st, rfl, hj⟩ | ⟨row, rfl, hj⟩ | ⟨id, rfl, hj⟩ | ⟨-, -, -, hj⟩
    · exact .update (worker_issues hc) hj
    · rcases worker_sql hc with ⟨st, hq⟩ | hq | ⟨id, hq⟩ <;> cases hq
    · rcases worker_sql hc with ⟨st, hq⟩ | hq | ⟨id, hq⟩ <;> cases hq
    · exact .same hj
  | task hi hc hrun =>
    rcases Sql.run_jobs hrun with ⟨st, rfl, hj⟩ | ⟨row, rfl, hj⟩ | ⟨id, rfl, hj⟩ | ⟨-, -, -, hj⟩
    · exact .update (task_issues hi hc) hj
    · obtain ⟨p, inputId, id, n, rfl, rfl⟩ := task_insertJob hc
      exact .insert rfl hi hj
    · obtain ⟨o, r, j, todo, rfl, rfl⟩ := task_deleteJobRow hc
      exact .delete rfl hi hj
    · exact .same hj
  | writer hwr hp hrun =>
    rcases Sql.run_jobs hrun with ⟨st, hq, hj⟩ | ⟨row, hq, -⟩ | ⟨id, hq, -⟩ | ⟨hq, -⟩
    · cases hq
      exact .update (.progress hwr hp) hj
    · cases hq
    · cases hq
    · exact absurd rfl (hq _)
  | env he => exact .same he.jobs

/-- Who writes the `inputs` table, and how. -/
inductive InputsStep (s t : State) : Act → Prop
  | same {a : Act} (h : t.world.db.inputs = s.world.db.inputs) : InputsStep s t a
  | touched {i : Nat} {f : SubmitFields} {p : Resolved} {now id : Int}
      (hi : s.tasks[i]? = some (.submit (.touch f p now id)))
      (h : t.world.db.inputs = s.world.db.inputs.update (touchInput now id)) :
      InputsStep s t (.task i .ok)
  | cleared {i : Nat} {f : SubmitFields} {p : Resolved} {now id : Int}
      (hi : s.tasks[i]? = some (.submit (.clearPath f p now id)))
      (h : t.world.db.inputs = s.world.db.inputs.update (clearInputPath id)) :
      InputsStep s t (.task i .ok)
  | stored {i : Nat} {f : SubmitFields} {p : Resolved} {now id : Int} {fields : InputFields}
      (hi : s.tasks[i]? = some (.submit (.updateInput f p now id fields)))
      (h : t.world.db.inputs = s.world.db.inputs.update (storeInput now id fields)) :
      InputsStep s t (.task i .ok)
  | inserted {i : Nat} {f : SubmitFields} {p : Resolved} {now : Int} {fields : InputFields}
      (hi : s.tasks[i]? = some (.submit (.insertInput f p now fields)))
      (hnew : ∀ r ∈ s.world.db.inputs.rows, r.sha256 ≠ f.inputSha256)
      (h : s.world.db.inputs.insert? (newInput (nextRowId s.world.db.inputs) f.inputSha256 now
        fields) = some t.world.db.inputs) : InputsStep s t (.task i .ok)
  | purged {i : Nat} {r : PurgeReport} {id : Int} {todo : List (Int × DataPath)}
      (hi : s.tasks[i]? = some (.purge (.clearPath r id todo)))
      (h : t.world.db.inputs = s.world.db.inputs.update (clearInputPath id)) :
      InputsStep s t (.task i .ok)

theorem task_writes {cfg : Config} {n : Int} {τ : ServerTask} {q : Sql}
    {k : Call.Answer (.sql q) → ServerTask} (h : τ.next cfg n = some ⟨.sql q, k⟩) :
    (∃ f p now id, τ = .submit (.touch f p now id) ∧ q = .touchInput now id) ∨
    (∃ f p now id, τ = .submit (.clearPath f p now id) ∧ q = .clearInputPath id) ∨
    (∃ f p now id fields, τ = .submit (.updateInput f p now id fields) ∧
      q = .storeInput now id fields) ∨
    (∃ f p now fields, τ = .submit (.insertInput f p now fields) ∧
      q = .insertInput f.inputSha256 now fields) ∨
    (∃ r id todo, τ = .purge (.clearPath r id todo) ∧ q = .clearInputPath id) ∨
    ((∀ now id, q ≠ .touchInput now id) ∧ (∀ id, q ≠ .clearInputPath id) ∧
      (∀ now id fields, q ≠ .storeInput now id fields) ∧
      ∀ sha now fields, q ≠ .insertInput sha now fields) := by
  cases τ with
  | submit pc =>
    obtain ⟨k₀, h, -⟩ := Proc.map_eq_some.mp h
    cases pc with
    | touch f p now id =>
      cases h
      exact .inl ⟨f, p, now, id, rfl, rfl⟩
    | clearPath f p now id =>
      cases h
      exact .inr (.inl ⟨f, p, now, id, rfl, rfl⟩)
    | updateInput f p now id fields =>
      cases h
      exact .inr (.inr (.inl ⟨f, p, now, id, fields, rfl, rfl⟩))
    | insertInput f p now fields =>
      cases h
      exact .inr (.inr (.inr (.inl ⟨f, p, now, fields, rfl, rfl⟩)))
    | _ => cases h <;> simp
  | purge pc =>
    obtain ⟨k₀, h, -⟩ := Proc.map_eq_some.mp h
    cases pc with
    | clearPath r id todo =>
      cases h
      exact .inr (.inr (.inr (.inr (.inl ⟨r, id, todo, rfl, rfl⟩))))
    | _ => cases h <;> simp
  | cancel pc | hide pc | derived pc | generate pc | get pc | prompt pc =>
    obtain ⟨k₀, h, -⟩ := Proc.map_eq_some.mp h
    cases pc <;> cases h <;> simp
  | dropped => cases h

theorem Moved.inputs {cfg : Config} {s t : State} {a : Act} (h : Moved cfg s t a) :
    InputsStep s t a := by
  cases h.sql with
  | none hdb => exact .same (by rw [hdb])
  | worker hc hrun =>
    rcases worker_sql hc with ⟨st, rfl⟩ | rfl | ⟨id, rfl⟩ <;>
      exact .same (by rw [← (Prod.mk.inj (Except.ok.inj hrun)).1])
  | task hi hc hrun =>
    rcases task_writes hc with ⟨f, p, now, id, rfl, rfl⟩ | ⟨f, p, now, id, rfl, rfl⟩ |
      ⟨f, p, now, id, fields, rfl, rfl⟩ | ⟨f, p, now, fields, rfl, rfl⟩ | ⟨r, id, todo, rfl, rfl⟩ |
      ⟨htouch, hclear, hstore, hinsert⟩
    all_goals rcases Sql.run_inputs hrun with ⟨now', id', he, hin⟩ | ⟨id', he, hin⟩ |
      ⟨now', id', fields', he, hin⟩ | ⟨sha', now', fields', he, hnew, hin⟩ |
      ⟨ht', hc', hs', hi', hin⟩
    all_goals first | exact .same hin | cases he
    · exact .touched hi hin
    · exact .cleared hi hin
    · exact .stored hi hin
    · exact .inserted hi hnew hin
    · exact .purged hi hin
    · exact absurd rfl (htouch _ _)
    · exact absurd rfl (hclear _)
    · exact absurd rfl (hstore _ _ _)
    · exact absurd rfl (hinsert _ _ _)
  | writer hwr hp hrun => exact .same (by rw [← (Prod.mk.inj (Except.ok.inj hrun)).1])
  | env he => exact .same he.inputs

/-- The file a purge is about to remove. -/
def removing : PurgePc → Option DataPath
  | .removeFile _ _ _ p _ _ | .removeInput _ _ p _ => some p
  | _ => none

inductive FilesStep (s t : State) : Act → Prop
  | same {a : Act} (h : t.world.files = s.world.files) : FilesStep s t a
  | put {a : Act} {p : DataPath} {b : Bytes} (h : t.world.files = s.world.files.put p (some b)) :
      FilesStep s t a
  | purged {i : Nat} {f : Fate} {pc : PurgePc} {p : DataPath} (hi : s.tasks[i]? = some (.purge pc))
      (hp : removing pc = some p) (h : t.world.files = s.world.files.put p none) :
      FilesStep s t (.task i f)
  | vanished {p : DataPath} (h : t.world.files = s.world.files.put p none) :
      FilesStep s t (.env (.vanish p))

theorem worker_removes {cfg : Config} {now : Int} {pc : WorkerPc} {p : DataPath}
    {k : Call.Answer (.file (.removeFile p)) → WorkerPc × List GeneratePc} :
    pc.next cfg now ≠ some ⟨.file (.removeFile p), k⟩ := by
  intro h
  cases pc with
  | process job stage => cases stage <;> cases h
  | _ => cases h

theorem task_removes {cfg : Config} {now : Int} {τ : ServerTask} {p : DataPath}
    {k : Call.Answer (.file (.removeFile p)) → ServerTask}
    (h : τ.next cfg now = some ⟨.file (.removeFile p), k⟩) :
    ∃ pc, τ = .purge pc ∧ removing pc = some p := by
  cases τ with
  | purge pc =>
    obtain ⟨k₀, h, -⟩ := Proc.map_eq_some.mp h
    cases pc <;> cases h
    · exact ⟨_, rfl, rfl⟩
    · exact ⟨_, rfl, rfl⟩
  | submit pc | cancel pc | hide pc | derived pc | generate pc | get pc | prompt pc =>
    obtain ⟨k₀, h, -⟩ := Proc.map_eq_some.mp h
    cases pc <;> cases h
  | dropped => cases h

/-- The call on a file that a step makes, if it changes the files. -/
inductive FileCallStep (cfg : Config) (s t : State) : Act → Prop
  | none {a : Act} (h : t.world.files = s.world.files) : FileCallStep cfg s t a
  | worker {f : Fate} {q : FileCall} {k : q.Answer → WorkerPc × List GeneratePc} {x : q.Answer}
      (hc : s.worker.next cfg s.world.now = some ⟨.file q, k⟩)
      (hex : exec s.world (.file q) f = some (t.world, x)) : FileCallStep cfg s t (.worker f)
  | task {i : Nat} {f : Fate} {τ : ServerTask} {q : FileCall} {k : q.Answer → ServerTask}
      {x : q.Answer} (hi : s.tasks[i]? = some τ)
      (hc : τ.next cfg s.world.now = some ⟨.file q, k⟩)
      (hex : exec s.world (.file q) f = some (t.world, x)) : FileCallStep cfg s t (.task i f)
  | vanished {p : DataPath} (h : t.world.files = s.world.files.put p none) :
      FileCallStep cfg s t (.env (.vanish p))

theorem Moved.fileCall {cfg : Config} {s t : State} {a : Act} (h : Moved cfg s t a) :
    FileCallStep cfg s t a := by
  cases h with
  | worker h tasks =>
    obtain ⟨c, k, x, hc, hex, -⟩ := perform_eq_some.mp h
    rcases (exec_change hex).files with he | ⟨q, rfl, -⟩
    · exact .none he
    · exact .worker hc hex
  | task hi h worker tasks =>
    obtain ⟨c, k, x, hc, hex, -⟩ := perform_eq_some.mp h
    rcases (exec_change hex).files with he | ⟨q, rfl, -⟩
    · exact .none he
    · exact .task hi hc hex
  | writer h worker tasks =>
    obtain ⟨wr, wr', -, hw, -⟩ := writerStep_change h
    exact .none (by rw [hw])
  | arrive world worker tasks => exact .none (by rw [world])
  | drop hi live world worker tasks => exact .none (by rw [world])
  | env h worker tasks =>
    rcases (Env.apply_change h).files with he | ⟨p, rfl, he⟩
    · exact .none he
    · exact .vanished he
  | crash h => exact .none (by rw [h]; rfl)

theorem Moved.files {cfg : Config} {s t : State} {a : Act} (h : Moved cfg s t a) :
    FilesStep s t a := by
  cases h.fileCall with
  | none he => exact .same he
  | worker hc hex =>
    rcases (execFile_frame hex).2 with he | ⟨p, b, -, he⟩ | ⟨p, rfl, -⟩ | ⟨out, dst, b, -, he⟩
    · exact .same he
    · exact .put he
    · exact absurd hc worker_removes
    · exact .put he
  | task hi hc hex =>
    rcases (execFile_frame hex).2 with he | ⟨p, b, -, he⟩ | ⟨p, rfl, he⟩ | ⟨out, dst, b, -, he⟩
    · exact .same he
    · exact .put he
    · obtain ⟨pc, rfl, hp⟩ := task_removes hc
      exact .purged hi hp he
    · exact .put he
  | vanished he => exact .vanished he

/-- The prompt that `process_job` submits. -/
def promptOf (job : QueuedJob) (name client promptId : String) : Prompt :=
  ⟨promptId, client, some ⟨job.workflow, job.promptText, name, job.id, job.seed⟩⟩

inductive ComfyStep (s t : State) : Act → Prop
  | same {a : Act} (h : t.world.comfy = s.world.comfy) : ComfyStep s t a
  | submit {f : Fate} {job : QueuedJob} {name client pid : String}
      (hw : s.worker = .process job (.submitPrompt name client))
      (hf : f = .name pid ∨ ∃ e, f = .answerLost pid e)
      (h : s.world.comfy.accept (promptOf job name client pid) = some t.world.comfy) :
      ComfyStep s t (.worker f)
  | timeout {f : Fate} {job : QueuedJob} {client pid : String}
      (hw : s.worker = .process job (.interrupt client pid))
      (h : t.world.comfy = s.world.comfy.stop) : ComfyStep s t (.worker f)
  | cancel {i : Nat} {f : Fate} {id : String} (hi : s.tasks[i]? = some (.cancel (.interrupt id)))
      (hf : f = .ok ∨ ∃ pid e, f = .answerLost pid e)
      (h : t.world.comfy = s.world.comfy.stop) : ComfyStep s t (.task i f)
  | alone {e : Backend.Event} (h : s.world.comfy.step e = some t.world.comfy) :
      ComfyStep s t (.env (.comfy e))

theorem worker_comfy {cfg : Config} {now : Int} {pc : WorkerPc} {q : ComfyCall}
    {k : Call.Answer (.comfy q) → WorkerPc × List GeneratePc}
    (h : pc.next cfg now = some ⟨.comfy q, k⟩) :
    (∀ wf client, q = .submitPrompt wf client → ∃ job name,
      pc = .process job (.submitPrompt name client) ∧
      wf = ⟨job.workflow, job.promptText, name, job.id, job.seed⟩) ∧
    (q = .interrupt → ∃ job client pid, pc = .process job (.interrupt client pid)) := by
  cases pc with
  | process job stage =>
    cases stage <;> cases h
    all_goals refine ⟨fun wf client he => ?_, fun he => ?_⟩
    all_goals cases he
    · exact ⟨_, _, rfl, rfl⟩
    · exact ⟨_, _, _, rfl⟩
  | _ => cases h

theorem task_comfy {cfg : Config} {now : Int} {τ : ServerTask} {q : ComfyCall}
    {k : Call.Answer (.comfy q) → ServerTask} (h : τ.next cfg now = some ⟨.comfy q, k⟩) :
    q = .interrupt ∧ ∃ id, τ = .cancel (.interrupt id) := by
  cases τ with
  | cancel pc =>
    obtain ⟨k₀, h, -⟩ := Proc.map_eq_some.mp h
    cases pc <;> cases h
    exact ⟨rfl, _, rfl⟩
  | submit pc | hide pc | derived pc | generate pc | purge pc | get pc | prompt pc =>
    obtain ⟨k₀, h, -⟩ := Proc.map_eq_some.mp h
    cases pc <;> cases h
  | dropped => cases h

theorem Moved.comfy {cfg : Config} {s t : State} {a : Act} (h : Moved cfg s t a) :
    ComfyStep s t a := by
  cases h with
  | worker h tasks =>
    obtain ⟨c, k, x, hc, hex, -⟩ := perform_eq_some.mp h
    rcases (exec_change hex).comfy with he | ⟨q, rfl, hq⟩
    · exact .same he
    · obtain ⟨hsub, hint⟩ := worker_comfy hc
      rcases hq with he | ⟨wf, client, pid, hq, hf, hacc⟩ | ⟨hq, -, he⟩
      · exact .same he
      · obtain ⟨job, name, hw, rfl⟩ := hsub wf client hq
        exact .submit hw hf hacc
      · obtain ⟨job, client, pid, hw⟩ := hint hq
        exact .timeout hw he
  | task hi h worker tasks =>
    obtain ⟨c, k, x, hc, hex, -⟩ := perform_eq_some.mp h
    rcases (exec_change hex).comfy with he | ⟨q, rfl, hq⟩
    · exact .same he
    · obtain ⟨rfl, id, rfl⟩ := task_comfy hc
      rcases hq with he | ⟨wf, client, pid, hq, -⟩ | ⟨-, hf, he⟩
      · exact .same he
      · cases hq
      · exact .cancel hi hf he
  | writer h worker tasks =>
    obtain ⟨wr, wr', -, hw, -⟩ := writerStep_change h
    exact .same (by rw [hw])
  | arrive world worker tasks => exact .same (by rw [world])
  | drop hi live world worker tasks => exact .same (by rw [world])
  | env h worker tasks =>
    rcases (Env.apply_change h).comfy with he | ⟨c, rfl, he⟩
    · exact .same he
    · exact .alone he
  | crash h => exact .same (by rw [h]; rfl)

/-- The hash of the three bytes of "abc". -/
def abcSha : String := "ba7816bf8f01cfea414140de5dae2223b00361a396177a9cb410ff61f20015ad"

def sampleConfig : Config where
  dataDir := "/srv/zun"
  sha256Hex b := if b = [97, 98, 99] then abcSha else ""
  workflows := ⟨["edit"], [("edit", ⟨true, none⟩)]⟩

def sampleUpload : SubmitFields :=
  ⟨abcSha, some "cat.png", none, some "make it blue", some "edit", some ⟨[97, 98, 99], .png⟩⟩

/-- Some UUIDs. -/
def jobA : String := "00000000-0000-4000-8000-00000000000a"
def jobB : String := "00000000-0000-4000-8000-00000000000b"
def jobC : String := "00000000-0000-4000-8000-00000000000c"
def clientA : String := "00000000-0000-4000-8000-0000000000ca"
def clientB : String := "00000000-0000-4000-8000-0000000000cb"

/-- The `i`-th request uploads the image and is the first to do so. -/
def firstSubmit (i : Nat) (id : String) : List Act :=
  [.arrive (.submit sampleUpload), .task i .ok, .task i .ok, .task i (.dimensions (some (8, 8))),
    .task i .ok, .task i (.drew id), .task i (.seed 14), .task i .ok, .task i .ok]

/-- Another request for the same image. -/
def nextSubmit (i : Nat) (id : String) : List Act :=
  [.arrive (.submit sampleUpload), .task i .ok, .task i .ok, .task i .ok, .task i (.drew id),
    .task i (.seed 14), .task i .ok, .task i .ok]

/-- The worker resets, finds the oldest job and claims it. -/
def startAndClaim : List Act := List.replicate 5 (.worker .ok)

/-- From the claim up to the answer of `POST /prompt`. -/
def processToSubmit (client promptId : String) : List Act :=
  [.worker .ok, .worker .ok, .worker .ok, .worker (.name "up.png"), .worker (.drew client),
    .worker .ok, .worker (.name promptId)]

def outputName (id : String) : String := "zun_" ++ id ++ "_00001_.png"

/-- ComfyUI runs the prompt and the worker takes the image. -/
def processToDone (id : String) : List Act :=
  [.worker .ok, .worker .ok, .env (.comfy .start), .env (.comfy .finish),
    .worker (.frame .executingNull), .worker .ok,
    .worker (.history (some ⟨true, some "success", [("9", [⟨outputName id, "", "output"⟩])]⟩)),
    .worker (.body [1, 2, 3]), .worker .ok, .worker (.dimensions (some (8, 8))), .worker .ok,
    .worker .ok]

def doneRun : List Act :=
  firstSubmit 0 jobA ++ startAndClaim ++ processToSubmit clientA "p1" ++ processToDone jobA

/-- A cancel that arrives while ComfyUI runs the job's prompt. -/
def cancelRun : List Act :=
  firstSubmit 0 jobA ++ startAndClaim ++ processToSubmit clientA "p1" ++
    [.env (.comfy .start), .arrive (.cancel jobA), .task 1 .ok, .task 1 .ok, .task 1 .ok]

/-- What the checks of the request make of `sampleUpload`. -/
def sampleImage : Upload := ⟨[97, 98, 99], .png⟩
def sampleResolved : Resolved := ⟨"edit", "make it blue", none, defaultTimeoutSeconds⟩
def samplePath : DataPath :=
  ⟨.cacheInputs, "ba7816bf8f01cfea414140de5dae2223b00361a396177a9cb410ff61f20015ad.png"⟩
def sampleFields : InputFields := ⟨samplePath, some "cat.png", "image/png", 3, some 8, some 8⟩

theorem upload_start (now : Int) : SubmitPc.start sampleConfig now sampleUpload =
    .selectInput sampleUpload sampleResolved now := by
  have hsha : isValidSha256Hex abcSha = true := by decide +kernel
  have hname : ¬ "cat.png".utf8ByteSize > maxInputNameLen := by decide +kernel
  have htext : ("make it blue".toList.all Redact.isWhitespace) = false := by decide +kernel
  have hlen : ¬ "make it blue".utf8ByteSize > maxPromptLen := by decide +kernel
  have hflow : sampleConfig.workflows.supports "edit" = .ok () := by decide +kernel
  simp only [SubmitPc.start, sampleUpload, hsha, not_true_eq_false, ↓reduceIte, Option.any_some, hname,
    decide_false, Bool.false_eq_true, SubmitPc.resolveText, hflow, htext, hlen, SubmitPc.resolveInput]
  rfl

/-- No row for the hash: the image is to be stored. -/
theorem upload_misses (now : Int) (p : Resolved) (row : Option Int) :
    SubmitPc.needUpload sampleUpload p now row =
      .write sampleUpload p now row sampleImage samplePath := by
  have hpath : dataPath .cacheInputs (abcSha ++ "." ++ "png") = .ok samplePath := by decide +kernel
  simp only [SubmitPc.needUpload, sampleUpload, ImageKind.ext, hpath, sampleImage]

/-- The server while it has only this submit to serve. -/
def serving (w : World) (pc : SubmitPc) : State := ⟨w, .start, [.submit pc]⟩

/-- The world after the file, the `inputs` row, the job's id and the `jobs` row. -/
def storedWorld : World :=
  { World.empty with files := World.empty.files.put samplePath (some sampleImage.bytes) }

def recordedWorld : World := { storedWorld with
  db := { storedWorld.db with inputs := ⟨[newInput 1 abcSha 0 sampleFields], by simp⟩ } }

def drawnWorld : World := { recordedWorld with issued := [jobA] }

def queuedWorld : World := { drawnWorld with
  db := { drawnWorld.db with
    jobs := ⟨[newJob jobA 1 none "make it blue" "edit" defaultTimeoutSeconds 7 0], by simp⟩ } }

/-- Where the first submit leads. -/
def firstJob : State := serving { queuedWorld with wake := true } (.answered (.accepted jobA 1))

/-- The steps of `firstSubmit 0 jobA`, each with the state it starts in. The samples
below go on from `firstJob` and need not decode the request again. -/
def firstVisits : List (State × Act) :=
  [(State.init, .arrive (.submit sampleUpload)),
    (serving World.empty (.selectInput sampleUpload sampleResolved 0), .task 0 .ok),
    (serving World.empty (.write sampleUpload sampleResolved 0 none sampleImage samplePath),
      .task 0 .ok),
    (serving storedWorld (.dimensions sampleUpload sampleResolved 0 none sampleImage samplePath),
      .task 0 (.dimensions (some (8, 8)))),
    (serving storedWorld (.insertInput sampleUpload sampleResolved 0 sampleFields), .task 0 .ok),
    (serving recordedWorld (.newJobId sampleResolved 1), .task 0 (.drew jobA)),
    (serving drawnWorld (.seed sampleResolved 1 jobA), .task 0 (.seed 14)),
    (serving drawnWorld (.insertJob sampleResolved 1 jobA 7), .task 0 .ok),
    (serving queuedWorld (.wakeWorker 1 jobA), .task 0 .ok)]

theorem step_serving {w w' : World} {pc pc' : SubmitPc} {f : Fate}
    (h : perform (pc.next sampleConfig w.now) f w = some (w', pc')) :
    step sampleConfig (serving w pc) (.task 0 f) = some (serving w' pc') := by
  have hp : perform ((ServerTask.submit pc).next sampleConfig w.now) f w = some (w', .submit pc') :=
    perform_map.mpr ⟨pc', h, rfl⟩
  simp only [step, serving, List.getElem?_cons_zero, Option.bind_some, hp, Option.map_some,
    List.set_cons_zero]

theorem first_trace : Runs.Trace (step sampleConfig) firstVisits State.init firstJob := by
  have harrive : step sampleConfig State.init (.arrive (.submit sampleUpload)) =
      some (serving World.empty (.selectInput sampleUpload sampleResolved 0)) := by
    simp only [step, Request.start, upload_start]
    rfl
  have hselect : perform (SubmitPc.next sampleConfig 0 (.selectInput sampleUpload sampleResolved 0)) .ok
      World.empty = some (World.empty,
        .write sampleUpload sampleResolved 0 none sampleImage samplePath) :=
    perform_eq_some.mpr ⟨.sql (.selectInputBySha abcSha), _, .ok none, rfl, rfl,
      upload_misses 0 sampleResolved none⟩
  have huuid : isUuid jobA ∧ jobA ∉ recordedWorld.issued :=
    ⟨by decide +kernel, by simp [recordedWorld, storedWorld, World.empty]⟩
  have hexec : exec recordedWorld (.runtime .newUuid) (.drew jobA) = some (drawnWorld, jobA) := by
    simp only [exec, execRuntime]
    exact if_pos huuid
  have hdraw : perform (SubmitPc.next sampleConfig 0 (.newJobId sampleResolved 1)) (.drew jobA)
      recordedWorld = some (drawnWorld, .seed sampleResolved 1 jobA) :=
    perform_eq_some.mpr ⟨.runtime .newUuid, _, jobA, rfl, hexec, rfl⟩
  exact ⟨rfl, _, harrive, rfl, _, step_serving hselect, rfl, _, step_serving rfl, rfl, _,
    step_serving rfl, rfl, _, step_serving rfl, rfl, _, step_serving hdraw, rfl, _,
    step_serving rfl, rfl, _, step_serving rfl, rfl, _, step_serving rfl, rfl⟩

theorem run_first (as : List Act) : run sampleConfig (firstSubmit 0 jobA ++ as) State.init =
    run sampleConfig as firstJob := first_trace.run_append as

theorem along_first {P : State → Act → Prop} (as : List Act) :
    Along sampleConfig P (firstSubmit 0 jobA ++ as) State.init ↔
      (∀ x ∈ firstVisits, P x.1 x.2) ∧ Along sampleConfig P as firstJob :=
  first_trace.along_append as

end ZunServer.Server
