import ZunServer.ContentAddressed
import ZunServer.Provenance

/-!
# From the request to the job

Every row of `jobs` goes back to the arrival of one submit, and no two rows to the same.
What ComfyUI was given for the job, and what is served as its result, is therefore what
that request asked for.
-/
namespace ZunServer.Requests

open KeyedTable
open Schema Statements Database Comfy Calls Renditions Worker Handlers CustomPrompts Purge Server
open Rows Lifecycle SubmitSteps WorkerSteps RowInvariant InputCache FirstUpload ContentAddressed
open Provenance

/-- The `k`-th step is the arrival of this submit, which becomes the `i`-th task. -/
def Arrived (past : List (State × Act)) (k i : Nat) (f : SubmitFields) : Prop :=
  ∃ u, past[k]? = some (u, .arrive (.submit f)) ∧ u.tasks.length = i

/-- What `resolve_prompt` may make of a request that arrived with the `k`-th step: the client's
own text, or that of a prompt which was there and not deleted at some step after. -/
inductive Resolves (past : List (State × Act)) (k : Nat) (f : SubmitFields) : Resolved → Prop
  | text {workflow text : String} (hid : f.promptId = none) (htext : f.promptText = some text)
      (hflow : f.workflowOverride = some workflow) :
      Resolves past k f ⟨workflow, text, none, defaultTimeoutSeconds⟩
  | prompt {pid : Int} {m : Nat} {x : State × Act} {r : PromptRow} (hid : f.promptId = some pid)
      (htext : f.promptText = none) (hm : k < m) (hx : past[m]? = some x)
      (hr : x.1.world.db.prompts.find? pid = some r) (hlive : r.deletedAt = none) :
      Resolves past k f ⟨r.workflow, r.text, some pid, clampTimeoutSeconds r.timeoutSeconds⟩

/-- The row is about what this request asks for. -/
structure Fits (past : List (State × Act)) (k : Nat) (f : SubmitFields) (w : World)
    (r : JobRow) : Prop where
  resolved : ∃ p, Resolves past k f p ∧ r.sourcePromptId = p.sourcePromptId ∧
    r.promptText = p.promptText ∧ r.workflow = p.workflow ∧ r.timeoutSeconds = p.timeoutSeconds
  input : RowIs f.inputSha256 w r.inputId

theorem getElem?_grow {α : Type} {past : List α} {k : Nat} {y : α} (h : past[k]? = some y) (x : α) :
    (past ++ [x])[k]? = some y :=
  (List.getElem?_append_left (List.getElem?_eq_some_iff.mp h).1).trans h

theorem Arrived.grow {past : List (State × Act)} {k i : Nat} {f : SubmitFields}
    (h : Arrived past k i f) (x : State × Act) : Arrived (past ++ [x]) k i f := by
  obtain ⟨u, hu, hi⟩ := h
  exact ⟨u, getElem?_grow hu x, hi⟩

/-- The process has not died since the `k`-th step. -/
def Lives (past : List (State × Act)) (k : Nat) : Prop :=
  ∀ x ∈ past.drop (k + 1), staysUp x.2 = true

theorem Lives.grow {past : List (State × Act)} {k : Nat} (h : Lives past k) (hk : k < past.length)
    {x : State × Act} (hx : staysUp x.2 = true) : Lives (past ++ [x]) k := by
  intro y hy
  rw [List.drop_append_of_le_length (by omega)] at hy
  rcases List.mem_append.mp hy with hy | hy
  · exact h y hy
  · obtain rfl := List.mem_singleton.mp hy
    exact hx

theorem Arrived.lt {past : List (State × Act)} {k i : Nat} {f : SubmitFields}
    (h : Arrived past k i f) : k < past.length := by
  obtain ⟨u, hu, -⟩ := h
  exact (List.getElem?_eq_some_iff.mp hu).1

/-- One arrival is that of one task, with one request. -/
theorem Arrived.unique {past : List (State × Act)} {k i j : Nat} {f g : SubmitFields}
    (h : Arrived past k i f) (h' : Arrived past k j g) : i = j ∧ f = g := by
  obtain ⟨u, hu, rfl⟩ := h
  obtain ⟨v, hv, rfl⟩ := h'
  rw [hu] at hv
  simp only [Option.some.injEq, Prod.mk.injEq, Act.arrive.injEq, Request.submit.injEq] at hv
  obtain ⟨rfl, rfl⟩ := hv
  exact ⟨rfl, rfl⟩

theorem Resolves.grow {past : List (State × Act)} {k : Nat} {f : SubmitFields} {p : Resolved}
    (h : Resolves past k f p) (x : State × Act) : Resolves (past ++ [x]) k f p := by
  cases h with
  | text hid htext hflow => exact .text hid htext hflow
  | prompt hid htext hm hx hr hlive => exact .prompt hid htext hm (getElem?_grow hx x) hr hlive

theorem Fits.grow {cfg : Config} {past : List (State × Act)} {k : Nat} {f : SubmitFields}
    {s t : State} {a : Act} {r r' : JobRow} (h : Fits past k f s.world r) (hm : Moved cfg s t a)
    (hsame : SameRequest r r') : Fits (past ++ [(s, a)]) k f t.world r' where
  resolved := by
    obtain ⟨p, hp, hid, htext, hflow, htime⟩ := h.resolved
    exact ⟨p, hp.grow _, hsame.sourcePromptId.trans hid, hsame.promptText.trans htext,
      hsame.workflow.trans hflow, hsame.timeoutSeconds.trans htime⟩
  input := by
    rw [hsame.inputId]
    exact h.input.step hm

/-- The resolved prompt that the handler carries. -/
def resolvedOf : SubmitPc → Option Resolved
  | .selectInput _ p _ | .stat _ p _ _ _ | .touch _ p _ _ | .clearPath _ p _ _
  | .write _ p _ _ _ _ | .dimensions _ p _ _ _ _ | .updateInput _ p _ _ _ | .insertInput _ p _ _
  | .newJobId p _ | .seed p _ _ | .insertJob p _ _ _ => some p
  | _ => none

/-- The handler is after what this request asks for. -/
structure Asked (cfg : Config) (past : List (State × Act)) (k : Nat) (f : SubmitFields) (w : World)
    (pc : SubmitPc) : Prop where
  serves : Serves cfg f w pc
  resolves : ∀ p ∈ resolvedOf pc, Resolves past k f p
  selects : ∀ g pid, pc = .selectPrompt g pid → f.promptId = some pid ∧ f.promptText = none

theorem Asked.grow {cfg : Config} {past : List (State × Act)} {k : Nat} {f : SubmitFields}
    {s t : State} {a : Act} {pc : SubmitPc} (h : Asked cfg past k f s.world pc)
    (hm : Moved cfg s t a) : Asked cfg (past ++ [(s, a)]) k f t.world pc where
  serves := h.serves.step hm
  resolves p hp := (h.resolves p hp).grow _
  selects := h.selects

theorem resolvedOf_resolveInput {cfg : Config} {now : Int} {f : SubmitFields} {p q : Resolved}
    (h : q ∈ resolvedOf (.resolveInput cfg now f p)) : q = p := by
  rcases SubmitPc.resolveInput_cases cfg now f p with ⟨e, he⟩ | he
  · rw [he] at h
    cases h
  · rw [he] at h
    exact (Option.some.inj h).symm

theorem resolvedOf_needUpload {f : SubmitFields} {p q : Resolved} {now : Int} {row : Option Int}
    (h : q ∈ resolvedOf (.needUpload f p now row)) : q = p := by
  rcases SubmitPc.needUpload_cases f p now row with ⟨e, he⟩ | ⟨u, path, -, he⟩
  · rw [he] at h
    cases h
  · rw [he] at h
    exact (Option.some.inj h).symm

/-- A text of the client's own goes with the workflow the client names. -/
theorem resolveText_asks (cfg : Config) (now : Int) (f : SubmitFields) (text : String) :
    (∃ e, SubmitPc.resolveText cfg now f text = .badRequest e) ∨
      ∃ workflow, f.workflowOverride = some workflow ∧ SubmitPc.resolveText cfg now f text =
        .resolveInput cfg now f ⟨workflow, text, none, defaultTimeoutSeconds⟩ := by
  unfold SubmitPc.resolveText
  split
  · exact .inl ⟨_, rfl⟩
  · rename_i workflow hflow
    split
    · exact .inl ⟨_, rfl⟩
    · split
      · exact .inl ⟨_, rfl⟩
      · split
        · exact .inl ⟨_, rfl⟩
        · exact .inr ⟨workflow, hflow, rfl⟩

theorem start_asks (cfg : Config) (now : Int) (f : SubmitFields) :
    (∃ e, SubmitPc.start cfg now f = .badRequest e) ∨
      (∃ pid, f.promptId = some pid ∧ f.promptText = none ∧
        SubmitPc.start cfg now f = .selectPrompt f pid) ∨
      ∃ workflow text, f.promptId = none ∧ f.promptText = some text ∧
        f.workflowOverride = some workflow ∧ SubmitPc.start cfg now f =
          .resolveInput cfg now f ⟨workflow, text, none, defaultTimeoutSeconds⟩ := by
  unfold SubmitPc.start
  split
  · exact .inl ⟨_, rfl⟩
  · split
    · exact .inl ⟨_, rfl⟩
    · split
      · exact .inl ⟨_, rfl⟩
      · exact .inl ⟨_, rfl⟩
      · rename_i pid hid htext
        exact .inr (.inl ⟨pid, hid, htext, rfl⟩)
      · rename_i text hid htext
        exact (resolveText_asks cfg now f text).imp_right fun ⟨workflow, hflow, he⟩ =>
          .inr ⟨workflow, text, hid, htext, hflow, he⟩

theorem asked_start (cfg : Config) (past : List (State × Act)) (k : Nat) (now : Int)
    (f : SubmitFields) (w : World) : Asked cfg past k f w (.start cfg now f) := by
  refine ⟨serves_start cfg now f w, fun p hp => ?_, fun g pid he => ?_⟩
  · rcases start_asks cfg now f with
      ⟨e, h⟩ | ⟨pid, -, -, h⟩ | ⟨workflow, text, hid, htext, hflow, h⟩
    · rw [h] at hp
      cases hp
    · rw [h] at hp
      cases hp
    · rw [h] at hp
      obtain rfl := resolvedOf_resolveInput hp
      exact .text hid htext hflow
  · rcases start_asks cfg now f with ⟨e, h⟩ | ⟨pid', hid, htext, h⟩ | ⟨workflow, text, -, -, -, h⟩
    · rw [h] at he
      cases he
    · rw [h] at he
      cases he
      exact ⟨hid, htext⟩
    · rw [h] at he
      rcases SubmitPc.resolveInput_cases cfg now f
        ⟨workflow, text, none, defaultTimeoutSeconds⟩ with ⟨e, h'⟩ | h' <;>
          (rw [h'] at he; cases he)

/-- The prompt that `resolve_prompt` finds. -/
theorem prompt_call {cfg : Config} {w w' : World} {φ : Fate} {f : SubmitFields} {pid : Int}
    {pc : SubmitPc}
    (h : perform ((SubmitPc.selectPrompt f pid).next cfg w.now) φ w = some (w', pc)) {p : Resolved}
    (hp : p ∈ resolvedOf pc) :
    ∃ r, w.db.prompts.find? pid = some r ∧ r.deletedAt = none ∧
      p = ⟨r.workflow, r.text, some pid, clampTimeoutSeconds r.timeoutSeconds⟩ := by
  obtain ⟨c, k, x, hc, hex, hk⟩ := perform_eq_some.mp h
  cases hc
  rcases exec_sql_ok rfl hex with ⟨-, -, e, rfl⟩ | ⟨-, -, rfl⟩
  · cases hk
    cases hp
  · cases hr : (w.db.prompts.find? pid).filter (fun r => r.deletedAt = none) with
    | none =>
      rw [hr] at hk
      cases hk
      cases hp
    | some r =>
      rw [hr] at hk
      obtain ⟨hfind, hlive⟩ := Option.filter_eq_some_iff.mp hr
      dsimp only [Option.map_some] at hk
      split at hk
      · cases hk
        cases hp
      · cases hk
        exact ⟨r, hfind, of_decide_eq_true hlive, resolvedOf_resolveInput hp⟩

/-- No call of the handler leads back to the prompt. -/
theorem step_selects {w w' : World} {φ : Fate} {pc pc' : SubmitPc} (h : SubmitStep w w' φ pc pc')
    (g : SubmitFields) (pid : Int) : pc' ≠ .selectPrompt g pid := by
  have upload : ∀ {f p now row}, SubmitPc.needUpload f p now row ≠ .selectPrompt g pid := by
    intro f p now row he
    rcases SubmitPc.needUpload_cases f p now row with ⟨e, h⟩ | ⟨u, path, -, h⟩ <;>
      (rw [h] at he; cases he)
  cases h with
  | absent | noPath | cleared => exact upload
  | _ => exact nofun

theorem asked_moved {cfg : Config} {past : List (State × Act)} {k : Nat} {f : SubmitFields}
    {s t : State} {i : Nat} {φ : Fate} {pc pc' : SubmitPc} (hm : Moved cfg s t (.task i φ))
    (hp : perform (pc.next cfg s.world.now) φ s.world = some (t.world, pc')) (hk : k < past.length)
    (h : Asked cfg past k f s.world pc) :
    Asked cfg (past ++ [(s, .task i φ)]) k f t.world pc' := by
  refine ⟨serves_moved hm hp h.serves, fun p hpc' => ?_,
    fun g pid he => absurd he (step_selects (submit_step hp) g pid)⟩
  have kept : p ∈ resolvedOf pc → Resolves (past ++ [(s, .task i φ)]) k f p :=
    fun hpc => (h.resolves p hpc).grow _
  have hs := submit_step hp
  cases hs with
  | prompt hw =>
    obtain ⟨r, hr, hlive, rfl⟩ := prompt_call hp hpc'
    obtain ⟨hid, htext⟩ := h.selects _ _ rfl
    exact .prompt hid htext hk (List.getElem?_concat_length) hr hlive
  | absent | noPath | cleared =>
    obtain rfl := resolvedOf_needUpload hpc'
    exact kept rfl
  | cached | hit | miss | touched | wrote | decodedOld | decodedNew | stored | inserted | drew
  | seeded => exact kept hpc'
  | _ => cases hpc'

/-- The `i`-th task inserts this job in this step. -/
structure Queues (s t : State) (a : Act) (i : Nat) (p : Resolved) (id : Int) (jobId : String)
    (n : Int) : Prop where
  act : ∃ φ, a = .task i φ
  task : s.tasks[i]? = some (.submit (.insertJob p id jobId n))
  insert : s.world.db.jobs.insert? (newJob jobId id p.sourcePromptId p.promptText p.workflow
    p.timeoutSeconds n s.world.now) = some t.world.db.jobs

/-- Every submit that is a task and every row has the step of its arrival. -/
structure Numbered (cfg : Config) (past : List (State × Act)) (s : State) (task : Nat → Nat)
    (job : String → Nat) : Prop where
  made : Made s
  tasks : ∀ (i : Nat) pc, s.tasks[i]? = some (.submit pc) →
    ∃ f, Arrived past (task i) i f ∧ Asked cfg past (task i) f s.world pc
  up : ∀ (i : Nat) pc, s.tasks[i]? = some (.submit pc) → Lives past (task i)
  rows : ∀ r ∈ s.world.db.jobs.rows,
    ∃ i f, Arrived past (job r.id) i f ∧ Fits past (job r.id) f s.world r
  distinct : ∀ r ∈ s.world.db.jobs.rows, ∀ r' ∈ s.world.db.jobs.rows, job r.id = job r'.id →
    r.id = r'.id
  passed : ∀ (i : Nat) pc, s.tasks[i]? = some (.submit pc) → ∀ r ∈ s.world.db.jobs.rows,
    task i = job r.id → (inserted pc).isSome
  told : ∀ (i : Nat) pc jobId id, s.tasks[i]? = some (.submit pc) →
    inserted pc = some (jobId, id) → job jobId = task i

/-- Once the job is inserted the handler only has its answer to give. -/
theorem inserted_call {cfg : Config} {now : Int} {w w' : World} {φ : Fate} {pc pc' : SubmitPc}
    (h : perform (pc.next cfg now) φ w = some (w', pc')) (hin : (inserted pc).isSome) :
    inserted pc' = inserted pc := by
  obtain ⟨c, k, x, hc, -, hk⟩ := perform_eq_some.mp h
  cases pc with
  | wakeWorker id jobId =>
    cases hc
    cases hk
    rfl
  | answered r => cases hc
  | _ => cases hin

theorem insert_length {t t' : Jobs} {r : JobRow} (h : t.insert? r = some t') :
    t'.rows.length = t.rows.length + 1 := by
  rw [(Table.insert?_eq_some.mp h).2, List.length_append, List.length_singleton]

/-- A job is told of by the handler that inserts it. -/
theorem inserted_origin {cfg : Config} {w w' : World} {φ : Fate} {pc pc' : SubmitPc}
    (h : perform (pc.next cfg w.now) φ w = some (w', pc')) {jobId : String} {id : Int}
    (hin : inserted pc' = some (jobId, id)) :
    inserted pc = some (jobId, id) ∨ ∃ p n, pc = .insertJob p id jobId n ∧
      w'.db.jobs.rows.length = w.db.jobs.rows.length + 1 := by
  cases submit_step h with
  | queued _ _ hjob =>
    cases hin
    exact .inr ⟨_, _, rfl, insert_length hjob⟩
  | woke hdb hfs =>
    cases hin
    exact .inl rfl
  | absent | noPath | cleared =>
    rw [inserted_needUpload] at hin
    cases hin
  | _ => cases hin

/-- Where a submit among the tasks comes from. -/
inductive Comes (cfg : Config) (s t : State) (i : Nat) (pc : SubmitPc) : Act → Prop
  | kept {a : Act} (hi : s.tasks[i]? = some (.submit pc)) (ha : ∀ φ, a ≠ .task i φ) :
      Comes cfg s t i pc a
  | moved {φ : Fate} {pc₀ : SubmitPc} (hi : s.tasks[i]? = some (.submit pc₀))
      (hp : perform (pc₀.next cfg s.world.now) φ s.world = some (t.world, pc)) :
      Comes cfg s t i pc (.task i φ)
  | arrived {f : SubmitFields} (hi : i = s.tasks.length) (hpc : pc = .start cfg s.world.now f) :
      Comes cfg s t i pc (.arrive (.submit f))

theorem submit_comes {cfg : Config} {s t : State} {a : Act} (hm : Moved cfg s t a) {i : Nat}
    {pc : SubmitPc} (hi : t.tasks[i]? = some (.submit pc)) : Comes cfg s t i pc a := by
  cases hm.origin hi with
  | kept hi₀ ha => exact .kept hi₀ ha
  | moved hi₀ hp =>
    cases task_moved hp with
    | submit hp => exact .moved hi₀ hp
  | arrived hlen hτ =>
    rename_i r
    cases r with
    | submit f =>
      cases hτ
      exact .arrived hlen rfl
    | _ => cases hτ
  | spawned _ _ _ hτ => cases hτ
  | dropped hτ => cases hτ

/-- One submit after the step, unless it has just arrived. -/
theorem Numbered.task_step {cfg : Config} {past : List (State × Act)} {s t : State} {a : Act}
    {task : Nat → Nat} {job : String → Nat} (h : Numbered cfg past s task job)
    (hm : Moved cfg s t a) {i : Nat} {pc : SubmitPc} (hi : t.tasks[i]? = some (.submit pc))
    (ha : ∀ f, a = .arrive (.submit f) → i ≠ s.tasks.length) :
    ∃ f, Arrived (past ++ [(s, a)]) (task i) i f ∧
      Asked cfg (past ++ [(s, a)]) (task i) f t.world pc := by
  cases submit_comes hm hi with
  | kept hi₀ =>
    obtain ⟨f, harr, hask⟩ := h.tasks i pc hi₀
    exact ⟨f, harr.grow _, hask.grow hm⟩
  | moved hi₀ hp =>
    obtain ⟨f, harr, hask⟩ := h.tasks i _ hi₀
    exact ⟨f, harr.grow _, asked_moved hm hp harr.lt hask⟩
  | arrived hlen => exact absurd hlen (ha _ rfl)

/-- A crash leaves no task. -/
theorem task_up {cfg : Config} {s t : State} {a : Act} (hm : Moved cfg s t a) {i : Nat}
    {τ : ServerTask} (hi : t.tasks[i]? = some τ) : staysUp a = true := by
  cases hm with
  | crash h =>
    subst h
    cases hi
  | _ => rfl

theorem Numbered.up_step {cfg : Config} {past : List (State × Act)} {s t : State} {a : Act}
    {task : Nat → Nat} {job : String → Nat} (h : Numbered cfg past s task job)
    (hm : Moved cfg s t a) {i : Nat} {pc : SubmitPc} (hi : t.tasks[i]? = some (.submit pc))
    (ha : ∀ f, a = .arrive (.submit f) → i ≠ s.tasks.length) :
    Lives (past ++ [(s, a)]) (task i) := by
  have hup := task_up hm hi
  have stays : ∀ {pc₀}, s.tasks[i]? = some (.submit pc₀) → Lives (past ++ [(s, a)]) (task i) := by
    intro pc₀ hi₀
    obtain ⟨f, harr, -⟩ := h.tasks i pc₀ hi₀
    exact (h.up i pc₀ hi₀).grow harr.lt hup
  cases submit_comes hm hi with
  | kept hi₀ => exact stays hi₀
  | moved hi₀ => exact stays hi₀
  | arrived hlen => exact absurd hlen (ha _ rfl)

/-- A row that a step leaves or updates fits the same request. -/
theorem Numbered.row_step {cfg : Config} {past : List (State × Act)} {s t : State} {a : Act}
    {task : Nat → Nat} {job : String → Nat} (h : Numbered cfg past s task job)
    (hm : Moved cfg s t a) {r r' : JobRow} (hr : r ∈ s.world.db.jobs.rows) (hid : r'.id = r.id)
    (hsame : SameRequest r r') :
    ∃ i f, Arrived (past ++ [(s, a)]) (job r'.id) i f ∧
      Fits (past ++ [(s, a)]) (job r'.id) f t.world r' := by
  obtain ⟨i, f, harr, hfit⟩ := h.rows r hr
  rw [hid]
  exact ⟨i, f, harr.grow _, hfit.grow hm hsame⟩

/-- The rows are those of before, as far as the request goes. -/
def NoneNew (s t : State) : Prop :=
  ∀ r' ∈ t.world.db.jobs.rows, ∃ r ∈ s.world.db.jobs.rows, r'.id = r.id ∧ SameRequest r r'

theorem jobs_queued_or {cfg : Config} {s t : State} {a : Act} (hm : Moved cfg s t a) :
    (∃ i p id jobId n, Queues s t a i p id jobId n) ∨
      NoneNew s t ∧ t.world.db.jobs.rows.length ≤ s.world.db.jobs.rows.length := by
  cases hm.jobs with
  | same he =>
    refine .inr ⟨fun r hr => ⟨r, he ▸ hr, rfl, .refl r⟩, ?_⟩
    rw [he]
  | update hst he =>
    rename_i st
    refine .inr ⟨fun r' hr' => ?_, ?_⟩
    · rw [he] at hr'
      obtain ⟨r, hr, rfl⟩ := Table.mem_update.mp hr'
      exact ⟨r, hr, st.update.row_key r, stmt_sameRequest st r⟩
    · rw [he]
      simp [Table.update]
  | insert ha hi hins => exact .inl ⟨_, _, _, _, _, ⟨_, ha⟩, hi, hins⟩
  | delete ha hi he =>
    refine .inr ⟨fun r hr => ?_, ?_⟩
    · rw [he] at hr
      exact ⟨r, (Table.mem_delete.mp hr).1, rfl, .refl r⟩
    · rw [he]
      exact List.length_filter_le _ _

theorem Numbered.keep {cfg : Config} {past : List (State × Act)} {s t : State} {a : Act}
    {task : Nat → Nat} {job : String → Nat} (h : Numbered cfg past s task job)
    (hm : Moved cfg s t a) (hnew : NoneNew s t)
    (hlen : t.world.db.jobs.rows.length ≤ s.world.db.jobs.rows.length)
    (ha : ∀ f, a ≠ .arrive (.submit f)) : Numbered cfg (past ++ [(s, a)]) t task job where
  made := h.made.step hm
  tasks i pc hi := h.task_step hm hi fun f he => absurd he (ha f)
  up i pc hi := h.up_step hm hi fun f he => absurd he (ha f)
  rows r' hr' := by
    obtain ⟨r, hr, hid, hsame⟩ := hnew r' hr'
    exact h.row_step hm hr hid hsame
  distinct r hr r' hr' he := by
    obtain ⟨r₀, hr₀, hid, -⟩ := hnew r hr
    obtain ⟨r₀', hr₀', hid', -⟩ := hnew r' hr'
    rw [hid, hid'] at he ⊢
    exact h.distinct r₀ hr₀ r₀' hr₀' he
  passed i pc hi r' hr' he := by
    obtain ⟨r, hr, hid, -⟩ := hnew r' hr'
    rw [hid] at he
    cases submit_comes hm hi with
    | kept hi₀ _ => exact h.passed i pc hi₀ r hr he
    | moved hi₀ hp =>
      have hin := h.passed i _ hi₀ r hr he
      rw [inserted_call hp hin]
      exact hin
    | arrived => exact absurd rfl (ha _)
  told i pc jobId id hi hin := by
    cases submit_comes hm hi with
    | kept hi₀ _ => exact h.told i pc jobId id hi₀ hin
    | moved hi₀ hp =>
      rcases inserted_origin hp hin with hin₀ | ⟨p, n, -, hone⟩
      · exact h.told i _ jobId id hi₀ hin₀
      · omega
    | arrived => exact absurd rfl (ha _)

theorem Numbered.arrive {cfg : Config} {past : List (State × Act)} {s t : State} {f : SubmitFields}
    {task : Nat → Nat} {job : String → Nat} (h : Numbered cfg past s task job)
    (hm : Moved cfg s t (.arrive (.submit f))) :
    Numbered cfg (past ++ [(s, .arrive (.submit f))]) t
      (Function.update task s.tasks.length past.length) job := by
  have hworld : t.world = s.world := by
    cases hm with
    | arrive world _ _ => exact world
  have hmem : ∀ {r}, r ∈ t.world.db.jobs.rows → r ∈ s.world.db.jobs.rows := by
    rw [hworld]
    exact id
  -- the new task starts afresh; the number of any other task is as before
  have cases_task : ∀ {i : Nat} {pc : SubmitPc}, t.tasks[i]? = some (.submit pc) →
      (i = s.tasks.length ∧ pc = .start cfg s.world.now f) ∨
      (i ≠ s.tasks.length ∧ s.tasks[i]? = some (.submit pc)) := by
    intro i pc hi
    cases submit_comes hm hi with
    | kept hi₀ _ =>
      have hlt : i < s.tasks.length := (List.getElem?_eq_some_iff.mp hi₀).1
      exact .inr ⟨by omega, hi₀⟩
    | arrived hlen hpc => exact .inl ⟨hlen, hpc⟩
  constructor
  · exact h.made.step hm
  · intro i pc hi
    rcases cases_task hi with ⟨rfl, rfl⟩ | ⟨hne, hi₀⟩
    · rw [Function.update_self]
      exact ⟨f, ⟨s, List.getElem?_concat_length, rfl⟩, asked_start cfg _ _ _ f _⟩
    · rw [Function.update_of_ne hne]
      exact h.task_step hm hi fun _ _ => hne
  · intro i pc hi
    rcases cases_task hi with ⟨rfl, rfl⟩ | ⟨hne, hi₀⟩
    · rw [Function.update_self]
      intro x hx
      simp at hx
    · rw [Function.update_of_ne hne]
      exact h.up_step hm hi fun _ _ => hne
  · exact fun r hr => h.row_step hm (hmem hr) rfl (.refl r)
  · exact fun r hr r' hr' => h.distinct r (hmem hr) r' (hmem hr')
  · intro i pc hi r hr he
    rcases cases_task hi with ⟨rfl, rfl⟩ | ⟨hne, hi₀⟩
    · obtain ⟨j, g, harr, -⟩ := h.rows r (hmem hr)
      have hlt : job r.id < past.length := harr.lt
      rw [Function.update_self] at he
      omega
    · rw [Function.update_of_ne hne] at he
      exact h.passed i pc hi₀ r (hmem hr) he
  · intro i pc jobId id hi hin
    rcases cases_task hi with ⟨rfl, rfl⟩ | ⟨hne, hi₀⟩
    · rcases SubmitPc.start_cases cfg s.world.now f with ⟨e, he⟩ | ⟨-, ⟨pid, he⟩ | ⟨p, he⟩⟩ <;>
        (rw [he] at hin; cases hin)
    · rw [Function.update_of_ne hne]
      exact h.told i pc jobId id hi₀ hin

/-- The task that inserts the job. -/
theorem Queues.comes {cfg : Config} {s t : State} {a : Act} {i : Nat} {p : Resolved} {id n : Int}
    {jobId : String} (hq : Queues s t a i p id jobId n) (hm : Moved cfg s t a) {pc : SubmitPc}
    (hi : t.tasks[i]? = some (.submit pc)) : inserted pc = some (jobId, id) := by
  obtain ⟨⟨φ, rfl⟩, htask, hjob⟩ := hq
  have hlen := insert_length hjob
  cases submit_comes hm hi with
  | kept _ ha => exact absurd rfl (ha φ)
  | moved hi₀ hp =>
    obtain rfl := ServerTask.submit.inj (Option.some.inj (htask.symm.trans hi₀))
    cases submit_step hp with
    | queued => rfl
    | fails _ hw | notQueued hw _ =>
      rw [hw] at hlen
      omega

theorem Numbered.queue {cfg : Config} {past : List (State × Act)} {s t : State} {a : Act}
    {task : Nat → Nat} {job : String → Nat} (h : Numbered cfg past s task job)
    (hm : Moved cfg s t a) {i : Nat} {p : Resolved} {id n : Int} {jobId : String}
    (hq : Queues s t a i p id jobId n) :
    Numbered cfg (past ++ [(s, a)]) t task (Function.update job jobId (task i)) := by
  obtain ⟨hfree, hrows⟩ := Table.insert?_eq_some.mp hq.insert
  obtain ⟨φ, ha⟩ := hq.act
  obtain ⟨f, harr, hask⟩ := h.tasks i _ hq.task
  have old : ∀ {r}, r ∈ s.world.db.jobs.rows → Function.update job jobId (task i) r.id = job r.id :=
    fun {r} hr => Function.update_of_ne (Table.find?_eq_none.mp hfree r hr) _ _
  -- no row is about the request before its task has inserted one
  have unused : ∀ r ∈ s.world.db.jobs.rows, job r.id ≠ task i := by
    intro r hr he
    cases h.passed i _ hq.task r hr he.symm
  have cases_row : ∀ {r}, r ∈ t.world.db.jobs.rows → r ∈ s.world.db.jobs.rows ∨
      r = newJob jobId id p.sourcePromptId p.promptText p.workflow p.timeoutSeconds n
        s.world.now := by
    intro r hr
    rw [hrows] at hr
    exact (List.mem_append.mp hr).imp_right List.mem_singleton.mp
  constructor
  · exact h.made.step hm
  · exact fun j pc hj => h.task_step hm hj fun g he => by cases ha.symm.trans he
  · exact fun j pc hj => h.up_step hm hj fun g he => by cases ha.symm.trans he
  · intro r hr
    rcases cases_row hr with hr | rfl
    · rw [old hr]
      exact h.row_step hm hr rfl (.refl r)
    · have hnew : Function.update job jobId (task i) (newJob jobId id p.sourcePromptId p.promptText
          p.workflow p.timeoutSeconds n s.world.now).id = task i := Function.update_self _ _ _
      rw [hnew]
      exact ⟨i, f, harr.grow _, ⟨p, (hask.resolves p rfl).grow _, rfl, rfl, rfl, rfl⟩,
        (hask.serves.row id rfl).step hm⟩
  · intro r hr r' hr' he
    rcases cases_row hr with hr | rfl
    · rcases cases_row hr' with hr' | rfl
      · rw [old hr, old hr'] at he
        exact h.distinct r hr r' hr' he
      · rw [old hr] at he
        exact absurd (he.trans (Function.update_self _ _ _)) (unused r hr)
    · rcases cases_row hr' with hr' | rfl
      · rw [old hr'] at he
        exact absurd (he.symm.trans (Function.update_self _ _ _)) (unused r' hr')
      · rfl
  · intro j pc hj r hr he
    rcases cases_row hr with hr | rfl
    · rw [old hr] at he
      cases submit_comes hm hj with
      | kept hj₀ _ => exact h.passed j pc hj₀ r hr he
      | moved hj₀ hp =>
        have hin := h.passed j _ hj₀ r hr he
        rw [inserted_call hp hin]
        exact hin
      | arrived => cases ha
    · have hji : task j = task i := he.trans (Function.update_self _ _ _)
      obtain ⟨g, harr', -⟩ := h.task_step hm hj fun g he => by cases ha.symm.trans he
      rw [hji] at harr'
      obtain ⟨rfl, -⟩ := harr'.unique (harr.grow _)
      rw [hq.comes hm hj]
      rfl
  · intro j pc jobId' id' hj hin
    cases submit_comes hm hj with
    | kept hj₀ _ =>
      have hset := (h.made.jobs j pc jobId' id' hj₀ hin).settled
      have hne : jobId' ≠ jobId := fun he => hset.2 i _ hq.task (by rw [he]; rfl)
      rw [Function.update_of_ne hne]
      exact h.told j pc jobId' id' hj₀ hin
    | moved hj₀ hp =>
      cases ha
      rw [hq.comes hm hj] at hin
      cases hin
      exact Function.update_self _ _ _
    | arrived => cases ha

theorem Numbered.step {cfg : Config} {past : List (State × Act)} {s t : State} {a : Act}
    {task : Nat → Nat} {job : String → Nat} (h : Numbered cfg past s task job)
    (hm : Moved cfg s t a) : ∃ task' job', Numbered cfg (past ++ [(s, a)]) t task' job' := by
  by_cases ha : ∃ f, a = .arrive (.submit f)
  · obtain ⟨f, rfl⟩ := ha
    exact ⟨_, _, h.arrive hm⟩
  · rcases jobs_queued_or hm with ⟨i, p, id, jobId, n, hq⟩ | ⟨hnew, hlen⟩
    · exact ⟨_, _, h.queue hm hq⟩
    · exact ⟨_, _, h.keep hm hnew hlen fun f he => ha ⟨f, he⟩⟩

theorem Numbered.init (cfg : Config) : Numbered cfg [] State.init (fun _ => 0) (fun _ => 0) where
  made := by
    have hstart : Reachable cfg State.init := ⟨[], rfl⟩
    exact reachable_made hstart
  tasks i pc hi := by simp [State.init] at hi
  up i pc hi := by simp [State.init] at hi
  rows r hr := by simp [State.init, World.empty, Db.empty, Table.empty] at hr
  distinct r hr := by simp [State.init, World.empty, Db.empty, Table.empty] at hr
  passed i pc hi := by simp [State.init] at hi
  told i pc jobId id hi := by simp [State.init] at hi

theorem run_numbered {cfg : Config} {as : List Act} {s : State}
    (h : run cfg as State.init = some s) :
    ∃ task job, Numbered cfg (Runs.visits (step cfg) as State.init) s task job := by
  have hend := Runs.history_invariant (I := fun past u => ∃ task job, Numbered cfg past u task job)
    (fun past u a v ⟨_, _, hu⟩ hs => hu.step (step_moved hs)) h ⟨_, _, Numbered.init cfg⟩
  simpa using hend

/-- In every run: each row of `jobs` goes back to the arrival of a submit, no two to the
same one. It has the text, the workflow and the time limit that this request resolved to after
it arrived, and the input whose hash the request gave; once the job is done, what ComfyUI was
given for it has that hash too. And the job that a submit answers with is that of its own
arrival: it is the task of that number, and the process has not died since. -/
theorem requests_served {cfg : Config} {as : List Act} {s : State}
    (h : run cfg as State.init = some s) : ∃ origin : String → Nat,
    (∀ r ∈ s.world.db.jobs.rows, ∃ i f,
      Arrived (Runs.visits (step cfg) as State.init) (origin r.id) i f ∧
      Fits (Runs.visits (step cfg) as State.init) (origin r.id) f s.world r ∧
      (r.status = .done → ∃ a out,
        Finished cfg (trail (Runs.visits (step cfg) as State.init)) s.world r a out ∧
        cfg.sha256Hex a.image = f.inputSha256)) ∧
    (∀ r ∈ s.world.db.jobs.rows, ∀ r' ∈ s.world.db.jobs.rows, origin r.id = origin r'.id →
      r = r') ∧
    (∀ i jobId id, answerAt s i = some (.accepted jobId id) →
      (∃ f, Arrived (Runs.visits (step cfg) as State.init) (origin jobId) i f) ∧
      Lives (Runs.visits (step cfg) as State.init) (origin jobId)) := by
  obtain ⟨task, job, hn⟩ := run_numbered h
  refine ⟨job, fun r hr => ?_, fun r hr r' hr' he => ?_, fun i jobId id hi => ?_⟩
  · obtain ⟨i, f, harr, hfit⟩ := hn.rows r hr
    refine ⟨i, f, harr, hfit, fun hdone => ?_⟩
    obtain ⟨a, out, hfin⟩ := (run_traced h).done r hr hdone
    refine ⟨a, out, hfin, ?_⟩
    obtain ⟨x, hx, hsha⟩ := hfin.image
    obtain ⟨y, hy, hsha'⟩ := hfit.input
    obtain rfl := Option.some.inj (hx.symm.trans hy)
    exact hsha.symm.trans hsha'
  · have hid := hn.distinct r hr r' hr' he
    exact Option.some.inj ((mem_row hr).symm.trans (hid ▸ mem_row hr'))
  · have htask := answerAt_eq_some hi
    obtain ⟨f, harr, -⟩ := hn.tasks i _ htask
    rw [hn.told i _ jobId id htask rfl]
    exact ⟨⟨f, harr⟩, hn.up i _ htask⟩

theorem requests_served_done : ∃ s r k i f a out, run sampleConfig doneRun State.init = some s ∧
    r ∈ s.world.db.jobs.rows ∧ r.id = jobA ∧
    Arrived (Runs.visits (step sampleConfig) doneRun State.init) k i f ∧
    Fits (Runs.visits (step sampleConfig) doneRun State.init) k f s.world r ∧
    Finished sampleConfig (trail (Runs.visits (step sampleConfig) doneRun State.init)) s.world r a
      out ∧
    sampleConfig.sha256Hex a.image = f.inputSha256 := by
  have hrun : ((run sampleConfig doneRun State.init).bind (row? · jobA)).map JobRow.status =
      some .done := by
    simp only [doneRun, List.append_assoc, run_first]
    decide +kernel
  obtain ⟨r, hr, hdone⟩ := Option.map_eq_some_iff.mp hrun
  obtain ⟨s, hs, hr⟩ := Option.bind_eq_some_iff.mp hr
  obtain ⟨hmem, hid⟩ := row_mem hr
  obtain ⟨origin, hrows, -, -⟩ := requests_served hs
  obtain ⟨i, f, harr, hfit, hend⟩ := hrows r hmem
  obtain ⟨a, out, hfin, hsha⟩ := hend hdone
  exact ⟨s, r, origin r.id, i, f, a, out, hs, hmem, hid, harr, hfit, hfin, hsha⟩

end ZunServer.Requests
