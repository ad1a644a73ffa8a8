import ZunServer.Catalog
import ZunServer.InputCache
import ZunServer.PromptPatches
import ZunServer.Workflows

/-!
# The rows that requests leave

What the checks of the two prompt requests and of `submit_job` let through, what
of it the requests under way carry, and what the rows of the catalog and of the
queue then are in every state.
-/
namespace ZunServer.ValidRows

open KeyedTable
open Schema Statements Database Comfy Calls Renditions Worker Handlers CustomPrompts Purge Server
open Rows Lifecycle SubmitSteps InputCache PromptPatches Catalog Workflows

/-- `s.trim().is_empty()`. -/
def blank (s : String) : Bool := s.toList.all Redact.isWhitespace

theorem validateNonEmpty_ok {name value : String} :
    validateNonEmpty name value = .ok () ↔ blank value = false := by
  unfold validateNonEmpty blank
  split <;> simp_all

theorem validateLen_ok {name value : String} {max : Nat} :
    validateLen name value max = .ok () ↔ value.utf8ByteSize ≤ max := by
  unfold validateLen
  split
  · simp
    omega
  · simp
    omega

theorem validateTimeout_ok {timeout : Option Int} :
    validateTimeout timeout = .ok () ↔ ∀ t ∈ timeout, 1 ≤ t ∧ t ≤ 1800 := by
  cases timeout with
  | none => simp [validateTimeout]
  | some t =>
    simp only [validateTimeout, minTimeoutSeconds, maxTimeoutSeconds, Option.mem_def,
      Option.some.injEq, forall_eq']
    by_cases ht : 1 ≤ t ∧ t ≤ 1800 <;> simp [ht]

theorem validateDescription_ok {description : Option String} :
    validateDescription description = .ok () ↔ ∀ d ∈ description, d.utf8ByteSize ≤ 4000 := by
  cases description with
  | none => simp [validateDescription]
  | some d => simp [validateDescription, validateLen_ok, maxDescriptionLen]

theorem clampTimeoutSeconds_bounds (timeout : Option Int) :
    1 ≤ clampTimeoutSeconds timeout ∧ clampTimeoutSeconds timeout ≤ 1800 := by
  cases timeout with
  | none => simp [clampTimeoutSeconds, defaultTimeoutSeconds]
  | some t =>
    simp only [clampTimeoutSeconds, minTimeoutSeconds, maxTimeoutSeconds]
    omega

/-- What the checks leave of a prompt. -/
structure FieldsOk (w : WorkflowRegistry) (f : PromptFields) : Prop where
  label : blank f.label = false
  labelLen : f.label.utf8ByteSize ≤ 1000
  text : blank f.text = false
  textLen : f.text.utf8ByteSize ≤ 8192
  description : ∀ d ∈ f.description, d.utf8ByteSize ≤ 4000
  workflow : w.supports f.workflow = .ok ()
  timeout : ∀ t ∈ f.timeoutSeconds, 1 ≤ t ∧ t ≤ 1800

/-- The columns of a row that a client chooses. -/
def fieldsOf (r : PromptRow) : PromptFields :=
  ⟨r.label, r.description, r.text, r.workflow, r.timeoutSeconds⟩

theorem validate_ok {cfg : Config} {c : CreatePrompt} {f : PromptFields}
    (h : c.validate cfg = .ok f) : FieldsOk cfg.workflows f := by
  obtain ⟨_, hlabel, h⟩ := bind_ok h
  obtain ⟨_, htext, h⟩ := bind_ok h
  obtain ⟨_, hlabelLen, h⟩ := bind_ok h
  obtain ⟨_, htextLen, h⟩ := bind_ok h
  obtain ⟨_, hdesc, h⟩ := bind_ok h
  obtain ⟨_, hflow, h⟩ := bind_ok h
  obtain ⟨_, htime, h⟩ := bind_ok h
  obtain rfl := Except.ok.inj h
  exact ⟨validateNonEmpty_ok.mp hlabel, validateLen_ok.mp hlabelLen, validateNonEmpty_ok.mp htext,
    validateLen_ok.mp htextLen, validateDescription_ok.mp hdesc, hflow, validateTimeout_ok.mp htime⟩

/-- A field is as it was, or has passed its check. -/
theorem replace_checked {α : Type} {check : α → Check} {P : α → Prop} {current a : α} {x : Option α}
    (h : replace check current x = .ok a) (hcheck : ∀ b, check b = .ok () → P b)
    (hcurrent : P current) : P a := by
  cases x with
  | none =>
    obtain rfl := Except.ok.inj h
    exact hcurrent
  | some b =>
    simp only [replace] at h
    cases hb : check b with
    | error e =>
      rw [hb] at h
      cases h
    | ok u =>
      rw [hb] at h
      obtain rfl := Except.ok.inj h
      exact hcheck _ hb

/-- A patch of a prompt that is in order leaves it in order. -/
theorem apply_fieldsOk {cfg : Config} {r : PromptRow} {b : UpdatePrompt} {f : PromptFields}
    (h : b.apply cfg (.of r) = .ok f) (hr : FieldsOk cfg.workflows (fieldsOf r)) :
    FieldsOk cfg.workflows f := by
  obtain ⟨label, hlabel, h⟩ := bind_ok h
  obtain ⟨description, hdesc, h⟩ := bind_ok h
  obtain ⟨text, htext, h⟩ := bind_ok h
  obtain ⟨workflow, hflow, h⟩ := bind_ok h
  obtain ⟨timeout, htime, h⟩ := bind_ok h
  obtain rfl := Except.ok.inj h
  have hlabels : blank label = false ∧ label.utf8ByteSize ≤ 1000 := by
    apply replace_checked (P := fun l => blank l = false ∧ l.utf8ByteSize ≤ 1000) hlabel
    · intro l hl
      obtain ⟨_, hne, hlen⟩ := bind_ok hl
      exact ⟨validateNonEmpty_ok.mp hne, validateLen_ok.mp hlen⟩
    · exact ⟨hr.label, hr.labelLen⟩
  have htexts : blank text = false ∧ text.utf8ByteSize ≤ 8192 := by
    apply replace_checked (P := fun t => blank t = false ∧ t.utf8ByteSize ≤ 8192) htext
    · intro t ht
      obtain ⟨_, hne, hlen⟩ := bind_ok ht
      exact ⟨validateNonEmpty_ok.mp hne, validateLen_ok.mp hlen⟩
    · exact ⟨hr.text, hr.textLen⟩
  have hdescs : ∀ d ∈ description, d.utf8ByteSize ≤ 4000 :=
    replace_checked hdesc (fun _ => validateDescription_ok.mp) hr.description
  have hflows : cfg.workflows.supports workflow = .ok () :=
    replace_checked (P := fun name => cfg.workflows.supports name = .ok ()) hflow (fun _ h => h)
      hr.workflow
  have htimes : ∀ t ∈ timeout, 1 ≤ t ∧ t ≤ 1800 :=
    replace_checked htime (fun _ => validateTimeout_ok.mp) hr.timeout
  exact ⟨hlabels.1, hlabels.2, htexts.1, htexts.2, hdescs, hflows, htimes⟩

/-- What a prompt request is about to write. -/
def writes : PromptPc → Option PromptFields
  | .insert f | .update _ f _ => some f
  | .fetchNew _ | .fetch _ _ | .refetch _ | .delete _ _ | .answered _ => none

theorem writes_create {cfg : Config} {body : Serde.Json} {f : PromptFields}
    (h : writes (.create cfg body) = some f) : FieldsOk cfg.workflows f := by
  unfold PromptPc.create at h
  split at h
  · cases h
  · split at h
    · cases h
    · rename_i hvalid
      cases h
      exact validate_ok hvalid

theorem writes_patch (id : Int) (body : Serde.Json) : writes (.patch id body) = none := by
  unfold PromptPc.patch
  split <;> rfl

/-- A patch has its fields from the row it has read and from its body. -/
theorem writes_step {cfg : Config} {now : Int} {w w' : World} {f : Fate} {pc pc' : PromptPc}
    {fields : PromptFields} (h : perform (pc.next cfg now) f w = some (w', pc'))
    (hf : writes pc' = some fields) :
    ∃ b, ∃ r ∈ w.db.prompts.rows, UpdatePrompt.apply cfg (.of r) b = .ok fields := by
  obtain ⟨c, k, x, hc, hex, rfl⟩ := perform_eq_some.mp h
  cases pc with
  | fetch id b =>
    cases hc
    rcases exec_sql rfl hex with ⟨-, rfl, -⟩ | ⟨e, -, rfl, -⟩
    · cases hrow : (w.db.prompts.find? id).filter (fun r => r.deletedAt = none) with
      | none =>
        rw [hrow] at hf
        cases hf
      | some r =>
        rw [hrow] at hf
        have hmem := (Table.find?_eq_some.mp (Option.filter_eq_some_iff.mp hrow).1).1
        simp only [Option.map_some] at hf
        split at hf
        · cases hf
        · rename_i happly
          cases hf
          exact ⟨b, r, hmem, happly⟩
    · cases hf
  | insert g =>
    cases hc
    cases x <;> cases hf
  | update id g now' =>
    cases hc
    cases x <;> cases hf
  | delete id now' =>
    cases hc
    cases x with
    | error e => cases hf
    | ok n =>
      dsimp only at hf
      split at hf <;> cases hf
  | fetchNew id | refetch id =>
    cases hc
    rcases x with e | _ | r <;> cases hf
  | answered r => cases hc

/-- What a submit has made of its prompt. -/
def resolved : SubmitPc → Option Resolved
  | .selectInput _ p _ | .stat _ p _ _ _ | .touch _ p _ _ | .clearPath _ p _ _
  | .write _ p _ _ _ _ | .dimensions _ p _ _ _ _ | .updateInput _ p _ _ _ | .insertInput _ p _ _
  | .newJobId p _ | .seed p _ _ | .insertJob p _ _ _ => some p
  | .selectPrompt _ _ | .wakeWorker _ _ | .answered _ => none

/-- The row of `inputs` that a submit goes on with. -/
def usesInput : SubmitPc → Option Int
  | .stat _ _ _ id _ | .touch _ _ _ id | .clearPath _ _ _ id | .updateInput _ _ _ id _
  | .newJobId _ id | .seed _ id _ | .insertJob _ id _ _ => some id
  | .write _ _ _ row _ _ | .dimensions _ _ _ row _ _ => row
  | .selectPrompt _ _ | .selectInput _ _ _ | .insertInput _ _ _ _ | .wakeWorker _ _
  | .answered _ => none

/-- What `resolve_prompt` returns. -/
structure ResolvedOk (w : WorkflowRegistry) (p : Resolved) : Prop where
  text : blank p.promptText = false
  textLen : p.promptText.utf8ByteSize ≤ 8192
  workflow : w.supports p.workflow = .ok ()
  timeout : 1 ≤ p.timeoutSeconds ∧ p.timeoutSeconds ≤ 1800

theorem resolved_needUpload (f : SubmitFields) (p : Resolved) (now : Int) (row : Option Int) :
    (resolved (.needUpload f p now row) = some p ∨ resolved (.needUpload f p now row) = none) ∧
      (usesInput (.needUpload f p now row) = row ∨ usesInput (.needUpload f p now row) = none) := by
  rcases SubmitPc.needUpload_cases f p now row with ⟨e, he⟩ | ⟨u, path, -, he⟩
  · rw [he]
    exact ⟨.inr rfl, .inr rfl⟩
  · rw [he]
    exact ⟨.inl rfl, .inl rfl⟩

/-- A text of the client's own is checked on arrival. -/
theorem resolved_start {cfg : Config} {now : Int} {f : SubmitFields} {p : Resolved}
    (h : resolved (.start cfg now f) = some p) : ResolvedOk cfg.workflows p := by
  rcases SubmitPc.start_resolves cfg now f with
    ⟨e, he⟩ | ⟨-, ⟨pid, he⟩ | ⟨workflow, text, hflow, hblank, hlen, he⟩⟩
  · rw [he] at h
    cases h
  · rw [he] at h
    cases h
  · rcases SubmitPc.resolveInput_cases cfg now f ⟨workflow, text, none, defaultTimeoutSeconds⟩ with
      ⟨e, hin⟩ | hin
    · rw [he, hin] at h
      cases h
    · rw [he, hin] at h
      cases h
      refine ⟨hblank, hlen, hflow, ?_⟩
      constructor <;> simp [defaultTimeoutSeconds]

/-- A prompt of the catalog is taken over from its row. -/
theorem resolved_prompt {cfg : Config} {w w' : World} {f : Fate} {fl : SubmitFields} {pid : Int}
    {pc' : SubmitPc} {p : Resolved}
    (h : perform (SubmitPc.next cfg w.now (.selectPrompt fl pid)) f w = some (w', pc'))
    (hp : resolved pc' = some p) : ∃ r ∈ w.db.prompts.rows,
      cfg.workflows.supports r.workflow = .ok () ∧
      p = ⟨r.workflow, r.text, some pid, clampTimeoutSeconds r.timeoutSeconds⟩ := by
  obtain ⟨c, k, x, hc, hex, rfl⟩ := perform_eq_some.mp h
  cases hc
  rcases exec_sql rfl hex with ⟨-, rfl, -⟩ | ⟨e, -, rfl, -⟩
  · cases hrow : (w.db.prompts.find? pid).filter (fun r => r.deletedAt = none) with
    | none =>
      rw [hrow] at hp
      cases hp
    | some r =>
      rw [hrow] at hp
      have hmem := (Table.find?_eq_some.mp (Option.filter_eq_some_iff.mp hrow).1).1
      simp only [Option.map_some] at hp
      split at hp
      · cases hp
      · rename_i hflow
        rcases SubmitPc.resolveInput_cases cfg w.now fl
          ⟨r.workflow, r.text, some pid, clampTimeoutSeconds r.timeoutSeconds⟩ with ⟨e, he⟩ | he
        · rw [he] at hp
          cases hp
        · rw [he] at hp
          cases hp
          exact ⟨r, hmem, hflow, rfl⟩
  · cases hp

theorem resolved_step {w w' : World} {f : Fate} {pc pc' : SubmitPc} (h : SubmitStep w w' f pc pc')
    {p : Resolved} (hp : resolved pc' = some p) :
    resolved pc = some p ∨ ∃ fl pid, pc = .selectPrompt fl pid := by
  cases h with
  | prompt => exact .inr ⟨_, _, rfl⟩
  | absent | noPath | cleared =>
    rcases (resolved_needUpload _ _ _ _).1 with he | he <;> rw [he] at hp <;> cases hp
    exact .inl rfl
  | fails | refused | duplicate | queued | notQueued | woke => cases hp
  | _ => exact .inl hp

theorem usesInput_step {w w' : World} {f : Fate} {pc pc' : SubmitPc} (h : SubmitStep w w' f pc pc')
    {id : Int} (hid : usesInput pc' = some id) : usesInput pc = some id ∨ RowThere w' id := by
  cases h with
  | absent =>
    rcases (resolved_needUpload _ _ _ _).2 with he | he <;> rw [he] at hid <;> cases hid
  | noPath hw hr =>
    rcases (resolved_needUpload _ _ _ _).2 with he | he <;> rw [he] at hid <;> cases hid
    rw [hw]
    exact .inr ⟨_, Table.find?_of_mem hr⟩
  | cached hw hr =>
    cases hid
    rw [hw]
    exact .inr ⟨_, Table.find?_of_mem hr⟩
  | cleared =>
    rcases (resolved_needUpload _ _ _ _).2 with he | he <;> rw [he] at hid <;> cases hid
    exact .inl rfl
  | inserted hnew hin =>
    cases hid
    exact .inr ⟨_, (Table.find?_insert hin _).trans (if_pos rfl)⟩
  | fails | refused | prompt | duplicate | queued | notQueued | woke | decodedNew => cases hid
  | _ => exact .inl hid

/-- The seed that was drawn. -/
def drawn : SubmitPc → Option Int
  | .insertJob _ _ _ n => some n
  | _ => none

theorem drawn_step {cfg : Config} {w w' : World} {f : Fate} {pc pc' : SubmitPc} {n : Int}
    (h : perform (pc.next cfg w.now) f w = some (w', pc')) (hn : drawn pc' = some n) : 0 ≤ n := by
  have hneed : ∀ fl p now row, drawn (.needUpload fl p now row) = none := by
    intro fl p now row
    rcases SubmitPc.needUpload_cases fl p now row with ⟨e, he⟩ | ⟨u, path, -, he⟩ <;> rw [he] <;> rfl
  cases submit_step h with
  | seeded hw =>
    cases hn
    exact randomSeed_nonneg _
  | absent | noPath | cleared =>
    rw [hneed] at hn
    cases hn
  | _ => cases hn

/-- What the queue holds of a job. -/
structure JobOk (cfg : Config) (w : World) (r : JobRow) : Prop where
  text : blank r.promptText = false
  textLen : r.promptText.utf8ByteSize ≤ 8192
  workflow : cfg.workflows.supports r.workflow = .ok ()
  timeout : ∃ t, r.timeoutSeconds = some t ∧ 1 ≤ t ∧ t ≤ 1800
  seed : 0 ≤ r.seed
  input : RowThere w r.inputId

structure Valid (cfg : Config) (s : State) : Prop where
  prompts : ∀ r ∈ s.world.db.prompts.rows, FieldsOk cfg.workflows (fieldsOf r)
  writing : ∀ (i : Nat) (pc : PromptPc) (f : PromptFields), s.tasks[i]? = some (.prompt pc) →
    writes pc = some f → FieldsOk cfg.workflows f
  resolving : ∀ (i : Nat) (pc : SubmitPc) (p : Resolved), s.tasks[i]? = some (.submit pc) →
    resolved pc = some p → ResolvedOk cfg.workflows p
  inputs : ∀ (i : Nat) (pc : SubmitPc) (id : Int), s.tasks[i]? = some (.submit pc) →
    usesInput pc = some id → RowThere s.world id
  seeds : ∀ (i : Nat) (pc : SubmitPc) (n : Int), s.tasks[i]? = some (.submit pc) →
    drawn pc = some n → 0 ≤ n
  jobs : ∀ r ∈ s.world.db.jobs.rows, JobOk cfg s.world r

/-- Nobody edits the catalog by hand. -/
def noEdit : Act → Bool
  | .env (.prompts _) => false
  | _ => true

theorem stmt_jobOk {cfg : Config} {w : World} (st : JobStmt) {r : JobRow} (h : JobOk cfg w r) :
    JobOk cfg w (st.update.row r) := by
  have hreq := stmt_sameRequest st r
  refine ⟨?_, ?_, ?_, ?_, ?_, ?_⟩
  · rw [hreq.promptText]
    exact h.text
  · rw [hreq.promptText]
    exact h.textLen
  · rw [hreq.workflow]
    exact h.workflow
  · rw [hreq.timeoutSeconds]
    exact h.timeout
  · rw [hreq.seed]
    exact h.seed
  · rw [hreq.inputId]
    exact h.input

theorem JobOk.mono {cfg : Config} {w w' : World} (hrow : ∀ {id}, RowThere w id → RowThere w' id)
    {r : JobRow} (h : JobOk cfg w r) : JobOk cfg w' r :=
  ⟨h.text, h.textLen, h.workflow, h.timeout, h.seed, hrow h.input⟩

/-- A prompt request among the tasks is there from before, has just arrived, or has moved. -/
theorem prompt_origin {cfg : Config} {s t : State} {a : Act} (hm : Moved cfg s t a) {i : Nat}
    {pc : PromptPc} (hi : t.tasks[i]? = some (.prompt pc)) :
    s.tasks[i]? = some (.prompt pc) ∨
    (∃ body, pc = .create cfg body) ∨ (∃ id body, pc = .patch id body) ∨
    (∃ id now, pc = .delete id now) ∨
    (∃ f pc₀, s.tasks[i]? = some (.prompt pc₀) ∧
      perform (pc₀.next cfg s.world.now) f s.world = some (t.world, pc)) := by
  cases hm.origin hi with
  | kept hi ha => exact .inl hi
  | moved hi₀ hp =>
    cases task_moved hp with
    | prompt hp => exact .inr (.inr (.inr (.inr ⟨_, _, hi₀, hp⟩)))
  | arrived hlen hτ =>
    rename_i r
    cases r with
    | createPrompt body =>
      cases hτ
      exact .inr (.inl ⟨body, rfl⟩)
    | patchPrompt id body =>
      cases hτ
      exact .inr (.inr (.inl ⟨id, body, rfl⟩))
    | deletePrompt id =>
      cases hτ
      exact .inr (.inr (.inr (.inl ⟨id, _, rfl⟩)))
    | _ => cases hτ
  | spawned hi hp hg hτ => cases hτ
  | dropped hτ => cases hτ

/-- The same of a submit, with the call it has made. -/
theorem submit_moved {cfg : Config} {s t : State} {a : Act} (hm : Moved cfg s t a) {i : Nat}
    {pc : SubmitPc} (hi : t.tasks[i]? = some (.submit pc)) :
    s.tasks[i]? = some (.submit pc) ∨ (∃ fl, pc = .start cfg s.world.now fl) ∨
    (∃ f pc₀, s.tasks[i]? = some (.submit pc₀) ∧
      perform (pc₀.next cfg s.world.now) f s.world = some (t.world, pc)) := by
  cases hm.origin hi with
  | kept hi ha => exact .inl hi
  | moved hi₀ hp =>
    cases task_moved hp with
    | submit hp => exact .inr (.inr ⟨_, _, hi₀, hp⟩)
  | arrived hlen hτ =>
    rename_i r
    cases r with
    | submit fl =>
      cases hτ
      exact .inr (.inl ⟨fl, rfl⟩)
    | _ => cases hτ
  | spawned hi hp hg hτ => cases hτ
  | dropped hτ => cases hτ

/-- A request that has just arrived has used and drawn nothing. -/
theorem start_fresh (cfg : Config) (now : Int) (f : SubmitFields) :
    usesInput (.start cfg now f) = none ∧ drawn (.start cfg now f) = none := by
  rcases SubmitPc.start_cases cfg now f with ⟨e, he⟩ | ⟨-, ⟨pid, he⟩ | ⟨p, he⟩⟩ <;> rw [he] <;>
    exact ⟨rfl, rfl⟩

section
variable {cfg : Config} {s t : State} {a : Act}

theorem Valid.prompts_step (h : Valid cfg s) (hm : Moved cfg s t a) (hno : noEdit a = true) :
    ∀ r ∈ t.world.db.prompts.rows, FieldsOk cfg.workflows (fieldsOf r) := by
  intro r hr
  cases moved_prompts hm with
  | same he => exact h.prompts r (he ▸ hr)
  | inserted hi he =>
    rw [(Table.insert?_eq_some.mp he).2] at hr
    rcases List.mem_append.mp hr with hr | hr
    · exact h.prompts r hr
    · obtain rfl := List.mem_singleton.mp hr
      exact h.writing _ _ _ hi rfl
  | updated hi he =>
    rw [he] at hr
    obtain ⟨r₀, hr₀, rfl⟩ := Table.mem_update.mp hr
    unfold Update.row
    split
    · exact h.writing _ _ _ hi rfl
    · exact h.prompts r₀ hr₀
  | deleted hi he =>
    rw [he] at hr
    obtain ⟨r₀, hr₀, rfl⟩ := Table.mem_update.mp hr
    unfold Update.row
    split <;> exact h.prompts r₀ hr₀
  | edited => cases hno

theorem Valid.writing_step (h : Valid cfg s) (hm : Moved cfg s t a) {i : Nat} {pc : PromptPc}
    {f : PromptFields} (hi : t.tasks[i]? = some (.prompt pc)) (hf : writes pc = some f) :
    FieldsOk cfg.workflows f := by
  rcases prompt_origin hm hi with hi₀ | ⟨body, rfl⟩ | ⟨id, body, rfl⟩ | ⟨id, now, rfl⟩ |
    ⟨fate, pc₀, hi₀, hp⟩
  · exact h.writing i pc f hi₀ hf
  · exact writes_create hf
  · rw [writes_patch] at hf
    cases hf
  · cases hf
  · obtain ⟨b, r, hr, happly⟩ := writes_step hp hf
    exact apply_fieldsOk happly (h.prompts r hr)

theorem Valid.resolving_step (h : Valid cfg s) (hm : Moved cfg s t a) {i : Nat} {pc : SubmitPc}
    {p : Resolved} (hi : t.tasks[i]? = some (.submit pc)) (hp : resolved pc = some p) :
    ResolvedOk cfg.workflows p := by
  rcases submit_moved hm hi with hi₀ | ⟨fl, rfl⟩ | ⟨f, pc₀, hi₀, hcall⟩
  · exact h.resolving i pc p hi₀ hp
  · exact resolved_start hp
  · rcases resolved_step (submit_step hcall) hp with hp₀ | ⟨fl, pid, rfl⟩
    · exact h.resolving i pc₀ p hi₀ hp₀
    · obtain ⟨r, hr, hflow, rfl⟩ := resolved_prompt hcall hp
      have hrow := h.prompts r hr
      exact ⟨hrow.text, hrow.textLen, hflow, clampTimeoutSeconds_bounds r.timeoutSeconds⟩

theorem Valid.inputs_step (h : Valid cfg s) (hm : Moved cfg s t a) {i : Nat} {pc : SubmitPc}
    {id : Int} (hi : t.tasks[i]? = some (.submit pc)) (hid : usesInput pc = some id) :
    RowThere t.world id := by
  rcases submit_moved hm hi with hi₀ | ⟨fl, rfl⟩ | ⟨f, pc₀, hi₀, hcall⟩
  · exact (h.inputs i pc id hi₀ hid).moved hm
  · rw [(start_fresh _ _ _).1] at hid
    cases hid
  · rcases usesInput_step (submit_step hcall) hid with hid₀ | hrow
    · exact (h.inputs i pc₀ id hi₀ hid₀).moved hm
    · exact hrow

theorem Valid.seeds_step (h : Valid cfg s) (hm : Moved cfg s t a) {i : Nat} {pc : SubmitPc} {n : Int}
    (hi : t.tasks[i]? = some (.submit pc)) (hn : drawn pc = some n) : 0 ≤ n := by
  rcases submit_moved hm hi with hi₀ | ⟨fl, rfl⟩ | ⟨f, pc₀, hi₀, hcall⟩
  · exact h.seeds i pc n hi₀ hn
  · rw [(start_fresh _ _ _).2] at hn
    cases hn
  · exact drawn_step hcall hn

theorem Valid.jobs_step (h : Valid cfg s) (hm : Moved cfg s t a) :
    ∀ r ∈ t.world.db.jobs.rows, JobOk cfg t.world r := by
  have hold : ∀ r ∈ s.world.db.jobs.rows, JobOk cfg t.world r := fun r hr =>
    (h.jobs r hr).mono fun hrow => hrow.moved hm
  apply rows_moved hm hold
  · intro st _ r hr
    exact stmt_jobOk st (hold r hr)
  · intro i p inputId n id hi
    have hp := h.resolving i _ p hi rfl
    exact ⟨hp.text, hp.textLen, hp.workflow, ⟨_, rfl, hp.timeout⟩, h.seeds i _ n hi rfl,
      (h.inputs i _ inputId hi rfl).moved hm⟩

theorem Valid.step (h : Valid cfg s) (hm : Moved cfg s t a) (hno : noEdit a = true) : Valid cfg t where
  prompts := h.prompts_step hm hno
  writing _ _ _ hi hf := h.writing_step hm hi hf
  resolving _ _ _ hi hp := h.resolving_step hm hi hp
  inputs _ _ _ hi hid := h.inputs_step hm hi hid
  seeds _ _ _ hi hn := h.seeds_step hm hi hn
  jobs := h.jobs_step hm

end

theorem Valid.init (cfg : Config) : Valid cfg State.init := by
  constructor <;> simp [State.init, World.empty, Db.empty, Table.empty]

theorem run_valid {cfg : Config} {as : List Act} {s : State}
    (hno : ∀ a ∈ as, noEdit a = true) (h : run cfg as State.init = some s) : Valid cfg s :=
  (Runs.Along.of_forall hno _).invariant (fun _ _ _ hv ha hs => hv.step (step_moved hs) ha) h
    (.init cfg)

/-- Whatever requests come and however they interleave, the rows of the catalog are in order,
and so are those of the queue, which the worker can all take up. -/
theorem rows_valid {cfg : Config} {embedded : String → Option Bytes}
    {fromStr : String → Except String Serde.Json} {templates : List (String × Serde.Json)}
    {as : List Act} {s : State} (hload : loadRegistry embedded fromStr = .ok (cfg.workflows, templates))
    (hno : ∀ a ∈ as, noEdit a = true) (h : run cfg as State.init = some s) :
    (∀ r ∈ s.world.db.prompts.rows,
      blank r.label = false ∧ r.label.utf8ByteSize ≤ 1000 ∧
      blank r.text = false ∧ r.text.utf8ByteSize ≤ 8192 ∧
      (∀ d ∈ r.description, d.utf8ByteSize ≤ 4000) ∧ cfg.workflows.supports r.workflow = .ok () ∧
      ∀ t ∈ r.timeoutSeconds, 1 ≤ t ∧ t ≤ 1800) ∧
    ∀ r ∈ s.world.db.jobs.rows,
      blank r.promptText = false ∧ r.promptText.utf8ByteSize ≤ 8192 ∧
      cfg.workflows.supportedTemplate r.workflow = .ok r.workflow ∧
      (∃ t, r.timeoutSeconds = some t ∧ 1 ≤ t ∧ t ≤ 1800) ∧ 0 ≤ r.seed ∧
      ∃ i ∈ s.world.db.inputs.rows, i.id = r.inputId := by
  have hvalid := run_valid hno h
  constructor
  · intro r hr
    have hrow := hvalid.prompts r hr
    exact ⟨hrow.label, hrow.labelLen, hrow.text, hrow.textLen, hrow.description, hrow.workflow,
      hrow.timeout⟩
  · intro r hr
    have hrow := hvalid.jobs r hr
    obtain ⟨i, hi⟩ := hrow.input
    exact ⟨hrow.text, hrow.textLen, loadRegistry_complete hload _ hrow.workflow, hrow.timeout,
      hrow.seed, i, Table.find?_eq_some.mp hi⟩

/-- Two embedded files that each hold an empty object. -/
def sampleEmbedded (filename : String) : Option Bytes :=
  if filename ∈ enabledWorkflows.map (· ++ ".json") then some [123, 125] else none

def sampleFromStr (raw : String) : Except String Serde.Json :=
  if raw = "\x7b\x7d" then .ok (.object []) else .error "expected value at line 1 column 1"

def sampleLoaded : Config :=
  { sampleConfig with workflows := ⟨enabledWorkflows, enabledWorkflows.map (·, workflowSupport)⟩ }

/-- A prompt is created, and then a job that uses it. -/
def catalogRun : List Act :=
  [.arrive (.createPrompt (.object [("label", .string "Blue"), ("text", .string "make it blue"),
      ("workflow", .string "flux3_klein_edit")])), .task 0 .ok, .task 0 .ok,
    .arrive (.submit ⟨abcSha, none, some 1, none, none, some sampleImage⟩), .task 1 .ok, .task 1 .ok,
    .task 1 .ok, .task 1 (.dimensions none), .task 1 .ok, .task 1 (.drew jobA), .task 1 (.seed 14),
    .task 1 .ok]

theorem rows_valid_sample : ∃ s r, run sampleLoaded catalogRun State.init = some s ∧
    r ∈ s.world.db.jobs.rows ∧ blank r.promptText = false ∧
    sampleLoaded.workflows.supportedTemplate r.workflow = .ok r.workflow := by
  have hload : loadRegistry sampleEmbedded sampleFromStr = .ok (sampleLoaded.workflows,
      enabledWorkflows.map (·, Serde.Json.object [])) := rfl
  have hrun : (run sampleLoaded catalogRun State.init).map
      (fun s => s.world.db.jobs.rows.map JobRow.id) = some [jobA] := by
    decide +kernel
  obtain ⟨s, hs, hids⟩ := Option.map_eq_some_iff.mp hrun
  obtain ⟨r, hr, -⟩ := List.mem_map.mp (show jobA ∈ s.world.db.jobs.rows.map JobRow.id by simp [hids])
  obtain ⟨-, hjobs⟩ := rows_valid hload (by decide) hs
  obtain ⟨htext, -, hflow, -⟩ := hjobs r hr
  exact ⟨s, r, hs, hr, htext, hflow⟩

end ZunServer.ValidRows
