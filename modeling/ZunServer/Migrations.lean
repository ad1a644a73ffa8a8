import ZunServer.Schema

/-!
# The migrations of the database

The schema of migrations 0001 and 0002 with its constraints, and what 0003 and
0004 make of a database: the tables of several users become those of user 1, and
every job gets a progress.
-/
namespace ZunServer.Migrations

open KeyedTable
open Schema

namespace V2

structure UserRow where
  id : Int
  username : String
  displayName : String
  createdAt : Int
  disabledAt : Option Int
  deriving DecidableEq, Repr

structure InputRow where
  id : Int
  userId : Int
  sha256 : String
  path : Option String
  originalName : Option String
  contentType : Option String
  sizeBytes : Option Int
  width : Option Int
  height : Option Int
  createdAt : Int
  lastUsedAt : Int
  deriving DecidableEq, Repr

structure PromptRow where
  id : Int
  userId : Int
  label : String
  description : Option String
  text : String
  workflow : String
  timeoutSeconds : Option Int
  createdAt : Int
  updatedAt : Int
  deletedAt : Option Int
  deriving DecidableEq, Repr

structure JobRow where
  id : String
  userId : Int
  inputId : Int
  promptId : Option Int
  promptText : Option String
  workflow : String
  seed : Int
  status : String
  comfyPromptId : Option String
  outputPath : Option String
  thumbPath : Option String
  errorMessage : Option String
  width : Option Int
  height : Option Int
  createdAt : Int
  startedAt : Option Int
  completedAt : Option Int
  deletedAt : Option Int
  previewPath : Option String
  deriving DecidableEq, Repr

/-- A database that meets every constraint of the schema. -/
structure Db where
  users : Table UserRow.id
  inputs : Table InputRow.id
  customPrompts : Table PromptRow.id
  jobs : Table JobRow.id
  usernames : (users.rows.map UserRow.username).Nodup
  shas : (inputs.rows.map fun i => (i.userId, i.sha256)).Nodup
  inputUsers : ∀ i ∈ inputs.rows, (users.find? i.userId).isSome
  promptUsers : ∀ p ∈ customPrompts.rows, (users.find? p.userId).isSome
  jobUsers : ∀ j ∈ jobs.rows, (users.find? j.userId).isSome
  jobInputs : ∀ j ∈ jobs.rows, (inputs.find? j.inputId).isSome
  jobPrompts : ∀ j ∈ jobs.rows, ∀ p ∈ j.promptId, (customPrompts.find? p).isSome
  /-- The `CHECK` of `jobs`. -/
  onePrompt : ∀ j ∈ jobs.rows, j.promptId.isNone ≠ j.promptText.isNone

end V2

namespace V3

structure InputRow where
  id : Int
  sha256 : String
  path : Option String
  originalName : Option String
  contentType : Option String
  sizeBytes : Option Int
  width : Option Int
  height : Option Int
  createdAt : Int
  lastUsedAt : Int
  deriving DecidableEq, Repr

structure JobRow where
  id : String
  inputId : Int
  sourcePromptId : Option Int
  promptText : String
  workflow : String
  timeoutSeconds : Option Int
  seed : Int
  status : String
  comfyPromptId : Option String
  outputPath : Option String
  thumbPath : Option String
  errorMessage : Option String
  width : Option Int
  height : Option Int
  createdAt : Int
  startedAt : Option Int
  completedAt : Option Int
  deletedAt : Option Int
  previewPath : Option String
  deriving DecidableEq, Repr

structure Db where
  inputs : Table InputRow.id
  customPrompts : Prompts
  jobs : Table JobRow.id

/-- The constraints that go beyond the primary keys and the `NOT NULL`s. -/
structure Db.Consistent (db : Db) : Prop where
  shas : (db.inputs.rows.map InputRow.sha256).Nodup
  jobInputs : ∀ j ∈ db.jobs.rows, (db.inputs.find? j.inputId).isSome
  jobPrompts : ∀ j ∈ db.jobs.rows, ∀ p ∈ j.sourcePromptId, (db.customPrompts.find? p).isSome

end V3

def selectInput (i : V2.InputRow) : V3.InputRow :=
  ⟨i.id, i.sha256, i.path, i.originalName, i.contentType, i.sizeBytes, i.width, i.height,
    i.createdAt, i.lastUsedAt⟩

/-- The `UNIQUE` of `inputs_new`. -/
def admitInput (t : Table V3.InputRow.id) (i : V2.InputRow) : Except String V3.InputRow :=
  if i.sha256 ∈ t.rows.map V3.InputRow.sha256 then
    .error "UNIQUE constraint failed: inputs_new.sha256"
  else .ok (selectInput i)

def selectPrompt (p : V2.PromptRow) : PromptRow :=
  ⟨p.id, p.label, p.description, p.text, p.workflow, p.timeoutSeconds, p.createdAt, p.updatedAt,
    p.deletedAt⟩

def admitPrompt (_ : Prompts) (p : V2.PromptRow) : Except String PromptRow := .ok (selectPrompt p)

/-- A row of `jobs j LEFT JOIN custom_prompts cp`, with the text for the job. -/
def selectJob (j : V2.JobRow) (cp : Option V2.PromptRow) (text : String) : V3.JobRow where
  id := j.id
  inputId := j.inputId
  sourcePromptId := j.promptId
  promptText := text
  workflow := j.workflow
  timeoutSeconds := some ((cp.bind V2.PromptRow.timeoutSeconds).getD 60)
  seed := j.seed
  status := j.status
  comfyPromptId := j.comfyPromptId
  outputPath := j.outputPath
  thumbPath := j.thumbPath
  errorMessage := j.errorMessage
  width := j.width
  height := j.height
  createdAt := j.createdAt
  startedAt := j.startedAt
  completedAt := j.completedAt
  deletedAt := j.deletedAt
  previewPath := j.previewPath

/-- The `NOT NULL` of `prompt_text`, which is `COALESCE(j.prompt_text, cp.text)`, and the foreign
keys of `jobs_new`. `sqlx` runs a migration in a transaction, where `PRAGMA foreign_keys = OFF`
does nothing, so the keys are checked. -/
def admitJob (inputs : Table V3.InputRow.id) (prompts : Prompts) (_ : Table V3.JobRow.id) :
    V2.JobRow × Option V2.PromptRow → Except String V3.JobRow
  | (j, cp) => match j.promptText.or (cp.map V2.PromptRow.text) with
    | none => .error "NOT NULL constraint failed: jobs_new.prompt_text"
    | some text =>
      if (inputs.find? j.inputId).isNone ∨ ∃ p ∈ j.promptId, (prompts.find? p).isNone then
        .error "FOREIGN KEY constraint failed"
      else .ok (selectJob j cp text)

/-- `0003_single_user_schema.sql`; the old tables and `users` are dropped. -/
def singleUserSchema (db : V2.Db) : Except String V3.Db := do
  let inputs ← Table.empty.insertAll admitInput (db.inputs.rows.filter fun i => i.userId = 1)
  let customPrompts ← Table.empty.insertAll admitPrompt
    (db.customPrompts.rows.filter fun p => p.userId = 1)
  let joined := leftJoin (fun j cp => j.promptId = some (V2.PromptRow.id cp)) db.jobs.rows
    db.customPrompts.rows
  let jobs ← Table.empty.insertAll (admitJob inputs customPrompts)
    (joined.filter fun x => x.1.userId = 1)
  pure ⟨inputs, customPrompts, jobs⟩

namespace V4

structure JobRow extends V3.JobRow where
  progress : ℚ
  deriving DecidableEq, Repr

structure Db where
  inputs : Table V3.InputRow.id
  customPrompts : Prompts
  jobs : Table fun r : JobRow => r.id

end V4

/-- `0004_add_progress.sql`: the rows that are there take the default. -/
def addProgress (db : V3.Db) : V4.Db where
  inputs := db.inputs
  customPrompts := db.customPrompts
  jobs := ⟨db.jobs.rows.map fun r => { r with progress := 0 }, by
    simpa [Function.comp_def] using db.jobs.nodup⟩

def upgrade (db : V2.Db) : Except String V4.Db := (singleUserSchema db).map addProgress

/-- What user 1 has. -/
def ownInputs (db : V2.Db) : List V2.InputRow := db.inputs.rows.filter fun i => i.userId = 1
def ownPrompts (db : V2.Db) : List V2.PromptRow := db.customPrompts.rows.filter fun p => p.userId = 1
def ownJobs (db : V2.Db) : List V2.JobRow := db.jobs.rows.filter fun j => j.userId = 1

/-- User 1's jobs refer to no row of another user. -/
def OwnReferences (db : V2.Db) : Prop :=
  ∀ j ∈ db.jobs.rows, j.userId = 1 →
    (∀ i ∈ db.inputs.rows, i.id = j.inputId → i.userId = 1) ∧
    (∀ p ∈ db.customPrompts.rows, j.promptId = some p.id → p.userId = 1)

/-- A new row of `inputs` is the old one, without its user. -/
structure CarriesInput (i : V2.InputRow) (r : V3.InputRow) : Prop where
  id : r.id = i.id
  sha256 : r.sha256 = i.sha256
  path : r.path = i.path
  originalName : r.originalName = i.originalName
  contentType : r.contentType = i.contentType
  sizeBytes : r.sizeBytes = i.sizeBytes
  width : r.width = i.width
  height : r.height = i.height
  createdAt : r.createdAt = i.createdAt
  lastUsedAt : r.lastUsedAt = i.lastUsedAt

/-- A new row of `custom_prompts` is the old one, without its user. -/
structure CarriesPrompt (p : V2.PromptRow) (r : PromptRow) : Prop where
  id : r.id = p.id
  label : r.label = p.label
  description : r.description = p.description
  text : r.text = p.text
  workflow : r.workflow = p.workflow
  timeoutSeconds : r.timeoutSeconds = p.timeoutSeconds
  createdAt : r.createdAt = p.createdAt
  updatedAt : r.updatedAt = p.updatedAt
  deletedAt : r.deletedAt = p.deletedAt

theorem selectInput_carries (i : V2.InputRow) : CarriesInput i (selectInput i) := by
  constructor <;> rfl

theorem selectPrompt_carries (p : V2.PromptRow) : CarriesPrompt p (selectPrompt p) := by
  constructor <;> rfl

/-- A new row of `jobs` is the old one, with the text and the timeout it runs with. -/
structure Carries (db : V2.Db) (j : V2.JobRow) (r : V3.JobRow) : Prop where
  id : r.id = j.id
  inputId : r.inputId = j.inputId
  sourcePromptId : r.sourcePromptId = j.promptId
  ownText : ∀ text ∈ j.promptText, r.promptText = text ∧ r.timeoutSeconds = some 60
  prompt : ∀ p ∈ j.promptId, ∃ cp ∈ db.customPrompts.rows, cp.id = p ∧ r.promptText = cp.text ∧
    r.timeoutSeconds = some (cp.timeoutSeconds.getD 60)
  workflow : r.workflow = j.workflow
  seed : r.seed = j.seed
  status : r.status = j.status
  comfyPromptId : r.comfyPromptId = j.comfyPromptId
  outputPath : r.outputPath = j.outputPath
  thumbPath : r.thumbPath = j.thumbPath
  previewPath : r.previewPath = j.previewPath
  errorMessage : r.errorMessage = j.errorMessage
  width : r.width = j.width
  height : r.height = j.height
  createdAt : r.createdAt = j.createdAt
  startedAt : r.startedAt = j.startedAt
  completedAt : r.completedAt = j.completedAt
  deletedAt : r.deletedAt = j.deletedAt

/-- The prompt row that the join finds for a job. -/
def promptOf (db : V2.Db) (j : V2.JobRow) : Option V2.PromptRow :=
  j.promptId.bind db.customPrompts.find?

/-- The `CHECK` and the foreign key together: the text of a job is there, its own or its
prompt's, and not both. -/
theorem text_cases (db : V2.Db) {j : V2.JobRow} (hj : j ∈ db.jobs.rows) :
    (∃ text, j.promptText = some text ∧ j.promptId = none ∧ promptOf db j = none) ∨
    (∃ cp, j.promptText = none ∧ j.promptId = some cp.id ∧ cp ∈ db.customPrompts.rows ∧
      promptOf db j = some cp) := by
  have hone := db.onePrompt j hj
  cases htext : j.promptText with
  | some text =>
    have hid : j.promptId = none := by simpa [htext] using hone
    exact .inl ⟨text, rfl, hid, by simp [promptOf, hid]⟩
  | none =>
    cases hid : j.promptId with
    | none => simp [htext, hid] at hone
    | some p =>
      obtain ⟨cp, hcp⟩ := Option.isSome_iff_exists.mp (db.jobPrompts j hj p hid)
      obtain ⟨hmem, rfl⟩ := Table.find?_eq_some.mp hcp
      exact .inr ⟨cp, rfl, rfl, hmem, by simp [promptOf, hid, hcp]⟩

/-- The row that the migration makes of a job. -/
def migrated (db : V2.Db) (j : V2.JobRow) : V3.JobRow :=
  selectJob j (promptOf db j) ((j.promptText.or ((promptOf db j).map V2.PromptRow.text)).getD "")

theorem migrated_carries (db : V2.Db) {j : V2.JobRow} (hj : j ∈ db.jobs.rows) :
    Carries db j (migrated db j) := by
  have hprompt : ∀ text ∈ j.promptText, (migrated db j).promptText = text ∧
      (migrated db j).timeoutSeconds = some 60 := by
    intro text htext
    rcases text_cases db hj with ⟨text', htext', -, hcp⟩ | ⟨cp, hnone, -⟩
    · simp_all [migrated, selectJob]
    · simp [hnone] at htext
  have hsource : ∀ p ∈ j.promptId, ∃ cp ∈ db.customPrompts.rows, cp.id = p ∧
      (migrated db j).promptText = cp.text ∧
      (migrated db j).timeoutSeconds = some (cp.timeoutSeconds.getD 60) := by
    intro p hp
    rcases text_cases db hj with ⟨text, -, hnone, -⟩ | ⟨cp, htext, hid, hmem, hcp⟩
    · simp [hnone] at hp
    · obtain rfl : cp.id = p := by simpa [hid] using hp
      exact ⟨cp, hmem, rfl, by simp [migrated, selectJob, htext, hcp], by simp [migrated, selectJob, hcp]⟩
  constructor <;> first | rfl | assumption

/-- The hashes of one user's inputs are distinct. -/
theorem own_shas (db : V2.Db) : ((ownInputs db).map V2.InputRow.sha256).Nodup := by
  have hsub : ((ownInputs db).map fun i => (i.userId, i.sha256)).Nodup :=
    (List.filter_sublist.map _).nodup db.shas
  have hpair : (ownInputs db).map (fun i => (i.userId, i.sha256)) =
      ((ownInputs db).map V2.InputRow.sha256).map (fun sha => ((1 : Int), sha)) := by
    rw [List.map_map]
    apply List.map_congr_left
    intro i hi
    have huser : i.userId = 1 := by simpa [ownInputs] using (List.mem_filter.mp hi).2
    simp [huser]
  rw [hpair] at hsub
  exact hsub.of_map

theorem inputs_insert (db : V2.Db) : ∃ t, Table.empty.insertAll admitInput (ownInputs db) = .ok t ∧
    t.rows = (ownInputs db).map selectInput := by
  have hkeys : (((Table.empty : Table V3.InputRow.id).rows ++ (ownInputs db).map selectInput).map
      V3.InputRow.id).Nodup := by
    simp only [Table.empty, List.nil_append, List.map_map]
    exact (List.filter_sublist.map _).nodup db.inputs.nodup
  obtain ⟨t, ht, hrows⟩ := Table.insertAll_ok admitInput hkeys (by
    intro pre i post hsplit t' ht'
    have hnew : i.sha256 ∉ t'.rows.map V3.InputRow.sha256 := by
      have hshas := own_shas db
      rw [hsplit, List.map_append, List.map_cons, List.nodup_append] at hshas
      intro hmem
      apply hshas.2.2 i.sha256 _ i.sha256 (by simp) rfl
      simpa [ht', Table.empty, selectInput] using hmem
    exact if_neg hnew)
  exact ⟨t, ht, by simpa [Table.empty] using hrows⟩

theorem prompts_insert (db : V2.Db) :
    ∃ t, Table.empty.insertAll admitPrompt (ownPrompts db) = .ok t ∧
      t.rows = (ownPrompts db).map selectPrompt := by
  have hkeys : (((Table.empty : Prompts).rows ++ (ownPrompts db).map selectPrompt).map
      PromptRow.id).Nodup := by
    simp only [Table.empty, List.nil_append, List.map_map]
    exact (List.filter_sublist.map _).nodup db.customPrompts.nodup
  obtain ⟨t, ht, hrows⟩ := Table.insertAll_ok admitPrompt hkeys fun _ _ _ _ _ _ => rfl
  exact ⟨t, ht, by simpa [Table.empty] using hrows⟩

/-- A row of user 1 is in the new table under its old id. -/
theorem find_ownInput {db : V2.Db} {t : Table V3.InputRow.id}
    (ht : t.rows = (ownInputs db).map selectInput) {i : V2.InputRow} (hi : i ∈ db.inputs.rows)
    (huser : i.userId = 1) : t.find? i.id = some (selectInput i) := by
  apply Table.find?_eq_some.mpr
  refine ⟨?_, rfl⟩
  rw [ht]
  exact List.mem_map_of_mem (List.mem_filter.mpr ⟨hi, by simpa using huser⟩)

theorem find_ownPrompt {db : V2.Db} {t : Prompts} (ht : t.rows = (ownPrompts db).map selectPrompt)
    {p : V2.PromptRow} (hp : p ∈ db.customPrompts.rows) (huser : p.userId = 1) :
    t.find? p.id = some (selectPrompt p) := by
  apply Table.find?_eq_some.mpr
  refine ⟨?_, rfl⟩
  rw [ht]
  exact List.mem_map_of_mem (List.mem_filter.mpr ⟨hp, by simpa using huser⟩)

section
variable {db : V2.Db} {inputs : Table V3.InputRow.id} {prompts : Prompts}
  (hinputs : inputs.rows = (ownInputs db).map selectInput)
  (hprompts : prompts.rows = (ownPrompts db).map selectPrompt) (hown : OwnReferences db)
include hinputs hprompts hown

/-- The references of user 1's jobs lead into the new tables. -/
theorem references {j : V2.JobRow} (hj : j ∈ ownJobs db) :
    (inputs.find? j.inputId).isSome ∧ ∀ p ∈ j.promptId, (prompts.find? p).isSome := by
  obtain ⟨hmem, huser⟩ := List.mem_filter.mp hj
  obtain ⟨hin, hpr⟩ := hown j hmem (by simpa using huser)
  constructor
  · obtain ⟨i, hi⟩ := Option.isSome_iff_exists.mp (db.jobInputs j hmem)
    obtain ⟨hi, hid⟩ := Table.find?_eq_some.mp hi
    rw [← hid, find_ownInput hinputs hi (hin i hi hid)]
    rfl
  · intro p hp
    obtain ⟨cp, hcp⟩ := Option.isSome_iff_exists.mp (db.jobPrompts j hmem p hp)
    obtain ⟨hmem, rfl⟩ := Table.find?_eq_some.mp hcp
    rw [find_ownPrompt hprompts hmem (hpr cp hmem hp)]
    rfl

theorem admit_ownJob {j : V2.JobRow} (hj : j ∈ ownJobs db) (t : Table V3.JobRow.id) :
    admitJob inputs prompts t (j, promptOf db j) = .ok (migrated db j) := by
  obtain ⟨hin, hpr⟩ := references hinputs hprompts hown hj
  have hkeys : ¬ ((inputs.find? j.inputId).isNone ∨ ∃ p ∈ j.promptId, (prompts.find? p).isNone) := by
    rintro (hnone | ⟨p, hp, hnone⟩)
    · simp [Option.isNone_iff_eq_none.mp hnone] at hin
    · have hsome := hpr p hp
      simp [Option.isNone_iff_eq_none.mp hnone] at hsome
  rcases text_cases db (List.mem_filter.mp hj).1 with ⟨text, htext, -, hcp⟩ | ⟨cp, htext, -, -, hcp⟩
  · simp only [admitJob, htext, Option.some_or, migrated, Option.getD_some]
    exact if_neg hkeys
  · simp only [admitJob, htext, hcp, Option.none_or, Option.map_some, migrated, Option.getD_some]
    exact if_neg hkeys

theorem jobs_insert : ∃ t, Table.empty.insertAll (admitJob inputs prompts)
    ((ownJobs db).map fun j => (j, promptOf db j)) = .ok t ∧ t.rows = (ownJobs db).map (migrated db) := by
  let f : V2.JobRow × Option V2.PromptRow → V3.JobRow := fun x => migrated db x.1
  have hmap : ((ownJobs db).map fun j => (j, promptOf db j)).map f = (ownJobs db).map (migrated db) := by
    simp [f, Function.comp_def]
  have hkeys : (((Table.empty : Table V3.JobRow.id).rows ++
      ((ownJobs db).map fun j => (j, promptOf db j)).map f).map V3.JobRow.id).Nodup := by
    rw [hmap]
    simp only [Table.empty, List.nil_append, List.map_map]
    exact (List.filter_sublist.map _).nodup db.jobs.nodup
  obtain ⟨t, ht, hrows⟩ := Table.insertAll_ok (admitJob inputs prompts) hkeys (by
    intro pre x post hsplit t' _
    have hx : x ∈ (ownJobs db).map fun j => (j, promptOf db j) := by simp [hsplit]
    obtain ⟨j, hj, rfl⟩ := List.mem_map.mp hx
    exact admit_ownJob hinputs hprompts hown hj t')
  rw [hmap] at hrows
  exact ⟨t, ht, by simpa [Table.empty] using hrows⟩

end

theorem joined_ownJobs (db : V2.Db) :
    (leftJoin (fun j cp => j.promptId = some (V2.PromptRow.id cp)) db.jobs.rows
      db.customPrompts.rows).filter (fun x => x.1.userId = 1) =
    (ownJobs db).map fun j => (j, promptOf db j) := by
  rw [leftJoin_key db.customPrompts V2.JobRow.promptId, List.filter_map]
  rfl

/-- However it went: every job there is was selected from one of user 1's. -/
theorem singleUserSchema_jobs {db : V2.Db} {new : V3.Db} (h : singleUserSchema db = .ok new) :
    List.Forall₂ (fun j r => ∃ text, r = selectJob j (promptOf db j) text) (ownJobs db)
      new.jobs.rows := by
  simp only [singleUserSchema] at h
  rw [joined_ownJobs] at h
  cases hin : Table.empty.insertAll admitInput (db.inputs.rows.filter fun i => i.userId = 1) with
  | error e =>
    rw [hin] at h
    cases h
  | ok inputs =>
    cases hpr : Table.empty.insertAll admitPrompt
        (db.customPrompts.rows.filter fun p => p.userId = 1) with
    | error e =>
      rw [hin, hpr] at h
      cases h
    | ok prompts =>
      rw [hin, hpr] at h
      simp only [bind, Except.bind] at h
      split at h
      · cases h
      · rename_i jobs hjobs
        cases h
        obtain ⟨rs, hrows, hall⟩ := Table.insertAll_rows hjobs
        obtain rfl : jobs.rows = rs := by simpa [Table.empty] using hrows
        rw [List.forall₂_map_left_iff] at hall
        apply hall.imp
        rintro j r ⟨t₀, hadmit⟩
        simp only [admitJob] at hadmit
        split at hadmit
        · cases hadmit
        · rename_i text _
          split at hadmit <;> cases hadmit
          exact ⟨text, rfl⟩

/-- Migration 0003 goes through, and leaves exactly what user 1 had: the rows of a new table are
those of user 1 in the old one, one for one. -/
theorem singleUserSchema_keeps {db : V2.Db} (hown : OwnReferences db) :
    ∃ new, singleUserSchema db = .ok new ∧ new.Consistent ∧
      List.Forall₂ CarriesInput (ownInputs db) new.inputs.rows ∧
      List.Forall₂ CarriesPrompt (ownPrompts db) new.customPrompts.rows ∧
      List.Forall₂ (Carries db) (ownJobs db) new.jobs.rows := by
  obtain ⟨inputs, hin, hinputs⟩ := inputs_insert db
  obtain ⟨prompts, hpr, hprompts⟩ := prompts_insert db
  obtain ⟨jobs, hjob, hjobs⟩ := jobs_insert hinputs hprompts hown
  refine ⟨⟨inputs, prompts, jobs⟩, ?_, ?_, ?_, ?_, ?_⟩
  · simp only [singleUserSchema]
    rw [joined_ownJobs, ← ownInputs, hin, ← ownPrompts, hpr]
    simp only [bind, Except.bind]
    rw [hjob]
    rfl
  · have hrefs : ∀ r ∈ jobs.rows, ∃ j ∈ ownJobs db, migrated db j = r := by
      intro r hr
      rw [hjobs] at hr
      exact List.mem_map.mp hr
    constructor
    · simpa [hinputs, Function.comp_def, selectInput] using own_shas db
    · intro r hr
      obtain ⟨j, hj, rfl⟩ := hrefs r hr
      exact (references hinputs hprompts hown hj).1
    · intro r hr
      obtain ⟨j, hj, rfl⟩ := hrefs r hr
      exact (references hinputs hprompts hown hj).2
  · rw [hinputs, List.forall₂_map_right_iff, List.forall₂_same]
    exact fun i _ => selectInput_carries i
  · rw [hprompts, List.forall₂_map_right_iff, List.forall₂_same]
    exact fun p _ => selectPrompt_carries p
  · rw [hjobs, List.forall₂_map_right_iff, List.forall₂_same]
    intro j hj
    exact migrated_carries db (List.mem_filter.mp hj).1

/-- A job with a text of its own and one with a prompt, beside the rows of another user. -/
def sampleDb : V2.Db where
  users := ⟨[⟨1, "me", "Me", 0, none⟩, ⟨2, "guest", "Guest", 0, none⟩], by decide⟩
  inputs := ⟨[⟨1, 1, "aa", some "cache/inputs/aa.png", none, none, none, none, none, 5, 5⟩,
    ⟨2, 2, "aa", none, none, none, none, none, none, 6, 6⟩], by decide⟩
  customPrompts := ⟨[⟨1, 1, "Blue", none, "make it blue", "edit", some 30, 5, 5, none⟩], by decide⟩
  jobs := ⟨[⟨"a", 1, 1, none, some "make it red", "edit", 7, "done", none, none, none, none, none,
      none, 5, none, none, none, none⟩,
    ⟨"b", 1, 1, some 1, none, "edit", 8, "queued", none, none, none, none, none, none, 6, none, none,
      none, none⟩,
    ⟨"c", 2, 2, none, some "hi", "edit", 9, "failed", none, none, none, none, none, none, 7, none,
      none, none, none⟩], by decide⟩
  usernames := by decide
  shas := by decide
  inputUsers := by decide
  promptUsers := by decide
  jobUsers := by decide
  jobInputs := by decide
  jobPrompts := by decide
  onePrompt := by decide

theorem singleUserSchema_keeps_sample : ∃ new, singleUserSchema sampleDb = .ok new ∧
    new.Consistent ∧ List.Forall₂ CarriesInput (ownInputs sampleDb) new.inputs.rows ∧
    new.jobs.rows.map V3.JobRow.promptText = ["make it red", "make it blue"] := by
  have hown : OwnReferences sampleDb := by
    unfold OwnReferences
    decide
  obtain ⟨new, hnew, hcons, hinputs, -⟩ := singleUserSchema_keeps hown
  refine ⟨new, hnew, hcons, hinputs, ?_⟩
  have hrows : (singleUserSchema sampleDb).map (fun new => new.jobs.rows.map V3.JobRow.promptText) =
      .ok ["make it red", "make it blue"] := by
    decide +kernel
  rw [hnew] at hrows
  exact Except.ok.inj hrows

end ZunServer.Migrations
