import ZunServer.Lifecycle
import ZunServer.WorkerSteps

/-!
# The input cache under concurrent submits

`resolve_input` reads the row, looks at the file, and then acts on the row,
whatever other submits did in between. A request that found the file missing
clears the path also after another one has stored the file again and relies on
it; a request that finds the file relies on the row also while its path is
cleared. Nothing else takes an accepted input away.
-/
namespace ZunServer.InputCache

open KeyedTable
open Schema Statements Database Comfy Calls Renditions Worker Handlers Purge Server Rows Lifecycle
open WorkerSteps SubmitSteps

/-- The input row a submit is going to answer with, or has answered with. -/
def committedTo : ServerTask → Option Int
  | .submit pc => match pc with
    | .touch _ _ _ id | .newJobId _ id | .seed _ id _ | .insertJob _ id _ _ | .wakeWorker id _
    | .answered (.accepted _ id) => some id
    | _ => none
  | _ => none

/-- The input row whose path a submit clears. -/
def clears (s : State) : Act → Option Int
  | .task i .ok => match s.tasks[i]? with
    | some (.submit (.clearPath _ _ _ id)) => some id
    | _ => none
  | _ => none

/-- The input row whose file a submit finds. -/
def finds (s : State) : Act → Option Int
  | .task i .ok => match s.tasks[i]? with
    | some (.submit (.stat _ _ _ id path)) => if (s.world.files path).isSome then some id else none
    | _ => none
  | _ => none

/-- No path is cleared that a submit among the tasks from `n` on is committed to,
and no file is found of a row whose path is NULL by now. -/
def Unraced (n : Nat) (s : State) (a : Act) : Prop :=
  (∀ id ∈ clears s a, ∀ τ ∈ s.tasks.drop n, committedTo τ ≠ some id) ∧
    ∀ id ∈ finds s a, ((s.world.db.inputs.find? id).bind InputRow.path).isSome

instance (n : Nat) (s : State) (a : Act) : Decidable (Unraced n s a) :=
  inferInstanceAs (Decidable ((∀ id ∈ clears s a, _) ∧ ∀ id ∈ finds s a, _))

/-- The process stays up, no purge runs and no file is removed by hand. -/
def calm : Act → Bool
  | .crash | .arrive (.purge _) | .env (.vanish _) => false
  | _ => true

/-- No submit and no purge under way. -/
def idle : ServerTask → Bool
  | .submit (.answered _) | .purge (.finished _) => true
  | .submit _ | .purge _ => false
  | _ => true

/-- The row has a path and the file is there. -/
def Available (w : World) (id : Int) : Prop :=
  ∃ r p, w.db.inputs.find? id = some r ∧ r.path = some p ∧ (w.files p).isSome = true

def RowThere (w : World) (id : Int) : Prop := ∃ r, w.db.inputs.find? id = some r

/-- What a submit has seen or done so far, as far as it still holds. -/
def Relies (w : World) : SubmitPc → Prop
  | .stat _ _ _ id path => ∃ r, w.db.inputs.find? id = some r ∧
    ∀ p, r.path = some p → p = path ∨ (w.files p).isSome = true
  | .clearPath _ _ _ id => RowThere w id
  | .write _ _ _ row _ _ => ∀ id, row = some id → RowThere w id
  | .dimensions _ _ _ row _ path =>
    (∀ id, row = some id → RowThere w id) ∧ (w.files path).isSome = true
  | .updateInput _ _ _ id fields => RowThere w id ∧ (w.files fields.path).isSome = true
  | .insertInput _ _ _ fields => (w.files fields.path).isSome = true
  | .touch _ _ _ id | .newJobId _ id | .seed _ id _ | .insertJob _ id _ _ | .wakeWorker id _
  | .answered (.accepted _ id) => Available w id
  | .selectPrompt _ _ | .selectInput _ _ _ | .answered _ => True

/-- The job a submit has put into the table, and its input. -/
def inserted : SubmitPc → Option (String × Int)
  | .wakeWorker id jobId | .answered (.accepted jobId id) => some (jobId, id)
  | _ => none

structure Cached (n : Nat) (s : State) : Prop where
  ids : IdsOk s
  started : n ≤ s.tasks.length
  purges : ∀ (i : Nat) pc, s.tasks[i]? = some (.purge pc) → ∃ r, pc = .finished r
  early : ∀ (i : Nat) pc, i < n → s.tasks[i]? = some (.submit pc) → ∃ r, pc = .answered r
  late : ∀ (i : Nat) pc, n ≤ i → s.tasks[i]? = some (.submit pc) → Relies s.world pc
  jobs : ∀ (i : Nat) pc jobId id, n ≤ i → s.tasks[i]? = some (.submit pc) →
    inserted pc = some (jobId, id) → ∃ r, row? s jobId = some r ∧ r.inputId = id

theorem files_grow {cfg : Config} {n : Nat} {s t : State} {a : Act} (h : Cached n s)
    (hm : Moved cfg s t a) (hcalm : calm a = true) {p : DataPath}
    (hp : (s.world.files p).isSome = true) : (t.world.files p).isSome = true := by
  cases hm.files with
  | same he => rw [he]; exact hp
  | put he => exact he ▸ Files.put_isSome hp _ _
  | purged hi hr he =>
    obtain ⟨r, rfl⟩ := h.purges _ _ hi
    cases hr
  | vanished he => cases hcalm

theorem stored_file {n : Nat} {s : State} (h : Cached n s) {i : Nat} {f : SubmitFields}
    {p : Resolved} {now id : Int} {fields : InputFields}
    (hi : s.tasks[i]? = some (.submit (.updateInput f p now id fields))) :
    (s.world.files fields.path).isSome = true := by
  rcases Nat.lt_or_ge i n with hlt | hge
  · obtain ⟨r, hr⟩ := h.early i _ hlt hi
    cases hr
  · exact (h.late i _ hge hi).2

/-- What a step makes of an input row: its path stays, is cleared by a submit, or
becomes that of a file on disk. -/
theorem input_step {cfg : Config} {n : Nat} {s t : State} {a : Act} (h : Cached n s)
    (hm : Moved cfg s t a) (hcalm : calm a = true) {id : Int} {r : InputRow}
    (hr : s.world.db.inputs.find? id = some r) :
    ∃ r', t.world.db.inputs.find? id = some r' ∧
      (r'.path = r.path ∨ (r'.path = none ∧ clears s a = some id) ∨
        ∃ p, r'.path = some p ∧ (t.world.files p).isSome = true) := by
  have hid : r.id = id := Table.find?_key hr
  cases hin : hm.inputs with
  | same he => exact ⟨r, by rw [he, hr], .inl rfl⟩
  | touched hi he =>
    refine ⟨_, by rw [he, Table.find?_update, hr]; rfl, .inl ?_⟩
    unfold Update.row
    split <;> rfl
  | cleared hi he =>
    rename_i i f p now id'
    refine ⟨_, by rw [he, Table.find?_update, hr]; rfl, ?_⟩
    by_cases heq : r.id = id'
    · refine .inr (.inl ⟨?_, ?_⟩)
      · rw [Update.row_of_cond _ (decide_eq_true heq)]
        rfl
      · simp only [clears, hi]
        rw [← heq, hid]
    · exact .inl (by rw [Update.row_of_not _ (decide_eq_false heq)])
  | stored hi he =>
    rename_i i f p now id' fields
    refine ⟨_, by rw [he, Table.find?_update, hr]; rfl, ?_⟩
    by_cases heq : r.id = id'
    · refine .inr (.inr ⟨fields.path, ?_, files_grow h hm hcalm (stored_file h hi)⟩)
      rw [Update.row_of_cond _ (decide_eq_true heq)]
      rfl
    · exact .inl (by rw [Update.row_of_not _ (decide_eq_false heq)])
  | inserted hi hnew he => exact ⟨r, find?_insertInput he hr, .inl rfl⟩
  | purged hi he =>
    obtain ⟨r, hr⟩ := h.purges _ _ hi
    cases hr

/-- No statement deletes an input. -/
theorem RowThere.moved {cfg : Config} {s t : State} {a : Act} (hm : Moved cfg s t a) {id : Int}
    (hr : RowThere s.world id) : RowThere t.world id := by
  obtain ⟨r, hr⟩ := hr
  cases hm.inputs with
  | same he => exact ⟨r, by rw [he, hr]⟩
  | touched hi he | cleared hi he | stored hi he | purged hi he =>
    exact ⟨_, by rw [he, Table.find?_update, hr]; rfl⟩
  | inserted hi hnew he => exact ⟨r, find?_insertInput he hr⟩

theorem Available.step {cfg : Config} {n : Nat} {s t : State} {a : Act} (h : Cached n s)
    (hm : Moved cfg s t a) (hcalm : calm a = true) {id : Int} (hclear : clears s a ≠ some id)
    (hav : Available s.world id) : Available t.world id := by
  obtain ⟨r, p, hr, hp, hfile⟩ := hav
  obtain ⟨r', hr', hpath | ⟨-, hc⟩ | ⟨p', hp', hfile'⟩⟩ := input_step h hm hcalm hr
  · exact ⟨r', p, hr', hpath.trans hp, files_grow h hm hcalm hfile⟩
  · exact absurd hc hclear
  · exact ⟨r', p', hr', hp', hfile'⟩

theorem Relies.step {cfg : Config} {n : Nat} {s t : State} {a : Act} (h : Cached n s)
    (hm : Moved cfg s t a) (hcalm : calm a = true) {pc : SubmitPc}
    (hclear : ∀ id, clears s a = some id → committedTo (.submit pc) ≠ some id)
    (hpc : Relies s.world pc) : Relies t.world pc := by
  have hrow : ∀ {id}, RowThere s.world id → RowThere t.world id := fun hr => hr.moved hm
  have hfile : ∀ {p}, (s.world.files p).isSome = true → (t.world.files p).isSome = true :=
    fun hp => files_grow h hm hcalm hp
  have hav : ∀ {id}, committedTo (.submit pc) = some id → Available s.world id →
      Available t.world id := fun hc hav => hav.step h hm hcalm fun he => hclear _ he hc
  cases pc with
  | stat f p now id path =>
    obtain ⟨r, hr, hp⟩ := hpc
    obtain ⟨r', hr', hpath | ⟨hnone, -⟩ | ⟨p', hp', hfile'⟩⟩ := input_step h hm hcalm hr
    · exact ⟨r', hr', fun q hq => (hp q (hpath ▸ hq)).imp_right hfile⟩
    · exact ⟨r', hr', fun q hq => by rw [hnone] at hq; cases hq⟩
    · refine ⟨r', hr', fun q hq => .inr ?_⟩
      rw [hp'] at hq
      cases hq
      exact hfile'
  | clearPath f p now id => exact hrow hpc
  | write f p now row u path => exact fun id he => hrow (hpc id he)
  | dimensions f p now row u path => exact ⟨fun id he => hrow (hpc.1 id he), hfile hpc.2⟩
  | updateInput f p now id fields => exact ⟨hrow hpc.1, hfile hpc.2⟩
  | insertInput f p now fields => exact hfile hpc
  | touch f p now id => exact hav rfl hpc
  | newJobId p id => exact hav rfl hpc
  | seed p id jobId => exact hav rfl hpc
  | insertJob p id jobId n => exact hav rfl hpc
  | wakeWorker id jobId => exact hav rfl hpc
  | answered r =>
    cases r with
    | accepted jobId id => exact hav rfl hpc
    | _ => trivial
  | selectPrompt f pid => trivial
  | selectInput f p now => trivial

theorem relies_start (cfg : Config) (w : World) (now : Int) (f : SubmitFields) :
    Relies w (.start cfg now f) := by
  rcases SubmitPc.start_cases cfg now f with ⟨e, h⟩ | ⟨-, ⟨pid, h⟩ | ⟨p, h⟩⟩ <;>
    (rw [h]; trivial)

theorem relies_needUpload (w : World) (f : SubmitFields) (p : Resolved) (now : Int)
    {row : Option Int} (h : ∀ id, row = some id → RowThere w id) :
    Relies w (.needUpload f p now row) := by
  rcases SubmitPc.needUpload_cases f p now row with ⟨e, he⟩ | ⟨u, path, -, he⟩
  · rw [he]
    trivial
  · rw [he]
    exact h

theorem relies_moved {cfg : Config} {n : Nat} {s t : State} {i : Nat} {f : Fate}
    {pc pc' : SubmitPc} (h : Cached n s) (hm : Moved cfg s t (.task i f))
    (hrace : Unraced n s (.task i f)) (hi : s.tasks[i]? = some (.submit pc))
    (hpc : Relies s.world pc) (hs : SubmitStep s.world t.world f pc pc') :
    Relies t.world pc' := by
  have hfile : ∀ {p}, (s.world.files p).isSome = true → (t.world.files p).isSome = true :=
    fun hp => files_grow h hm rfl hp
  have hrow : ∀ {id}, RowThere s.world id → RowThere t.world id := fun hr => hr.moved hm
  have hav : (∀ f p now id, pc ≠ .clearPath f p now id) → ∀ {id}, Available s.world id →
      Available t.world id := by
    refine fun hne id hav => hav.step h hm rfl fun hclear => ?_
    cases f <;> simp only [clears, hi, reduceCtorEq] at hclear
    split at hclear
    · rename_i he
      cases he
      exact hne _ _ _ _ rfl
    · cases hclear
  cases hs with
  | fails hf hw => trivial
  | refused hw | prompt hw => trivial
  | absent hf hw hnone => exact relies_needUpload _ _ _ _ (by simp)
  | noPath hw hr hsha hpath =>
    refine relies_needUpload _ _ _ _ fun id he => ?_
    cases he
    exact hrow ⟨_, Table.find?_of_mem hr⟩
  | cached hw hr hsha hpath =>
    rename_i r path
    rw [hw]
    refine ⟨r, Table.find?_of_mem hr, fun p hp => .inl ?_⟩
    rw [hpath] at hp
    exact (Option.some.inj hp).symm
  | hit hf hw hfound =>
    rename_i fl p now id path
    subst hf
    obtain ⟨r, hr, hpath⟩ := hpc
    have hpresent := hrace.2 id (by simp only [finds, hi, hfound, ↓reduceIte, Option.mem_def])
    rw [hr, Option.bind_some] at hpresent
    obtain ⟨q, hq⟩ := Option.isSome_iff_exists.mp hpresent
    have hqfile : (s.world.files q).isSome = true := by
      rcases hpath q hq with rfl | hqf
      · exact hfound
      · exact hqf
    rw [hw]
    exact ⟨r, q, hr, hq, hqfile⟩
  | miss hw hgone =>
    obtain ⟨r, hr, -⟩ := hpc
    exact hrow ⟨r, hr⟩
  | touched hin hfs => exact hav (by simp) hpc
  | cleared hf hin hfs =>
    refine relies_needUpload _ _ _ _ fun id he => ?_
    cases he
    exact hrow hpc
  | wrote hf hdb hfs =>
    refine ⟨fun id he => hrow (hpc id he), ?_⟩
    rw [hfs]
    simp
  | decodedOld hdb hfs hfields =>
    refine ⟨hrow (hpc.1 _ rfl), ?_⟩
    rw [hfields]
    exact hfile hpc.2
  | decodedNew hdb hfs hfields =>
    rw [Relies, hfields]
    exact hfile hpc.2
  | stored hf hin hfs =>
    rename_i fl p now id fields
    obtain ⟨⟨r, hr⟩, hpath⟩ := hpc
    refine ⟨_, fields.path, by rw [hin, Table.find?_update, hr]; rfl, ?_, hfile hpath⟩
    rw [Update.row_of_cond _ (decide_eq_true (Table.find?_key hr))]
    rfl
  | inserted hnew hin hfs =>
    rename_i fl p now fields
    exact ⟨_, fields.path, (Table.find?_insert hin _).trans (if_pos rfl), rfl, hfile hpc⟩
  | duplicate hw hdup => trivial
  | drew hnew hw => exact hav (by simp) hpc
  | seeded hw => exact hav (by simp) hpc
  | queued hin hfs hjob => exact hav (by simp) hpc
  | notQueued hw hdup => trivial
  | woke hdb hfs => exact hav (by simp) hpc

theorem job_step {cfg : Config} {n : Nat} {s t : State} {a : Act} (h : Cached n s)
    (hm : Moved cfg s t a) {jobId : String} {id : Int}
    (hrow : ∃ r, row? s jobId = some r ∧ r.inputId = id) :
    ∃ r, row? t jobId = some r ∧ r.inputId = id := by
  obtain ⟨r, hr, hid⟩ := hrow
  cases row_step hm (h.ids.settled hr) with
  | same he => exact ⟨r, he.trans hr, hid⟩
  | update hst he => exact ⟨_, by rw [he, hr]; rfl, (stmt_sameRequest _ r).inputId.trans hid⟩
  | delete ha hi hj he =>
    obtain ⟨r, hr⟩ := h.purges _ _ hi
    cases hr

theorem inserted_needUpload (f : SubmitFields) (p : Resolved) (now : Int) (row : Option Int) :
    inserted (.needUpload f p now row) = none := by
  rcases SubmitPc.needUpload_cases f p now row with ⟨e, h⟩ | ⟨u, path, -, h⟩ <;> (rw [h]; rfl)

theorem inserted_moved {cfg : Config} {n : Nat} {s t : State} {i : Nat} {f : Fate}
    {pc pc' : SubmitPc} {jobId : String} {id : Int} (h : Cached n s) (hn : n ≤ i)
    (hm : Moved cfg s t (.task i f)) (hi : s.tasks[i]? = some (.submit pc))
    (hs : SubmitStep s.world t.world f pc pc') (hins : inserted pc' = some (jobId, id)) :
    ∃ r, row? t jobId = some r ∧ r.inputId = id := by
  cases hs with
  | queued hin hfs hjob =>
    cases hins
    exact ⟨_, (row?_insert hjob jobId).trans (if_pos rfl), rfl⟩
  | woke hdb hfs => exact job_step h hm (h.jobs i _ jobId id hn hi hins)
  | absent hf hw hnone | noPath hw hr hsha hpath | cleared hf hin hfs =>
    rw [inserted_needUpload] at hins
    cases hins
  | _ => cases hins

theorem Cached.step {cfg : Config} {n : Nat} {s t : State} {a : Act} (h : Cached n s)
    (hm : Moved cfg s t a) (hcalm : calm a = true) (hrace : Unraced n s a) : Cached n t where
  ids := h.ids.step hm
  started := by
    have hlen := h.started
    cases hm with
    | worker _ tasks | arrive _ _ tasks =>
      rw [tasks, List.length_append]
      omega
    | task _ _ _ tasks | drop _ _ _ _ tasks =>
      rw [tasks, List.length_set]
      exact hlen
    | writer _ _ tasks | env _ _ tasks =>
      rw [tasks]
      exact hlen
    | crash _ => cases hcalm
  purges i pc hi := by
    rcases hm.purge_origin hi with ⟨hi₀, -⟩ | ⟨o, rfl, -, -⟩ | ⟨f, pc₀, -, hi₀, hp⟩
    · exact h.purges i pc hi₀
    · cases hcalm
    · obtain ⟨r, rfl⟩ := h.purges i pc₀ hi₀
      cases hp
  early i pc hlt hi := by
    rcases submit_origin hm hi with ⟨hi₀, -⟩ | ⟨fl, -, hlen, -⟩ | ⟨f, pc₀, -, hi₀, hs⟩
    · exact h.early i pc hlt hi₀
    · have hlen' := h.started
      omega
    · obtain ⟨r, rfl⟩ := h.early i pc₀ hlt hi₀
      cases hs with
      | fails hf hw => exact ⟨_, rfl⟩
  late i pc hn hi := by
    rcases submit_origin hm hi with ⟨hi₀, -⟩ | ⟨fl, -, -, rfl⟩ | ⟨f, pc₀, rfl, hi₀, hs⟩
    · refine (h.late i pc hn hi₀).step h hm hcalm fun id hclear => ?_
      refine hrace.1 id hclear _ (List.mem_of_getElem? (i := i - n) ?_)
      rw [List.getElem?_drop, Nat.add_sub_cancel' hn]
      exact hi₀
    · exact relies_start cfg _ _ fl
    · exact relies_moved h hm hrace hi₀ (h.late i pc₀ hn hi₀) hs
  jobs i pc jobId id hn hi hins := by
    rcases submit_origin hm hi with ⟨hi₀, -⟩ | ⟨fl, -, -, rfl⟩ | ⟨f, pc₀, rfl, hi₀, hs⟩
    · exact job_step h hm (h.jobs i pc jobId id hn hi₀ hins)
    · rcases SubmitPc.start_cases cfg s.world.now fl with ⟨e, he⟩ | ⟨-, ⟨pid, he⟩ | ⟨p, he⟩⟩ <;>
        (rw [he] at hins; cases hins)
    · exact inserted_moved h hn hm hi₀ hs hins

theorem Cached.start {s : State} (hids : IdsOk s) (hidle : ∀ τ ∈ s.tasks, idle τ = true) :
    Cached s.tasks.length s where
  ids := hids
  started := Nat.le_refl _
  purges i pc hi := by
    have h := hidle _ (List.mem_of_getElem? hi)
    cases pc with
    | finished r => exact ⟨r, rfl⟩
    | _ => cases h
  early i pc _ hi := by
    have h := hidle _ (List.mem_of_getElem? hi)
    cases pc with
    | answered r => exact ⟨r, rfl⟩
    | _ => cases h
  late i pc hn hi := by
    rw [List.getElem?_eq_none hn] at hi
    cases hi
  jobs i pc jobId id hn hi := by
    rw [List.getElem?_eq_none hn] at hi
    cases hi

def fetched : WorkerPc → Option QueuedJob
  | .claim job | .process job _ | .panicked job => some job
  | _ => none

/-- The worker knows its job as the row has it. -/
structure FetchedOk (s : State) : Prop where
  ids : IdsOk s
  row : ∀ job, fetched s.worker = some job →
    Settled s job.id ∧ OnRow s job.id fun r => QueuedJob.of r = job

theorem errorArm_fetched {job : QueuedJob} {pc : WorkerPc} (h : ErrorArm job pc) :
    fetched pc = some job := by
  cases h <;> rfl

theorem free_fetched {pc : WorkerPc} (h : free pc = true) : fetched pc = none := by
  cases pc <;> first | rfl | cases h

theorem stmt_queuedJob (st : JobStmt) (r : JobRow) :
    QueuedJob.of (st.update.row r) = QueuedJob.of r := by
  have hsame := stmt_sameRequest st r
  have hid : (st.update.row r).id = r.id := st.update.row_key r
  simp only [QueuedJob.of, hsame.inputId, hsame.promptText, hsame.workflow, hsame.timeoutSeconds,
    hsame.seed, hid]

theorem stage_fetched {w w' : World} {f : Fate} {job job' : QueuedJob} {stage : Stage}
    {pc : WorkerPc} {l : List GeneratePc} (h : StageStep w w' f job stage pc l)
    (hpc : fetched pc = some job') : job' = job := by
  cases h with
  | goes h => exact (Option.some.inj hpc).symm
  | fails h h' => exact Option.some.inj (hpc.symm.trans (errorArm_fetched h'))
  | _ => cases hpc

/-- The worker holds the job it held, or one it has just read off a row. -/
theorem fetched_origin {cfg : Config} {s t : State} {a : Act} (hm : Moved cfg s t a)
    {job : QueuedJob} (hjob : fetched t.worker = some job) :
    fetched s.worker = some job ∨ ∃ r ∈ s.world.db.jobs.rows, QueuedJob.of r = job := by
  rcases worker_cases hm with ⟨f, l, -, hw, -⟩ | ⟨hw, -⟩ | ⟨-, rfl⟩
  · generalize s.worker = pc at hw
    generalize t.worker = pc' at hw hjob
    cases hw with
    | fetched hr hq he => exact .inr ⟨_, hr, Option.some.inj hjob⟩
    | won hn hran => exact .inl hjob
    | claimFails hf he =>
      obtain rfl := Option.some.inj ((errorArm_fetched he).symm.trans hjob)
      exact .inl rfl
    | stage hs =>
      obtain rfl := stage_fetched hs hjob
      exact .inl rfl
    | free _ h' =>
      rw [free_fetched h'] at hjob
      cases hjob
    | reset _ | lost _ _ => cases hjob
  · exact .inl (hw ▸ hjob)
  · cases hjob

theorem FetchedOk.step {cfg : Config} {s t : State} {a : Act} (h : FetchedOk s)
    (hm : Moved cfg s t a) : FetchedOk t where
  ids := h.ids.step hm
  row job hjob := by
    have stays : Settled s job.id → (OnRow s job.id fun r => QueuedJob.of r = job) →
        Settled t job.id ∧ OnRow t job.id fun r => QueuedJob.of r = job := fun hset hrow =>
      ⟨hset.step hm, hrow.step hm hset fun st r _ _ hr => (stmt_queuedJob st r).trans hr⟩
    rcases fetched_origin hm hjob with hs | ⟨r, hr, rfl⟩
    · exact stays (h.row job hs).1 (h.row job hs).2
    · refine stays (h.ids.rows r hr) fun r' hr' => ?_
      have hrow : row? s r.id = some r := Table.find?_of_mem hr
      obtain rfl := Option.some.inj (hrow.symm.trans hr')
      rfl

theorem reachable_fetched {cfg : Config} {s : State} (h : Reachable cfg s) : FetchedOk s :=
  Runs.Reachable.invariant ⟨IdsOk.init, fun _ hjob => by cases hjob⟩
    (fun _ _ _ hi hs => hi.step (step_moved hs)) h

/-- From any state without a submit or a purge under way, and while no purge runs
and no file is removed by hand: the input row that a later submit was answered
with has a path and a file, also while the worker processes the job, provided
that no step so far was raced. -/
theorem accepted_available {cfg : Config} {as : List Act} {s t : State} {i : Nat}
    {jobId : String} {id : Int} (hs : Reachable cfg s) (hidle : ∀ τ ∈ s.tasks, idle τ = true)
    (ht : run cfg as s = some t) (hcalm : Along cfg (fun _ a => calm a = true) as s)
    (hrace : Along cfg (Unraced s.tasks.length) as s) (hi : s.tasks.length ≤ i)
    (h202 : t.tasks[i]? = some (.submit (.answered (.accepted jobId id)))) :
    Available t.world id ∧
      ∀ job stage, t.worker = .process job stage → job.id = jobId → Available t.world job.inputId := by
  have hend : Cached s.tasks.length t :=
    Runs.Along.invariant (I := fun u => Cached s.tasks.length u)
      (fun u a v hu ha hstep => hu.step (step_moved hstep) ha.1 ha.2) (hcalm.and hrace) ht
      (Cached.start (reachable_ids hs) hidle)
  have hav : Available t.world id := hend.late i _ hi h202
  refine ⟨hav, fun job stage hw hjob => ?_⟩
  obtain ⟨r, hr, hid⟩ := hend.jobs i _ jobId id hi h202 rfl
  have hof := ((reachable_fetched (hs.run ht)).row job (by rw [hw]; rfl)).2 r (hjob ▸ hr)
  have hinput : job.inputId = id := by rw [← hof]; exact hid
  rw [hinput]
  exact hav

/-- An input whose file has gone. -/
def lostFile : List Act :=
  firstSubmit 0 jobA ++ [.env (.vanish ⟨.cacheInputs, abcSha ++ ".png"⟩)]

/-- The `i`-th request finds the file missing, clears the path and stores the file again. -/
def reupload (i : Nat) (id : String) : List Act :=
  [.task i .ok, .task i .ok, .task i .ok, .task i .ok, .task i (.dimensions (some (8, 8))),
    .task i .ok, .task i (.drew id), .task i (.seed 14), .task i .ok, .task i .ok]

/-- Two requests at one time. The first one finds the file missing and clears the path, the second
one finds it cleared; both store the file again. -/
def bothReupload : List Act :=
  [.arrive (.submit sampleUpload), .arrive (.submit sampleUpload), .task 1 .ok, .task 1 .ok,
    .task 1 .ok, .task 2 .ok, .task 1 .ok, .task 2 .ok, .task 1 (.dimensions (some (8, 8))),
    .task 2 (.dimensions (some (8, 8))), .task 1 .ok, .task 2 .ok, .task 1 (.drew jobB),
    .task 2 (.drew jobC), .task 1 (.seed 14), .task 2 (.seed 14), .task 2 .ok, .task 2 .ok,
    .task 1 .ok, .task 1 .ok]

theorem accepted_available_sample : ∃ s t, run sampleConfig lostFile State.init = some s ∧
    run sampleConfig bothReupload s = some t ∧
    t.tasks[2]? = some (.submit (.answered (.accepted jobC 1))) ∧ Available t.world 1 := by
  have hrun : ((run sampleConfig lostFile State.init).bind fun s =>
      if (∀ τ ∈ s.tasks, idle τ = true) ∧ s.tasks.length = 1 ∧
          Along sampleConfig (fun _ a => calm a = true) bothReupload s ∧
          Along sampleConfig (Unraced s.tasks.length) bothReupload s then
        (run sampleConfig bothReupload s).bind (answerAt · 2)
      else none) = some (.accepted jobC 1) := by
    simp only [lostFile, run_first]
    decide +kernel
  obtain ⟨s, hs, h⟩ := Option.bind_eq_some_iff.mp hrun
  obtain ⟨⟨hidle, hlen, hcalm, hrace⟩, h⟩ := Option.ite_none_right_eq_some.mp h
  obtain ⟨t, ht, h⟩ := Option.bind_eq_some_iff.mp h
  have h202 := answerAt_eq_some h
  exact ⟨s, t, hs, ht, h202,
    (accepted_available ⟨_, hs⟩ hidle ht hcalm hrace (by rw [hlen]; decide) h202).1⟩

/-- Two requests find the file missing; the second stores it again and is
answered before the first one clears the path. -/
def racedRun : List Act :=
  [.arrive (.submit sampleUpload), .arrive (.submit sampleUpload), .task 1 .ok, .task 1 .ok] ++
    reupload 2 jobB ++ [.task 1 .ok]

/-- The input row of the accepted job has no path any more. -/
theorem accepted_purged : ∃ s t, run sampleConfig lostFile State.init = some s ∧
    (∀ τ ∈ s.tasks, idle τ = true) ∧ run sampleConfig racedRun s = some t ∧
    Along sampleConfig (fun _ a => calm a = true) racedRun s ∧ s.tasks.length ≤ 2 ∧
    t.tasks[2]? = some (.submit (.answered (.accepted jobB 1))) ∧ ¬ Available t.world 1 := by
  have hrun : ((run sampleConfig lostFile State.init).bind fun s =>
      if (∀ τ ∈ s.tasks, idle τ = true) ∧ s.tasks.length ≤ 2 ∧
          Along sampleConfig (fun _ a => calm a = true) racedRun s then
        (run sampleConfig racedRun s).map fun t =>
          (answerAt t 2, (t.world.db.inputs.find? 1).map InputRow.path)
      else none) = some (some (.accepted jobB 1), some none) := by
    simp only [lostFile, run_first]
    decide +kernel
  obtain ⟨s, hs, h⟩ := Option.bind_eq_some_iff.mp hrun
  obtain ⟨⟨hidle, hlen, hcalm⟩, h⟩ := Option.ite_none_right_eq_some.mp h
  obtain ⟨t, ht, h⟩ := Option.map_eq_some_iff.mp h
  obtain ⟨h202, hpath⟩ := Prod.mk.inj h
  refine ⟨s, t, hs, hidle, ht, hcalm, hlen, answerAt_eq_some h202, ?_⟩
  rintro ⟨r, p, hr, hp, -⟩
  rw [hr, Option.map_some, hp] at hpath
  cases hpath

end ZunServer.InputCache
