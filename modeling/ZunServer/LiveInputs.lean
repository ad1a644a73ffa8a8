import ZunServer.ContentAddressed
import ZunServer.Retention

/-!
# Inputs of jobs still to be run

Purge asks once which inputs no live job refers to, and then removes the files
and clears the paths one by one. An input on that list is condemned: whoever
starts to rely on it afterwards, a submit that finds its file or stores it
again, or a job that is restored, loses it.
-/
namespace ZunServer.LiveInputs

open KeyedTable
open Schema Statements Database Comfy Calls Renditions Worker Handlers CustomPrompts Purge Server
open Rows Lifecycle SubmitSteps FileWrites JobFiles InputCache FirstUpload Retention ContentAddressed

/-- A job that is queued or running and not deleted refers to the input. -/
def Wanted (w : World) (id : Int) : Prop :=
  ∃ r ∈ w.db.jobs.rows, r.deletedAt = none ∧ r.status.live = true ∧ r.inputId = id

instance (w : World) (id : Int) : Decidable (Wanted w id) :=
  inferInstanceAs (Decidable (∃ r ∈ w.db.jobs.rows, _))

/-- The inputs a purge has still to deal with, each with the file to remove. -/
def condemnedBy : ServerTask → List (Int × Option DataPath)
  | .purge pc => match pc with
    | .removeInput _ id p todo => (id, some p) :: todo.map fun x => (x.1, some x.2)
    | .clearPath _ id todo => (id, none) :: todo.map fun x => (x.1, some x.2)
    | _ => []
  | _ => []

def condemned (s : State) : List (Int × Option DataPath) := s.tasks.flatMap condemnedBy

/-- The file that a submit has written and not yet recorded. -/
def storing : ServerTask → Option DataPath
  | .submit (.dimensions _ _ _ _ _ path) => some path
  | .submit (.updateInput _ _ _ _ fields) | .submit (.insertInput _ _ _ fields) => some fields.path
  | _ => none

/-- The path of the row leads to a file. -/
def present (w : World) (id : Int) : Bool :=
  ((w.db.inputs.find? id).bind InputRow.path).any fun p => (w.files p).isSome

theorem present_iff {w : World} {id : Int} : present w id = true ↔ Available w id := by
  unfold present Available
  constructor
  · intro h
    obtain ⟨p, hp, hfile⟩ := (Option.any_eq_true _ _).mp h
    obtain ⟨r, hr, hpath⟩ := Option.bind_eq_some_iff.mp hp
    exact ⟨r, p, hr, hpath, hfile⟩
  · rintro ⟨r, p, hr, hpath, hfile⟩
    rw [hr, Option.bind_some, hpath]
    exact hfile

/-- The input is there, and no purge has it on its list. -/
def Spared (s : State) (id : Int) : Prop :=
  present s.world id = true ∧ ∀ x ∈ condemned s, x.1 ≠ id

instance (s : State) (id : Int) : Decidable (Spared s id) :=
  inferInstanceAs (Decidable (_ ∧ ∀ x ∈ condemned s, _))

/-- The inputs that a purge puts on its list. -/
def condemns (s : State) : Act → List (Int × DataPath)
  | .task i .ok => match s.tasks[i]? with
    | some (.purge (.selectStaleInputs o _)) =>
      if o.dryRun then [] else staleInputs o.inputCutoff s.world.db
    | _ => []
  | _ => []

/-- The input file that a submit writes. -/
def writing (s : State) : Act → Option DataPath
  | .task i .ok => match s.tasks[i]? with
    | some (.submit (.write _ _ _ _ _ path)) => some path
    | _ => none
  | _ => none

/-- The input row that a submit gives a path again. -/
def stores (s : State) : Act → Option Int
  | .task i .ok => match s.tasks[i]? with
    | some (.submit (.updateInput _ _ _ id _)) => some id
    | _ => none
  | _ => none

def vanishes : Act → Option DataPath
  | .env (.vanish p) => some p
  | _ => none

/-- A purge lists no input that a submit relies on already; nobody starts to rely
on an input that is listed or not there; no submit clears what others rely on;
no input file is removed by hand. -/
structure Undisturbed (s : State) (a : Act) : Prop where
  condemns : ∀ x ∈ condemns s a, ∀ τ ∈ s.tasks, committedTo τ ≠ some x.1 ∧ storing τ ≠ some x.2
  finds : ∀ id ∈ finds s a, Spared s id
  writes : ∀ p ∈ writing s a, ∀ x ∈ condemned s, x.2 ≠ some p
  stores : ∀ id ∈ stores s a, ∀ x ∈ condemned s, x.1 ≠ id
  clears : ∀ id ∈ clears s a, ¬ Wanted s.world id ∧ ∀ τ ∈ s.tasks, committedTo τ ≠ some id
  restores : ∀ r ∈ restores s a, r.status.live = true → Spared s r.inputId
  vanishes : ∀ p ∈ vanishes a, p.sub ≠ .cacheInputs

instance (s : State) (a : Act) : Decidable (Undisturbed s a) :=
  decidable_of_iff
    ((∀ x ∈ LiveInputs.condemns s a, ∀ τ ∈ s.tasks,
        committedTo τ ≠ some x.1 ∧ storing τ ≠ some x.2) ∧
      (∀ id ∈ InputCache.finds s a, Spared s id) ∧
      (∀ p ∈ writing s a, ∀ x ∈ condemned s, x.2 ≠ some p) ∧
      (∀ id ∈ LiveInputs.stores s a, ∀ x ∈ condemned s, x.1 ≠ id) ∧
      (∀ id ∈ InputCache.clears s a, ¬ Wanted s.world id ∧
        ∀ τ ∈ s.tasks, committedTo τ ≠ some id) ∧
      (∀ r ∈ Retention.restores s a, r.status.live = true → Spared s r.inputId) ∧
      ∀ p ∈ LiveInputs.vanishes a, p.sub ≠ .cacheInputs)
    ⟨fun ⟨h₁, h₂, h₃, h₄, h₅, h₆, h₇⟩ => ⟨h₁, h₂, h₃, h₄, h₅, h₆, h₇⟩,
      fun h => ⟨h.1, h.2, h.3, h.4, h.5, h.6, h.7⟩⟩

theorem mem_condemned {s : State} {x : Int × Option DataPath} :
    x ∈ condemned s ↔ ∃ (i : Nat) (pc : PurgePc), s.tasks[i]? = some (.purge pc) ∧
      x ∈ condemnedBy (.purge pc) := by
  constructor
  · intro h
    obtain ⟨τ, hτ, hx⟩ := List.mem_flatMap.mp h
    obtain ⟨i, hi⟩ := List.getElem?_of_mem hτ
    cases τ with
    | purge pc => exact ⟨i, pc, hi, hx⟩
    | _ => cases hx
  · rintro ⟨i, pc, hi, hx⟩
    exact List.mem_flatMap.mpr ⟨_, List.mem_of_getElem? hi, hx⟩

theorem condemnedBy_nextFile (o : PurgeOpts) (r : PurgeReport) (j : StaleJob) (todo : List StaleJob)
    (l : List DataPath) : condemnedBy (.purge (.nextFile o r j todo l)) = [] := by
  cases l <;> rfl

theorem condemnedBy_nextJob (o : PurgeOpts) (r : PurgeReport) (todo : List StaleJob) :
    condemnedBy (.purge (.nextJob o r todo)) = [] := by
  rcases nextJob_cases o r todo with ⟨r', he⟩ | ⟨r', j, todo', he, -⟩
  · rw [he]
    rfl
  · rw [he, condemnedBy_nextFile]

theorem condemnedBy_nextInput (r : PurgeReport) (todo : List (Int × DataPath)) :
    condemnedBy (.purge (.nextInput r todo)) = todo.map fun x => (x.1, some x.2) := by
  cases todo <;> rfl

/-- What is on a list was so before, or has just been selected. -/
theorem condemned_origin {cfg : Config} {s t : State} {a : Act} (hm : Moved cfg s t a)
    {x : Int × Option DataPath} (hx : x ∈ condemned t) :
    (∃ y ∈ condemned s, y.1 = x.1 ∧ ∀ p, x.2 = some p → y.2 = some p) ∨
      (t.world = s.world ∧ ∃ z ∈ condemns s a, x = (z.1, some z.2)) := by
  obtain ⟨i, pc, hi, hx⟩ := mem_condemned.mp hx
  rcases hm.purge_origin hi with ⟨hi₀, -⟩ | ⟨o, -, -, rfl⟩ | ⟨f, pc₀, rfl, hi₀, hp⟩
  · exact .inl ⟨x, mem_condemned.mpr ⟨i, pc, hi₀, hx⟩, rfl, fun p hp => hp⟩
  · cases hx
  · have old : ∀ y, y ∈ condemnedBy (.purge pc₀) → y.1 = x.1 → (∀ p, x.2 = some p → y.2 = some p) →
        ∃ y ∈ condemned s, y.1 = x.1 ∧ ∀ p, x.2 = some p → y.2 = some p := fun y hy hid hpath =>
      ⟨y, mem_condemned.mpr ⟨i, pc₀, hi₀, hy⟩, hid, hpath⟩
    cases purge_step hp with
    | fails hw | counted hw => cases hx
    | selected hw =>
      rw [condemnedBy_nextJob] at hx
      cases hx
    | removed =>
      rw [condemnedBy_nextFile] at hx
      cases hx
    | deleted =>
      rw [condemnedBy_nextJob] at hx
      cases hx
    | selectedInputs hf hdry hw =>
      rename_i o r
      rw [condemnedBy_nextInput] at hx
      obtain ⟨z, hz, rfl⟩ := List.mem_map.mp hx
      refine .inr ⟨hw, z, ?_, rfl⟩
      subst hf
      simp only [condemns, hi₀, hdry]
      exact hz
    | removedInput =>
      rcases List.mem_cons.mp hx with rfl | hx
      · exact .inl (old _ List.mem_cons_self rfl fun p hp => by cases hp)
      · exact .inl (old x (List.mem_cons_of_mem _ hx) rfl fun p hp => hp)
    | cleared =>
      rw [condemnedBy_nextInput] at hx
      exact .inl (old x (List.mem_cons_of_mem _ hx) rfl fun p hp => hp)

theorem condemns_task {s : State} {a : Act} {z : Int × DataPath} (h : z ∈ condemns s a) :
    ∃ (i : Nat) (o : PurgeOpts) (r : PurgeReport), a = .task i .ok ∧
      s.tasks[i]? = some (.purge (.selectStaleInputs o r)) ∧
      z ∈ staleInputs o.inputCutoff s.world.db := by
  unfold condemns at h
  split at h
  · split at h
    · rename_i hi
      split at h
      · cases h
      · exact ⟨_, _, _, rfl, hi, h⟩
    · cases h
  · cases h

theorem finds_task {s : State} {a : Act} {id : Int} (h : finds s a = some id) :
    ∃ (i : Nat) (pc : SubmitPc), a = .task i .ok ∧ s.tasks[i]? = some (.submit pc) := by
  unfold finds at h
  split at h
  · split at h
    · rename_i hi
      exact ⟨_, _, rfl, hi⟩
    · cases h
  · cases h

theorem stores_task {s : State} {a : Act} {id : Int} (h : stores s a = some id) :
    ∃ (i : Nat) (pc : SubmitPc), a = .task i .ok ∧ s.tasks[i]? = some (.submit pc) := by
  unfold stores at h
  split at h
  · split at h
    · rename_i hi
      exact ⟨_, _, rfl, hi⟩
    · cases h
  · cases h

theorem clears_task {s : State} {a : Act} {id : Int} (h : clears s a = some id) :
    ∃ (i : Nat) (pc : SubmitPc), a = .task i .ok ∧ s.tasks[i]? = some (.submit pc) ∧
      committedTo (.submit pc) = none := by
  unfold clears at h
  split at h
  · split at h
    · rename_i hi
      exact ⟨_, _, rfl, hi, rfl⟩
    · cases h
  · cases h

theorem writing_task {s : State} {a : Act} {p : DataPath} (h : writing s a = some p) :
    ∃ (i : Nat) (pc : SubmitPc), a = .task i .ok ∧ s.tasks[i]? = some (.submit pc) := by
  unfold writing at h
  split at h
  · split at h
    · rename_i hi
      exact ⟨_, _, rfl, hi⟩
    · cases h
  · cases h

theorem restores_task {s : State} {a : Act} {r : JobRow} (h : restores s a = some r) :
    ∃ (i : Nat) (pc : HidePc), a = .task i .ok ∧ s.tasks[i]? = some (.hide pc) := by
  unfold restores at h
  split at h
  · split at h
    · rename_i hi
      exact ⟨_, _, rfl, hi⟩
    · cases h
  · cases h

theorem committedTo_start (cfg : Config) (now : Int) (f : SubmitFields) :
    committedTo (.submit (.start cfg now f)) = none ∧ storing (.submit (.start cfg now f)) = none := by
  rcases SubmitPc.start_cases cfg now f with ⟨e, h⟩ | ⟨-, ⟨pid, h⟩ | ⟨p, h⟩⟩ <;>
    (rw [h]; exact ⟨rfl, rfl⟩)

theorem committedTo_needUpload (f : SubmitFields) (p : Resolved) (now : Int) (row : Option Int) :
    committedTo (.submit (.needUpload f p now row)) = none ∧
      storing (.submit (.needUpload f p now row)) = none := by
  rcases SubmitPc.needUpload_cases f p now row with ⟨e, h⟩ | ⟨u, path, -, h⟩ <;>
    (rw [h]; exact ⟨rfl, rfl⟩)

theorem committedTo_submit {τ : ServerTask} {id : Int} (h : committedTo τ = some id) :
    ∃ pc, τ = .submit pc := by
  cases τ with
  | submit pc => exact ⟨pc, rfl⟩
  | _ => cases h

theorem storing_submit {τ : ServerTask} {p : DataPath} (h : storing τ = some p) :
    ∃ pc, τ = .submit pc := by
  cases τ with
  | submit pc => exact ⟨pc, rfl⟩
  | _ => cases h

/-- A file being stored was so before, or has just been written. -/
theorem storing_origin {cfg : Config} {s t : State} {a : Act} (hm : Moved cfg s t a)
    {τ : ServerTask} (hτ : τ ∈ t.tasks) {p : DataPath} (hp : storing τ = some p) :
    (∃ τ₀ ∈ s.tasks, storing τ₀ = some p) ∨
      (writing s a = some p ∧ (t.world.files p).isSome = true) := by
  obtain ⟨i, hi⟩ := List.getElem?_of_mem hτ
  obtain ⟨pc, rfl⟩ := storing_submit hp
  rcases submit_origin hm hi with ⟨hi₀, -⟩ | ⟨fl, -, -, rfl⟩ | ⟨f, pc₀, rfl, hi₀, hs⟩
  · exact .inl ⟨_, List.mem_of_getElem? hi₀, hp⟩
  · rw [(committedTo_start cfg _ fl).2] at hp
    cases hp
  · cases hs with
    | absent hf hw hnone | noPath hw hr hsha hpath | cleared hf hin hfs =>
      rw [(committedTo_needUpload _ _ _ _).2] at hp
      cases hp
    | wrote hf hdb hfs =>
      obtain rfl := Option.some.inj hp
      subst hf
      refine .inr ⟨by simp only [writing, hi₀], ?_⟩
      rw [hfs, Files.put_same]
      rfl
    | decodedOld hdb hfs hfields | decodedNew hdb hfs hfields =>
      exact .inl ⟨_, List.mem_of_getElem? hi₀, (congrArg some hfields).symm.trans hp⟩
    | _ => cases hp

/-- A listed input is that of its row; nobody wants it and no submit uses it. -/
structure Doomed (s : State) (x : Int × Option DataPath) : Prop where
  row : ∃ sha, RowIs sha s.world x.1 ∧ ∀ p, x.2 = some p → Names sha p
  unwanted : ¬ Wanted s.world x.1
  unused : ∀ τ ∈ s.tasks, committedTo τ ≠ some x.1 ∧ ∀ p, x.2 = some p → storing τ ≠ some p

structure Provided (cfg : Config) (s : State) : Prop where
  reach : Reachable cfg s
  live : ∀ id, Wanted s.world id → Available s.world id
  committed : ∀ τ ∈ s.tasks, ∀ id, committedTo τ = some id → Available s.world id
  storing : ∀ τ ∈ s.tasks, ∀ p, storing τ = some p → (s.world.files p).isSome = true
  condemned : ∀ x ∈ condemned s, Doomed s x

/-- A file that no purge is about to remove stays. -/
theorem file_stays {cfg : Config} {s t : State} {a : Act} (h : Provided cfg s)
    (hm : Moved cfg s t a) (hu : Undisturbed s a) {p : DataPath} (hsub : p.sub = .cacheInputs)
    (hfree : ∀ x ∈ condemned s, x.2 ≠ some p) (hp : (s.world.files p).isSome = true) :
    (t.world.files p).isSome = true := by
  cases file_step hm with
  | same he => rw [he]; exact hp
  | wrote hw he => exact he ▸ Files.put_isSome hp _ _
  | purged hi hr he =>
    rename_i i pc q
    by_cases hq : p = q
    · subst hq
      exfalso
      have hplaced : PlacedPurge pc := (reachable_filed h.reach).tasks _ _ hi
      cases pc with
      | removeFile o r j p' rest todo =>
        obtain rfl := Option.some.inj hr
        exact hplaced.2.1.not_input (hplaced.1 _ List.mem_cons_self) hsub
      | removeInput r id p' todo =>
        obtain rfl := Option.some.inj hr
        exact hfree (id, some p') (mem_condemned.mpr ⟨_, _, hi, List.mem_cons_self⟩) rfl
      | _ => cases hr
    · rw [he, Files.put_other _ _ _ _ hq]
      exact hp
  | vanished he =>
    rename_i q
    have hne : p ≠ q := by
      rintro rfl
      exact hu.vanishes p rfl hsub
    rw [he, Files.put_other _ _ _ _ hne]
    exact hp

theorem same_row {s : State} (h : (shas s).Nodup) {r r' : InputRow} (hr : r ∈ s.world.db.inputs.rows)
    (hr' : r' ∈ s.world.db.inputs.rows) (hsha : r.sha256 = r'.sha256) : r = r' :=
  List.inj_on_of_nodup_map h hr hr' hsha

theorem storing_input {cfg : Config} {s : State} (h : Reachable cfg s) {τ : ServerTask}
    (hτ : τ ∈ s.tasks) {p : DataPath} (hp : storing τ = some p) : p.sub = .cacheInputs := by
  obtain ⟨i, hi⟩ := List.getElem?_of_mem hτ
  have hplaced := (reachable_filed h).tasks i τ hi
  obtain ⟨pc, rfl⟩ := storing_submit hp
  cases pc <;> cases hp <;> exact hplaced

theorem storing_stays {cfg : Config} {s t : State} {a : Act} (h : Provided cfg s)
    (hm : Moved cfg s t a) (hu : Undisturbed s a) {τ : ServerTask} (hτ : τ ∈ s.tasks)
    {p : DataPath} (hp : storing τ = some p) : (t.world.files p).isSome = true :=
  file_stays h hm hu (storing_input h.reach hτ hp)
    (fun x hx hxp => ((h.condemned x hx).unused τ hτ).2 p hxp hp) (h.storing τ hτ p hp)

/-- An input that is not listed and not being cleared stays there. -/
theorem available_stays {cfg : Config} {s t : State} {a : Act} (h : Provided cfg s)
    (hm : Moved cfg s t a) (hu : Undisturbed s a) {id : Int} (hav : Available s.world id)
    (hfree : ∀ x ∈ condemned s, x.1 ≠ id) (hclear : clears s a ≠ some id) :
    Available t.world id := by
  obtain ⟨r, p, hr, hp, hfile⟩ := hav
  have haddr := reachable_addressed h.reach
  have hmem : r ∈ s.world.db.inputs.rows := (Table.find?_eq_some.mp hr).1
  have hid : r.id = id := Table.find?_key hr
  have hnames : Names r.sha256 p := haddr.rows r hmem p hp
  have hpfree : ∀ x ∈ condemned s, x.2 ≠ some p := by
    intro x hx hxp
    obtain ⟨sha, ⟨r', hr', hsha⟩, hn⟩ := (h.condemned x hx).row
    have hsame : r'.sha256 = r.sha256 := hsha.trans ((hn p hxp).inj hnames)
    have heq := same_row (reachable_unique h.reach) (Table.find?_eq_some.mp hr').1 hmem hsame
    refine hfree x hx ?_
    rw [← Table.find?_key hr', heq, hid]
  have hfile' : (t.world.files p).isSome = true := file_stays h hm hu hnames.input hpfree hfile
  have kept : ∀ u : Update InputRow.id, t.world.db.inputs = s.world.db.inputs.update u →
      (u.row r).path = some p → Available t.world id := fun u he hrow =>
    ⟨u.row r, p, by rw [he, Table.find?_update, hr]; rfl, hrow, hfile'⟩
  cases hin : hm.inputs with
  | same he => exact ⟨r, p, by rw [he, hr], hp, hfile'⟩
  | touched hi he =>
    refine kept _ he ?_
    unfold Update.row
    split <;> exact hp
  | cleared hi he =>
    rename_i i f q now id'
    have hne : r.id ≠ id' := by
      intro he'
      apply hclear
      simp only [clears, hi, ← he', hid]
    exact kept _ he (by rw [Update.row_of_not _ (decide_eq_false hne)]; exact hp)
  | purged hi he =>
    rename_i i q id' todo
    have hne : r.id ≠ id' := fun he' =>
      hfree (id', none) (mem_condemned.mpr ⟨_, _, hi, List.mem_cons_self⟩) (he'.symm.trans hid)
    exact kept _ he (by rw [Update.row_of_not _ (decide_eq_false hne)]; exact hp)
  | stored hi he =>
    rename_i i f q now id' fields
    by_cases heq : r.id = id'
    · refine ⟨_, fields.path, by rw [he, Table.find?_update, hr]; rfl, ?_,
        storing_stays h hm hu (List.mem_of_getElem? hi) rfl⟩
      rw [Update.row_of_cond _ (decide_eq_true heq)]
      rfl
    · exact kept _ he (by rw [Update.row_of_not _ (decide_eq_false heq)]; exact hp)
  | inserted hi hnew he => exact ⟨r, p, find?_insertInput he hr, hp, hfile'⟩

/-- Every way a submit comes to rely on an input. -/
theorem committed_origin {cfg : Config} {s t : State} {a : Act} (h : Provided cfg s)
    (hm : Moved cfg s t a) (hu : Undisturbed s a) {τ : ServerTask} (hτ : τ ∈ t.tasks) {id : Int}
    (hid : committedTo τ = some id) :
    (∃ τ₀ ∈ s.tasks, committedTo τ₀ = some id) ∨ (Available t.world id ∧
      (finds s a = some id ∨ stores s a = some id ∨ s.world.db.inputs.find? id = none)) := by
  obtain ⟨i, hi⟩ := List.getElem?_of_mem hτ
  obtain ⟨pc, rfl⟩ := committedTo_submit hid
  rcases submit_origin hm hi with ⟨hi₀, -⟩ | ⟨fl, -, -, rfl⟩ | ⟨f, pc₀, rfl, hi₀, hs⟩
  · exact .inl ⟨_, List.mem_of_getElem? hi₀, hid⟩
  · rw [(committedTo_start cfg _ fl).1] at hid
    cases hid
  · have htask := List.mem_of_getElem? hi₀
    cases hs with
    | hit hf hw hfile =>
      rename_i fl p now id' path
      obtain rfl := Option.some.inj hid
      have hfinds : finds s (.task i f) = some id' := by
        subst hf
        simp only [finds, hi₀, hfile, ↓reduceIte]
      refine .inr ⟨?_, .inl hfinds⟩
      rw [hw]
      exact present_iff.mp (hu.finds id' hfinds).1
    | touched hin hfs | drew hnew hw | seeded hw | queued hin hfs hjob | woke hdb hfs =>
      exact .inl ⟨_, htask, hid⟩
    | stored hf hin hfs =>
      rename_i fl p now id' fields
      obtain rfl := Option.some.inj hid
      have hstores : stores s (.task i f) = some id' := by
        subst hf
        simp only [stores, hi₀]
      obtain ⟨g, hg⟩ := (reachable_addressed h.reach).submits i _ hi₀
      obtain ⟨r, hr, -⟩ := hg.row id' rfl
      refine .inr ⟨⟨_, fields.path, by rw [hin, Table.find?_update, hr]; rfl, ?_,
        storing_stays h hm hu htask rfl⟩, .inr (.inl hstores)⟩
      rw [Update.row_of_cond _ (decide_eq_true (Table.find?_key hr))]
      rfl
    | inserted hnew hin hfs =>
      rename_i fl p now fields
      obtain rfl := Option.some.inj hid
      exact .inr ⟨⟨_, fields.path, (Table.find?_insert hin _).trans (if_pos rfl), rfl,
        storing_stays h hm hu htask rfl⟩, .inr (.inr (find?_nextRowId _))⟩
    | absent hf hw hnone | noPath hw hr hsha hpath | cleared hf hin hfs =>
      rw [(committedTo_needUpload _ _ _ _).1] at hid
      cases hid
    | _ => cases hid

/-- Every way a live job comes to refer to an input. -/
theorem wanted_origin {cfg : Config} {s t : State} {a : Act} (hm : Moved cfg s t a) {id : Int}
    (hw : Wanted t.world id) :
    Wanted s.world id ∨ (∃ τ ∈ s.tasks, committedTo τ = some id) ∨
      ∃ r ∈ restores s a, r.status.live = true ∧ r.inputId = id := by
  obtain ⟨r, hr, hdel, hlive, hid⟩ := hw
  cases hm.jobs with
  | same he => exact .inl ⟨r, he ▸ hr, hdel, hlive, hid⟩
  | update hst he =>
    rename_i st
    rw [he] at hr
    obtain ⟨r₀, hr₀, rfl⟩ := Table.mem_update.mp hr
    have hlive₀ : r₀.status.live = true := by
      by_contra hdead
      rw [Bool.not_eq_true] at hdead
      rw [stmt_terminal st hdead, hdead] at hlive
      cases hlive
    have hid₀ : r₀.inputId = id := (stmt_sameRequest st r₀).inputId.symm.trans hid
    rcases undeleted hst (Table.find?_of_mem hr₀) hdel with hdel₀ | ⟨hres, -⟩
    · exact .inl ⟨r₀, hr₀, hdel₀, hlive₀, hid₀⟩
    · exact .inr (.inr ⟨r₀, hres, hlive₀, hid₀⟩)
  | insert ha hi hins =>
    rw [(Table.insert?_eq_some.mp hins).2] at hr
    rcases List.mem_append.mp hr with hr | hr
    · exact .inl ⟨r, hr, hdel, hlive, hid⟩
    · obtain rfl := List.mem_singleton.mp hr
      exact .inr (.inl ⟨_, List.mem_of_getElem? hi, congrArg some hid⟩)
  | delete ha hi he =>
    rw [he] at hr
    exact .inl ⟨r, (Table.mem_delete.mp hr).1, hdel, hlive, hid⟩

/-- What is wanted or used before the step is there after it. -/
theorem wanted_stays {cfg : Config} {s t : State} {a : Act} (h : Provided cfg s)
    (hm : Moved cfg s t a) (hu : Undisturbed s a) {id : Int} (hw : Wanted s.world id) :
    Available t.world id := by
  refine available_stays h hm hu (h.live id hw) (fun x hx he => ?_) fun hc => ?_
  · exact (h.condemned x hx).unwanted (he ▸ hw)
  · exact (hu.clears id hc).1 hw

theorem committed_stays {cfg : Config} {s t : State} {a : Act} (h : Provided cfg s)
    (hm : Moved cfg s t a) (hu : Undisturbed s a) {τ : ServerTask} (hτ : τ ∈ s.tasks) {id : Int}
    (hid : committedTo τ = some id) : Available t.world id := by
  refine available_stays h hm hu (h.committed τ hτ id hid) (fun x hx he => ?_) fun hc => ?_
  · exact ((h.condemned x hx).unused τ hτ).1 (he ▸ hid)
  · exact (hu.clears id hc).2 τ hτ hid

theorem restored_stays {cfg : Config} {s t : State} {a : Act} (h : Provided cfg s)
    (hm : Moved cfg s t a) (hu : Undisturbed s a) {r : JobRow} (hr : r ∈ restores s a)
    (hlive : r.status.live = true) : Available t.world r.inputId := by
  obtain ⟨hav, hfree⟩ := hu.restores r hr hlive
  refine available_stays h hm hu (present_iff.mp hav) hfree fun hc => ?_
  obtain ⟨i, pc, ha, hi, -⟩ := clears_task hc
  obtain ⟨j, pc', ha', hj⟩ := restores_task hr
  rw [ha] at ha'
  cases ha'
  rw [hi] at hj
  cases hj

/-- An input that was on a list and still is. -/
theorem Doomed.step {cfg : Config} {s t : State} {a : Act} (h : Provided cfg s)
    (hm : Moved cfg s t a) (hu : Undisturbed s a) {x y : Int × Option DataPath}
    (hy : y ∈ condemned s) (hid : y.1 = x.1) (hpath : ∀ p, x.2 = some p → y.2 = some p) :
    Doomed t x := by
  have hd := h.condemned y hy
  obtain ⟨sha, hrow, hnames⟩ := hd.row
  refine ⟨⟨sha, hid ▸ hrow.step hm, fun p hp => hnames p (hpath p hp)⟩, fun hw => ?_,
    fun τ hτ => ⟨fun hc => ?_, fun p hp hst => ?_⟩⟩
  · rcases wanted_origin hm hw with hw | ⟨τ, hτ, hc⟩ | ⟨r, hr, hlive, he⟩
    · exact hd.unwanted (hid ▸ hw)
    · exact (hd.unused τ hτ).1 (hid ▸ hc)
    · exact (hu.restores r hr hlive).2 y hy (hid.trans he.symm)
  · rcases committed_origin h hm hu hτ hc with ⟨τ₀, hτ₀, hc₀⟩ | ⟨-, hf | hs | hnone⟩
    · exact (hd.unused τ₀ hτ₀).1 (hid ▸ hc₀)
    · exact (hu.finds x.1 hf).2 y hy hid
    · exact hu.stores x.1 hs y hy hid
    · obtain ⟨r, hr, -⟩ := hrow
      rw [hid, hnone] at hr
      cases hr
  · rcases storing_origin hm hτ hst with ⟨τ₀, hτ₀, hst₀⟩ | ⟨hwr, -⟩
    · exact (hd.unused τ₀ hτ₀).2 p (hpath p hp) hst₀
    · exact hu.writes p hwr y hy (hpath p hp)

/-- An input that a purge has just put on its list. -/
theorem doomed_listed {cfg : Config} {s t : State} {a : Act} (h : Provided cfg s)
    (hm : Moved cfg s t a) (hu : Undisturbed s a) (hworld : t.world = s.world)
    {z : Int × DataPath} (hz : z ∈ condemns s a) : Doomed t (z.1, some z.2) := by
  obtain ⟨i, o, rep, ha, hi, hstale⟩ := condemns_task hz
  obtain ⟨r, hr, hid, hpath, hfree⟩ := mem_staleInputs hstale
  have hrow : s.world.db.inputs.find? z.1 = some r := Table.find?_eq_some.mpr ⟨hr, hid⟩
  have other : ∀ (j : Nat) (pc : SubmitPc), a = .task j .ok → s.tasks[j]? = some (.submit pc) →
      False := by
    intro j pc ha' hj
    rw [ha] at ha'
    cases ha'
    rw [hi] at hj
    cases hj
  refine ⟨⟨r.sha256, ⟨r, by rw [hworld]; exact hrow, rfl⟩, fun p hp => ?_⟩, ?_,
    fun τ hτ => ⟨fun hc => ?_, fun p hp hst => ?_⟩⟩
  · obtain rfl := Option.some.inj hp
    exact (reachable_addressed h.reach).rows r hr _ hpath
  · rw [hworld]
    rintro ⟨j, hj, hdel, -, hin⟩
    exact hfree j hj hin hdel
  · rcases committed_origin h hm hu hτ hc with ⟨τ₀, hτ₀, hc₀⟩ | ⟨-, hf | hs | hnone⟩
    · exact (hu.condemns z hz τ₀ hτ₀).1 hc₀
    · obtain ⟨j, pc, ha', hj⟩ := finds_task hf
      exact other j pc ha' hj
    · obtain ⟨j, pc, ha', hj⟩ := stores_task hs
      exact other j pc ha' hj
    · rw [hrow] at hnone
      cases hnone
  · obtain rfl := Option.some.inj hp
    rcases storing_origin hm hτ hst with ⟨τ₀, hτ₀, hst₀⟩ | ⟨hwr, -⟩
    · exact (hu.condemns z hz τ₀ hτ₀).2 hst₀
    · obtain ⟨j, pc, ha', hj⟩ := writing_task hwr
      exact other j pc ha' hj

theorem Provided.step {cfg : Config} {s t : State} {a : Act} (h : Provided cfg s)
    (hs : step cfg s a = some t) (hu : Undisturbed s a) : Provided cfg t where
  reach := h.reach.step hs
  live id hw := by
    have hm := step_moved hs
    rcases wanted_origin hm hw with hw | ⟨τ, hτ, hc⟩ | ⟨r, hr, hlive, rfl⟩
    · exact wanted_stays h hm hu hw
    · exact committed_stays h hm hu hτ hc
    · exact restored_stays h hm hu hr hlive
  committed τ hτ id hc := by
    have hm := step_moved hs
    rcases committed_origin h hm hu hτ hc with ⟨τ₀, hτ₀, hc₀⟩ | ⟨hav, -⟩
    · exact committed_stays h hm hu hτ₀ hc₀
    · exact hav
  storing τ hτ p hp := by
    have hm := step_moved hs
    rcases storing_origin hm hτ hp with ⟨τ₀, hτ₀, hp₀⟩ | ⟨-, hfile⟩
    · exact storing_stays h hm hu hτ₀ hp₀
    · exact hfile
  condemned x hx := by
    have hm := step_moved hs
    rcases condemned_origin hm hx with ⟨y, hy, hid, hpath⟩ | ⟨hworld, z, hz, rfl⟩
    · exact Doomed.step h hm hu hy hid hpath
    · exact doomed_listed h hm hu hworld hz

theorem Provided.init (cfg : Config) : Provided cfg State.init where
  reach := Runs.Reachable.start _ _
  live id hw := by
    obtain ⟨r, hr, -⟩ := hw
    simp [State.init, World.empty, Db.empty, Table.empty] at hr
  committed τ hτ := by simp [State.init] at hτ
  storing τ hτ := by simp [State.init] at hτ
  condemned x hx := by simp [LiveInputs.condemned, State.init] at hx

/-- In every run whose steps are all undisturbed: a job that is queued or running
and not deleted has an input row with a path, and the file is there. -/
theorem live_inputs {cfg : Config} {as : List Act} {s : State}
    (hrun : run cfg as State.init = some s) (hu : Along cfg Undisturbed as State.init) :
    ∀ r ∈ s.world.db.jobs.rows, r.deletedAt = none → r.status.live = true →
      Available s.world r.inputId := by
  have h : Provided cfg s :=
    Runs.Along.invariant (I := fun u => Provided cfg u)
      (fun u a v hprov hund hstep => hprov.step hstep hund) hu hrun (Provided.init cfg)
  exact fun r hr hdel hlive => h.live r.inputId ⟨r, hr, hdel, hlive, rfl⟩

/-- Thirty days of retention, forty days later. -/
def retentionPurge : PurgeOpts := ⟨3456000, 2592000, 2592000, false⟩

/-- A purge runs while the job is queued. -/
def purgeBesideJob : List Act :=
  firstSubmit 0 jobA ++ [.env (.clock 3456000), .arrive (.purge retentionPurge), .task 1 .ok,
    .task 1 .ok]

theorem live_inputs_sample : ∃ s r, run sampleConfig purgeBesideJob State.init = some s ∧
    row? s jobA = some r ∧ Available s.world r.inputId := by
  have hrun : (run sampleConfig purgeBesideJob State.init).bind (fun s =>
      if Along sampleConfig Undisturbed purgeBesideJob State.init then
        (row? s jobA).map fun r => (r.deletedAt, r.status)
      else none) = some (none, .queued) := by
    simp only [purgeBesideJob, run_first, along_first]
    decide +kernel
  obtain ⟨s, hs, h⟩ := Option.bind_eq_some_iff.mp hrun
  obtain ⟨hu, h⟩ := Option.ite_none_right_eq_some.mp h
  obtain ⟨r, hr, h⟩ := Option.map_eq_some_iff.mp h
  obtain ⟨hdel, hstatus⟩ := Prod.mk.inj h
  have hmem : r ∈ s.world.db.jobs.rows := (Table.find?_eq_some.mp hr).1
  have hlive : r.status.live = true := by rw [hstatus]; rfl
  exact ⟨s, r, hs, hr, live_inputs hs hu r hmem hdel hlive⟩

/-- The only job of the input is deleted; a purge finds the input unreferenced,
and before it gets to the file the same image is submitted again. -/
def purgedUnderSubmit : List Act :=
  firstSubmit 0 jobA ++ [.arrive (.hide .delete jobA), .task 1 .ok, .task 1 .ok,
    .env (.clock 3456000), .arrive (.purge retentionPurge), .task 2 .ok, .task 2 .ok,
    .task 2 .ok] ++ nextSubmit 3 jobB ++ [.task 2 .ok, .task 2 .ok]

/-- The submit is answered with the job, and the job has no input. -/
theorem live_input_purged : ∃ s r, run sampleConfig purgedUnderSubmit State.init = some s ∧
    s.tasks[3]? = some (.submit (.answered (.accepted jobB 1))) ∧
    r ∈ s.world.db.jobs.rows ∧ r.deletedAt = none ∧ r.status.live = true ∧
    ¬ Available s.world r.inputId := by
  have hrun : (run sampleConfig purgedUnderSubmit State.init).bind (fun s =>
      (row? s jobB).map fun r =>
        (answerAt s 3, r.deletedAt, r.status, present s.world r.inputId)) =
      some (some (.accepted jobB 1), none, .queued, false) := by
    simp only [purgedUnderSubmit, List.append_assoc, run_first]
    decide +kernel
  obtain ⟨s, hs, h⟩ := Option.bind_eq_some_iff.mp hrun
  obtain ⟨r, hr, h⟩ := Option.map_eq_some_iff.mp h
  simp only [Prod.mk.injEq] at h
  obtain ⟨h202, hdel, hstatus, habsent⟩ := h
  refine ⟨s, r, hs, answerAt_eq_some h202, (Table.find?_eq_some.mp hr).1, hdel, by rw [hstatus]; rfl,
    fun hav => ?_⟩
  rw [present_iff.mpr hav] at habsent
  cases habsent

end ZunServer.LiveInputs
