import ZunServer.JobFiles

/-!
# Retention against restores

A purge reads the stale jobs once, removes the files of each and then its row,
and never looks at `deleted_at` again. A restore that takes effect in between
brings a row back that the purge still removes, and one that takes effect after
a purge stopped half way brings back a row without its files. Apart from these,
a job that is not deleted keeps its row and its files.
-/
namespace ZunServer.Retention

open KeyedTable
open Schema Statements Database Comfy Calls Renditions Worker Handlers Purge Server Rows Lifecycle
open WorkerSteps RenditionSteps RowInvariant JobFiles

/-- The stale jobs that a purge has read and not removed yet. -/
def entries : PurgePc → List StaleJob
  | .removeFile _ _ j _ _ todo | .deleteRow _ _ j todo => j :: todo
  | _ => []

/-- The jobs that some purge has read and not removed yet. -/
def purging (s : State) : List String :=
  s.tasks.flatMap fun
    | .purge pc => (entries pc).map StaleJob.id
    | _ => []

/-- The row that a restore takes back. -/
def restores (s : State) : Act → Option JobRow
  | .task i .ok => match s.tasks[i]? with
    | some (.hide (.update .restore id _)) => (row? s id).filter (fun r => r.deletedAt.isSome)
    | _ => none
  | _ => none

/-- A restore takes back no job that a purge has read and not removed yet, and
none that lacks a file its row records. -/
def RestoresWhole (s : State) (a : Act) : Prop :=
  ∀ r ∈ restores s a, r.id ∉ purging s ∧ ∀ p ∈ recorded (.of r), (s.world.files p).isSome = true

instance (s : State) (a : Act) : Decidable (RestoresWhole s a) :=
  inferInstanceAs (Decidable (∀ r ∈ restores s a, _ ∧ ∀ p ∈ recorded (.of r), _))

/-- The job that a delete request takes away. -/
def deletes (s : State) : Act → Option String
  | .task i .ok => match s.tasks[i]? with
    | some (.hide (.update .delete id _)) => some id
    | _ => none
  | _ => none

/-- No file is removed by hand. -/
def handsOff : Act → Bool
  | .env (.vanish _) => false
  | _ => true

def Live (s : State) (id : String) : Prop := ∃ r, row? s id = some r ∧ r.deletedAt = none

/-- The file is there or is already recorded; a purge may have removed it then. -/
def Safe (s : State) (id : String) (p : DataPath) : Prop :=
  (s.world.files p).isSome = true ∨ OnRow s id fun r => p ∈ recorded (.of r)

/-- The rendition that a task has made and not recorded yet. -/
def persisting : ServerTask → Option (String × DataPath)
  | .derived (.persistJpegFirst c _ dst) | .derived (.persistJpeg c dst) => some (c.jobId, dst)
  | .generate (.persist id _ dst _ _) => some (id, dst)
  | _ => none

/-- The row a purge has read, if it is still there: deleted, with every file recorded. -/
def Snapshot (s : State) (j : StaleJob) : Prop :=
  OnRow s j.id fun r => r.deletedAt ≠ none ∧ ∀ p ∈ recorded j, p ∈ recorded (.of r)

structure Kept (s : State) : Prop where
  inv : Inv s
  filed : Filed s
  snapshot : ∀ (i : Nat) pc j, s.tasks[i]? = some (.purge pc) → j ∈ entries pc →
    Settled s j.id ∧ Snapshot s j
  output : ∀ x, written s.worker = some x → Safe s x.1 x.2
  rendition : ∀ (i : Nat) τ x, s.tasks[i]? = some τ → persisting τ = some x → Safe s x.1 x.2
  live : ∀ r ∈ s.world.db.jobs.rows, r.deletedAt = none → ∀ p ∈ recorded (.of r),
    (s.world.files p).isSome = true

theorem mem_purging {s : State} {i : Nat} {pc : PurgePc} {j : StaleJob}
    (hi : s.tasks[i]? = some (.purge pc)) (hj : j ∈ entries pc) : j.id ∈ purging s :=
  List.mem_flatMap.mpr ⟨_, List.mem_of_getElem? hi, List.mem_map_of_mem hj⟩

theorem settled_uuid {s : State} (h : Kept s) {id : String} (hs : Settled s id) : isUuid id :=
  h.inv.ids.uuid id hs.1

/-- What a purge is about to remove, if some row may record it, it has read as
recorded in that row. -/
theorem removing_entry {s : State} (h : Kept s) {i : Nat} {pc : PurgePc} {p : DataPath}
    (hi : s.tasks[i]? = some (.purge pc)) (hp : removing pc = some p) {id : String}
    (hid : isUuid id) (hrec : Recordable id p) : ∃ j ∈ entries pc, j.id = id ∧ p ∈ recorded j := by
  have hplaced : PlacedPurge pc := h.filed.tasks i _ hi
  cases pc with
  | removeFile o r j q rest todo =>
    obtain rfl := Option.some.inj hp
    have hj : isUuid j.id := settled_uuid h (h.snapshot i _ j hi List.mem_cons_self).1
    obtain ⟨heq, hmem⟩ := hplaced.2.1.removes hj hid (hplaced.1 q List.mem_cons_self) hrec
    exact ⟨j, List.mem_cons_self, heq, hmem⟩
  | removeInput r iid q todo =>
    obtain rfl := Option.some.inj hp
    exact absurd hplaced.1 hrec.owned.not_input
  | _ => cases hp

/-- The step that removes a file writes no row. -/
theorem removal_jobs {cfg : Config} {s t : State} {i : Nat} {f : Fate} {pc : PurgePc} {p : DataPath}
    (hm : Moved cfg s t (.task i f)) (hi : s.tasks[i]? = some (.purge pc))
    (hp : removing pc = some p) : t.world.db.jobs = s.world.db.jobs := by
  have other : ∀ {τ}, s.tasks[i]? = some τ → τ = .purge pc := fun hτ =>
    Option.some.inj (hτ.symm.trans hi)
  cases hm.jobs with
  | same he => exact he
  | update hst _ =>
    cases hst with
    | tryRunning hτ | tryQueued hτ | retryRunning hτ | hide hτ | persistJpegFirst hτ
    | persistJpeg hτ | generated hτ => cases other hτ
  | insert ha hτ _ =>
    cases ha
    cases other hτ
  | delete ha hτ _ =>
    cases ha
    cases other hτ
    cases hp

theorem file_step {cfg : Config} {s t : State} {a : Act} (h : Kept s) (hm : Moved cfg s t a)
    (hhand : handsOff a = true) {id : String} {p : DataPath} (hid : isUuid id)
    (hrec : Recordable id p) (hp : (s.world.files p).isSome = true) :
    (t.world.files p).isSome = true ∨
      (t.world.db.jobs = s.world.db.jobs ∧
        OnRow s id fun r => r.deletedAt ≠ none ∧ p ∈ recorded (.of r)) := by
  cases hm.files with
  | same he => exact .inl (he ▸ hp)
  | put he => exact .inl (he ▸ Files.put_isSome hp _ _)
  | purged hi hr he =>
    rename_i i f pc q
    rw [he]
    by_cases hq : p = q
    · subst hq
      obtain ⟨j, hj, rfl, hmem⟩ := removing_entry h hi hr hid hrec
      have hsnap := (h.snapshot i pc j hi hj).2
      exact .inr ⟨removal_jobs hm hi hr, hsnap.mono fun r hr => ⟨hr.1, hr.2 p hmem⟩⟩
    · rw [Files.put_other _ _ _ _ hq]
      exact .inl hp
  | vanished he => cases hhand

theorem recorded_onRow {cfg : Config} {s t : State} {a : Act} (h : Kept s) (hm : Moved cfg s t a)
    {id : String} (hset : Settled s id) {p : DataPath}
    (hp : OnRow s id fun r => p ∈ recorded (.of r)) : OnRow t id fun r => p ∈ recorded (.of r) := by
  refine hp.step hm hset fun st r hst hr hmem => ?_
  have hmem' := (row_mem hr).1
  exact stmt_keeps (h.inv.rows r hmem') (h.filed.rows r hmem') (h.filed.stmt hst) hmem

theorem Safe.step {cfg : Config} {s t : State} {a : Act} (h : Kept s) (hm : Moved cfg s t a)
    (hhand : handsOff a = true) {id : String} {p : DataPath} (hset : Settled s id)
    (hrec : Recordable id p) (hsafe : Safe s id p) : Safe t id p := by
  rcases hsafe with hfile | hrow
  · rcases file_step h hm hhand (settled_uuid h hset) hrec hfile with hfile | ⟨-, hrow⟩
    · exact .inl hfile
    · exact .inr (recorded_onRow h hm hset (hrow.mono fun r hr => hr.2))
  · exact .inr (recorded_onRow h hm hset hrow)

theorem restores_eq {s : State} {i : Nat} {r : JobRow} {now : Int}
    (hi : s.tasks[i]? = some (.hide (.update .restore r.id now))) (hr : row? s r.id = some r)
    (hd : r.deletedAt ≠ none) : restores s (.task i .ok) = some r := by
  simp only [restores, hi, hr, Option.filter_some, Option.isSome_iff_ne_none.mpr hd, ↓reduceIte]

/-- While a purge has the job in hand, its row stays deleted. -/
theorem deleted_stays {s : State} {a : Act} {st : JobStmt} {r : JobRow} (hst : Issues s a st)
    (hres : RestoresWhole s a) (hr : row? s r.id = some r) (hd : r.deletedAt ≠ none)
    (hpurge : r.id ∈ purging s) : (st.update.row r).deletedAt ≠ none := by
  refine row_cases (P := fun r' => r'.deletedAt ≠ none) _ r (fun hc => ?_) hd
  cases hst with
  | hide hi =>
    rename_i i k id now
    cases k with
    | delete => exact Option.some_ne_none _
    | restore =>
      simp only [HideKind.stmt, JobStmt.update, restoreJob, decide_eq_true_eq] at hc
      obtain ⟨rfl, -⟩ := hc
      exact absurd hpurge (hres r (restores_eq hi hr hd)).1
  | persistJpegFirst hi | persistJpeg hi | generated hi =>
    simp only [JobStmt.update, setDerivedPath]
    split <;> exact hd
  | _ => exact hd

theorem Snapshot.step {cfg : Config} {s t : State} {a : Act} (h : Kept s) (hm : Moved cfg s t a)
    (hres : RestoresWhole s a) {j : StaleJob} (hset : Settled s j.id) (hpurge : j.id ∈ purging s)
    (hsnap : Snapshot s j) : Snapshot t j := by
  refine OnRow.step hm hset hsnap fun st r hst hr hrow => ?_
  obtain ⟨hmem, hid⟩ := row_mem hr
  refine ⟨deleted_stays hst hres (hid ▸ hr) hrow.1 (hid ▸ hpurge), fun p hp => ?_⟩
  exact stmt_keeps (h.inv.rows r hmem) (h.filed.rows r hmem) (h.filed.stmt hst) (hrow.2 p hp)

theorem entries_nextFile {o : PurgeOpts} {r : PurgeReport} {j : StaleJob} {todo : List StaleJob}
    (l : List DataPath) : entries (.nextFile o r j todo l) = j :: todo := by
  cases l <;> rfl

theorem entries_nextJob {o : PurgeOpts} {r : PurgeReport} {todo : List StaleJob} {j : StaleJob}
    (hj : j ∈ entries (.nextJob o r todo)) : j ∈ todo := by
  rcases nextJob_cases o r todo with ⟨r', he⟩ | ⟨r', k, todo', he, hsuf⟩
  · rw [he] at hj
    cases hj
  · rw [he, entries_nextFile] at hj
    exact hsuf.subset hj

theorem entries_nextInput (r : PurgeReport) (todo : List (Int × DataPath)) :
    entries (.nextInput r todo) = [] := by
  cases todo <;> rfl

/-- A purge has a job in hand because it had it before or has just read its row. -/
theorem entries_step {pc pc' : PurgePc} {f : Fate} {w w' : World} (h : PurgeStep w w' f pc pc')
    {j : StaleJob} (hj : j ∈ entries pc') :
    j ∈ entries pc ∨ (w' = w ∧ ∃ r ∈ w.db.jobs.rows, r.deletedAt ≠ none ∧ j = .of r) := by
  cases h with
  | fails _ | counted _ | removedInput => cases hj
  | selected hw =>
    obtain ⟨r, hr, rfl⟩ := List.mem_map.mp (entries_nextJob hj)
    obtain ⟨hmem, hdel⟩ := List.mem_filter.mp hr
    refine .inr ⟨hw, r, hmem, fun hnone => ?_, rfl⟩
    simp [deletedBefore, hnone] at hdel
  | removed =>
    rw [entries_nextFile] at hj
    exact .inl hj
  | deleted => exact .inl (List.mem_cons_of_mem _ (entries_nextJob hj))
  | selectedInputs _ | cleared =>
    rw [entries_nextInput] at hj
    cases hj

theorem snapshot_step {cfg : Config} {s t : State} {a : Act} (h : Kept s) (hm : Moved cfg s t a)
    (hres : RestoresWhole s a) {i : Nat} {pc : PurgePc} {j : StaleJob}
    (hi : t.tasks[i]? = some (.purge pc)) (hj : j ∈ entries pc) :
    Settled t j.id ∧ Snapshot t j := by
  have stays : ∀ pc₀, s.tasks[i]? = some (.purge pc₀) → j ∈ entries pc₀ →
      Settled t j.id ∧ Snapshot t j := by
    intro pc₀ hi₀ hj₀
    obtain ⟨hset, hsnap⟩ := h.snapshot i pc₀ j hi₀ hj₀
    exact ⟨hset.step hm, hsnap.step h hm hres hset (mem_purging hi₀ hj₀)⟩
  rcases hm.purge_origin hi with ⟨hi₀, -⟩ | ⟨o, -, -, rfl⟩ | ⟨f, pc₀, -, hi₀, hp⟩
  · exact stays pc hi₀ hj
  · cases hj
  · rcases entries_step (purge_step hp) hj with hj₀ | ⟨hw, r, hr, hdel, rfl⟩
    · exact stays pc₀ hi₀ hj₀
    · have hrow : row? s r.id = some r := mem_row hr
      refine ⟨(h.inv.ids.settled hrow).step hm, fun r' hr' => ?_⟩
      unfold row? at hr'
      rw [hw] at hr'
      obtain rfl := Option.some.inj (hrow.symm.trans hr')
      exact ⟨hdel, fun p hp => hp⟩

theorem written_facts {s : State} (h : Kept s) {x : String × DataPath}
    (hx : written s.worker = some x) : Settled s x.1 ∧ Recordable x.1 x.2 := by
  have hplaced := h.filed.worker
  generalize hw : s.worker = pc at hx hplaced
  cases pc with
  | process job stage =>
    cases stage with
    | readDimensions out | markDone out wd ht =>
      obtain rfl := Option.some.inj hx
      exact ⟨(h.inv.process job _ hw rfl).1, .inl hplaced⟩
    | _ => cases hx
  | _ => cases hx

theorem output_step {cfg : Config} {s t : State} {a : Act} (h : Kept s) (hm : Moved cfg s t a)
    (hhand : handsOff a = true) {x : String × DataPath} (hx : written t.worker = some x) :
    Safe t x.1 x.2 := by
  have stays : written s.worker = some x → Safe t x.1 x.2 := fun hs =>
    (h.output x hs).step h hm hhand (written_facts h hs).1 (written_facts h hs).2
  cases hm with
  | worker hp _ =>
    rcases (worker_output hp).written x hx with hs | hfile
    · exact stays hs
    · exact .inl hfile
  | task _ _ hw _ | writer _ hw _ | arrive _ hw _ | drop _ _ _ hw _ | env _ hw _ =>
    exact stays (hw ▸ hx)
  | crash he =>
    rw [he] at hx
    cases hx

theorem persisting_facts {s : State} (h : Kept s) {i : Nat} {τ : ServerTask}
    (hi : s.tasks[i]? = some τ) {x : String × DataPath} (hx : persisting τ = some x) :
    Settled s x.1 ∧ Recordable x.1 x.2 := by
  have hplaced := h.filed.tasks i τ hi
  cases τ with
  | derived pc =>
    cases pc with
    | persistJpegFirst c out dst | persistJpeg c dst =>
      obtain rfl := Option.some.inj hx
      exact ⟨(h.inv.tasks i _ c.jobId hi rfl).1, .inr ⟨c.col, hplaced⟩⟩
    | _ => cases hx
  | generate pc =>
    cases pc with
    | persist id out dst col rest =>
      obtain rfl := Option.some.inj hx
      exact ⟨(h.inv.tasks i _ id hi rfl).1, .inr ⟨col, hplaced⟩⟩
    | _ => cases hx
  | _ => cases hx

/-- A rendition is recorded right after it has been made. -/
theorem persisting_perform {cfg : Config} {now : Int} {τ₀ τ : ServerTask} {f : Fate} {w w' : World}
    (h : perform (τ₀.next cfg now) f w = some (w', τ)) {x : String × DataPath}
    (hx : persisting τ = some x) : (w'.files x.2).isSome = true := by
  cases task_moved h with
  | derived hp =>
    cases derived_step hp with
    | selected _ _ htry | goes _ htry => cases htry <;> cases hx
    | ended r => cases hx
    | renderedFirst hfile | rendered hfile =>
      obtain rfl := Option.some.inj hx
      exact hfile
  | generate hp =>
    cases generate_step hp with
    | goes _ hrest => cases hrest <;> cases hx
    | rendered hfile =>
      obtain rfl := Option.some.inj hx
      exact hfile
  | submit _ | cancel _ | hide _ | purge _ | get _ | prompt _ => cases hx

theorem rendition_step {cfg : Config} {s t : State} {a : Act} (h : Kept s) (hm : Moved cfg s t a)
    (hhand : handsOff a = true) {i : Nat} {τ : ServerTask} (hi : t.tasks[i]? = some τ)
    {x : String × DataPath} (hx : persisting τ = some x) : Safe t x.1 x.2 := by
  cases hm.origin hi with
  | kept hi₀ _ =>
    obtain ⟨hset, hrec⟩ := persisting_facts h hi₀ hx
    exact (h.rendition i τ x hi₀ hx).step h hm hhand hset hrec
  | moved hi₀ hp => exact .inl (persisting_perform hp hx)
  | arrived hlen hτ =>
    rename_i r
    subst hτ
    cases r <;> cases hx
  | spawned hlen hp hg hτ =>
    subst hτ
    obtain ⟨job, out, wd, ht, r, -, rfl, -⟩ := spawned_done (worker_step hp) hg
    have hgo := rendering_go job.id out
      [(.thumb, .jpeg), (.thumb, .avif), (.preview, .jpeg), (.preview, .avif)]
    generalize hpc : GeneratePc.start job.id out = pc at hx
    rw [GeneratePc.start] at hpc
    rw [hpc] at hgo
    cases hgo <;> cases hx
  | dropped hτ =>
    subst hτ
    cases hx

/-- A file that a statement is about to record. -/
theorem records_safe {s : State} (h : Kept s) {a : Act} {st : JobStmt} (hst : Issues s a st)
    {id : String} {p : DataPath} (hp : records st = some (id, p)) : Safe s id p := by
  cases hst with
  | markDone hw =>
    cases hp
    exact h.output _ (by rw [hw]; rfl)
  | persistJpegFirst hi | persistJpeg hi | generated hi =>
    cases hp
    exact h.rendition _ _ _ hi rfl
  | hide hi =>
    rename_i i k id' now
    cases k <;> cases hp
  | _ => cases hp

/-- Only a restore takes a row back. -/
theorem undeleted {s : State} {a : Act} {st : JobStmt} {r : JobRow} (hst : Issues s a st)
    (hr : row? s r.id = some r) (hd : (st.update.row r).deletedAt = none) :
    r.deletedAt = none ∨ (restores s a = some r ∧ ∀ p, records st ≠ some p) := by
  by_cases hdel : r.deletedAt = none
  · exact .inl hdel
  · right
    revert hd
    refine row_cases (P := fun r' => r'.deletedAt = none → _) _ r (fun hc hd => ?_)
      fun hd => absurd hd hdel
    cases hst with
    | hide hi =>
      rename_i i k id now
      cases k with
      | delete => cases hd
      | restore =>
        simp only [HideKind.stmt, JobStmt.update, restoreJob, decide_eq_true_eq] at hc
        obtain ⟨rfl, -⟩ := hc
        exact ⟨restores_eq hi hr hdel, fun p hp => by cases hp⟩
    | persistJpegFirst hi | persistJpeg hi | generated hi =>
      simp only [JobStmt.update, setDerivedPath] at hd
      split at hd <;> exact absurd hd hdel
    | _ => exact absurd hd hdel

/-- The recorded files of a row that is not deleted are there before the step. -/
theorem live_before {s : State} (h : Kept s) {a : Act} (hres : RestoresWhole s a) {st : JobStmt}
    (hst : Issues s a st) {r : JobRow} (hr : r ∈ s.world.db.jobs.rows)
    (hd : (st.update.row r).deletedAt = none) {p : DataPath}
    (hp : p ∈ recorded (.of (st.update.row r))) : (s.world.files p).isSome = true := by
  have hrow : row? s r.id = some r := mem_row hr
  rcases undeleted hst hrow hd with hlive | ⟨htakes, hnone⟩
  · rcases stmt_recorded st hp with hold | hnew
    · exact h.live r hr hlive p hold
    · rcases records_safe h hst hnew with hfile | hrec
      · exact hfile
      · exact h.live r hr hlive p (hrec r hrow)
  · rcases stmt_recorded st hp with hold | hnew
    · exact (hres r htakes).2 p hold
    · exact absurd hnew (hnone _)

theorem live_step {cfg : Config} {s t : State} {a : Act} (h : Kept s) (hm : Moved cfg s t a)
    (hhand : handsOff a = true) (hres : RestoresWhole s a) {r : JobRow}
    (hr : r ∈ t.world.db.jobs.rows) (hd : r.deletedAt = none) {p : DataPath}
    (hp : p ∈ recorded (.of r)) : (t.world.files p).isSome = true := by
  have after : ∀ r₀ ∈ s.world.db.jobs.rows, r₀.id = r.id → (s.world.files p).isSome = true →
      (t.world.files p).isSome = true := by
    intro r₀ hr₀ hid hfile
    have hset : Settled s r.id := hid ▸ h.inv.ids.rows r₀ hr₀
    have hrec : Recordable r.id p := ((h.filed.step hm).rows r hr).recordable hp
    rcases file_step h hm hhand (settled_uuid h hset) hrec hfile with hfile | ⟨he, hrow⟩
    · exact hfile
    · have hmem : row? s r.id = some r := mem_row (he ▸ hr)
      exact absurd hd (hrow r hmem).1
  cases hm.jobs with
  | same he =>
    have hr₀ := he ▸ hr
    exact after r hr₀ rfl (h.live r hr₀ hd p hp)
  | update hst he =>
    rename_i st
    rw [he] at hr
    obtain ⟨r₀, hr₀, rfl⟩ := Table.mem_update.mp hr
    exact after r₀ hr₀ (st.update.row_key r₀).symm (live_before h hres hst hr₀ hd hp)
  | insert ha hi hins =>
    rw [(Table.insert?_eq_some.mp hins).2] at hr
    rcases List.mem_append.mp hr with hr₀ | hr₀
    · exact after r hr₀ rfl (h.live r hr₀ hd p hp)
    · obtain rfl := List.mem_singleton.mp hr₀
      cases hp
  | delete ha hi he =>
    rw [he] at hr
    have hr₀ := (Table.mem_delete.mp hr).1
    exact after r hr₀ rfl (h.live r hr₀ hd p hp)

theorem Kept.step {cfg : Config} {s t : State} {a : Act} (h : Kept s) (hm : Moved cfg s t a)
    (hhand : handsOff a = true) (hres : RestoresWhole s a) : Kept t where
  inv := h.inv.step hm
  filed := h.filed.step hm
  snapshot _ _ _ hi hj := snapshot_step h hm hres hi hj
  output _ hx := output_step h hm hhand hx
  rendition _ _ _ hi hx := rendition_step h hm hhand hi hx
  live _ hr hd _ hp := live_step h hm hhand hres hr hd hp

theorem Kept.init : Kept State.init where
  inv := Inv.init
  filed := Filed.init
  snapshot i pc j hi := by simp [State.init] at hi
  output x hx := by cases hx
  rendition i τ x hi := by simp [State.init] at hi
  live r hr := by simp [State.init, World.empty, Db.empty, Table.empty] at hr

theorem live_stays {s : State} {a : Act} {st : JobStmt} {r : JobRow} (hst : Issues s a st)
    (hdel : deletes s a ≠ some r.id) (hd : r.deletedAt = none) :
    (st.update.row r).deletedAt = none := by
  refine row_cases (P := fun r' => r'.deletedAt = none) _ r (fun hc => ?_) hd
  cases hst with
  | hide hi =>
    rename_i i k id now
    cases k with
    | delete =>
      simp only [HideKind.stmt, JobStmt.update, deleteJob, decide_eq_true_eq] at hc
      refine absurd ?_ hdel
      simp only [deletes, hi, hc.1]
    | restore => exact rfl
  | persistJpegFirst hi | persistJpeg hi | generated hi =>
    simp only [JobStmt.update, setDerivedPath]
    split <;> exact hd
  | _ => exact hd

/-- No purge removes a row that is not deleted. -/
theorem Live.step {cfg : Config} {s t : State} {a : Act} (h : Kept s) (hm : Moved cfg s t a)
    {id : String} (hdel : deletes s a ≠ some id) (hlive : Live s id) : Live t id := by
  obtain ⟨r, hr, hd⟩ := hlive
  have hid : r.id = id := Table.find?_key hr
  subst hid
  cases row_step hm (h.inv.ids.settled hr) with
  | same he => exact ⟨r, he.trans hr, hd⟩
  | update hst he => exact ⟨_, by rw [he, hr]; rfl, live_stays hst hdel hd⟩
  | delete ha hi hj he =>
    have hsnap := (h.snapshot _ _ _ hi List.mem_cons_self).2
    exact absurd hd (hsnap r (hj ▸ hr)).1

/-- The job of a restore that has taken its row back and is answered, or is going
to be answered, 204. -/
def restored (s : State) (i : Nat) : Option String :=
  match s.tasks[i]? with
  | some (.hide (.notify .restore id)) | some (.hide (.answered .restore id .noContent)) => some id
  | _ => none

theorem restored_step {cfg : Config} {s t : State} {i : Nat} {f : Fate} {id : String}
    (hm : Moved cfg s t (.task i f)) (hs : restored s i = none) (ht : restored t i = some id) :
    Live t id := by
  cases hm with
  | task hi hcall worker tasks =>
    rename_i τ τ'
    have hi' : t.tasks[i]? = some τ' := by
      rw [tasks, List.getElem?_set_self (List.getElem?_eq_some_iff.mp hi).1]
    cases task_moved hcall with
    | hide hp =>
      cases hide_step hp with
      | taken hf hn hw =>
        rename_i k id' now
        simp only [restored, hi'] at ht
        cases k with
        | delete => cases ht
        | restore =>
          obtain rfl := Option.some.inj ht
          have htarget : (HideKind.stmt now id' .restore).target = some id' := rfl
          rw [JobStmt.affected_target htarget] at hn
          obtain ⟨r, hr, hcond⟩ := (Option.any_eq_true _ _).mp (by simpa using hn)
          refine ⟨(restoreJob id').set r, ?_, rfl⟩
          unfold row?
          rw [hw, Table.find?_update, hr, Option.map_some, Update.row_of_cond _ hcond]
          rfl
      | notFound hf hn hw =>
        rename_i k id' now
        simp only [restored, hi'] at ht
        cases k <;> cases ht
      | fails hf hw =>
        rename_i k id' e now
        simp only [restored, hi'] at ht
        cases k <;> cases ht
      | answered hw =>
        rename_i k id'
        cases k with
        | delete =>
          simp only [restored, hi'] at ht
          cases ht
        | restore =>
          simp only [restored, hi] at hs
          cases hs
    | submit _ | cancel _ | derived _ | generate _ | purge _ | get _ | prompt _ =>
      simp only [restored, hi'] at ht
      cases ht

/-- While no file is removed by hand, and provided that no restore so far took
back a job that a purge had in hand or had robbed of a file: a job taken back by
a restore, and any other that is not deleted, keeps its row until it is deleted
again, and every row that is not deleted has all the files it records. -/
theorem live_kept {cfg : Config} {as bs : List Act} {s t : State}
    (hs : run cfg as State.init = some s) (ht : run cfg bs s = some t)
    (hhand : Along cfg (fun _ a => handsOff a = true) (as ++ bs) State.init)
    (hres : Along cfg RestoresWhole (as ++ bs) State.init) :
    (∀ i f cs m id, bs = .task i f :: cs → step cfg s (.task i f) = some m →
      restored s i = none → restored m i = some id →
      Along cfg (fun u a => deletes u a ≠ some id) cs m → Live t id) ∧
    (∀ id, Live s id → Along cfg (fun u a => deletes u a ≠ some id) bs s → Live t id) ∧
    (∀ r ∈ t.world.db.jobs.rows, r.deletedAt = none → ∀ p ∈ recorded (.of r),
      (t.world.files p).isSome = true) := by
  have keeps : ∀ u a v, Kept u → handsOff a = true ∧ RestoresWhole u a → step cfg u a = some v →
      Kept v := fun u a v hu ha hstep => hu.step (step_moved hstep) ha.1 ha.2
  obtain ⟨hfirst, hrest⟩ := (Runs.along_append hs).mp (hhand.and hres)
  have hkept : Kept s := Runs.Along.invariant keeps hfirst hs Kept.init
  have lives : ∀ {cs : List Act} {m : State} {id : String}, Kept m → run cfg cs m = some t →
      Along cfg (fun u a => handsOff a = true ∧ RestoresWhole u a) cs m →
      Along cfg (fun u a => deletes u a ≠ some id) cs m → Live m id → Live t id := by
    intro cs m id hm hrun hcond hdel hlive
    refine (Runs.Along.invariant (I := fun u => Kept u ∧ Live u id) (fun u a v hu ha hstep => ?_)
      (hcond.and hdel) hrun ⟨hm, hlive⟩).2
    exact ⟨keeps u a v hu.1 ha.1 hstep, hu.2.step hu.1 (step_moved hstep) ha.2⟩
  refine ⟨fun i f cs m id hbs hstep hnone hsome hdel => ?_, fun id hlive hdel => ?_, ?_⟩
  · subst hbs
    obtain ⟨m', hm', hrun⟩ := Runs.run_cons_some.mp ht
    obtain rfl := Option.some.inj (hstep.symm.trans hm')
    exact lives (keeps _ _ _ hkept hrest.1 hstep) hrun (hrest.2 m hstep) hdel
      (restored_step (step_moved hstep) hnone hsome)
  · exact lives hkept ht hrest hdel hlive
  · have hend : Kept t := Runs.Along.invariant keeps hrest ht hkept
    exact hend.live

/-- The job is done and then deleted. -/
def deletedRun : List Act :=
  doneRun ++ [.arrive (.hide .delete jobA), .task 2 .ok, .task 2 .ok]

/-- Everything deleted by now is stale. -/
def purgeAll : PurgeOpts := ⟨100, 10, 10, false⟩

/-- The restore takes the row back, and the next purge finds nothing to do. -/
def restoreThenPurge : List Act :=
  [.task 3 .ok, .task 3 .ok, .arrive (.purge purgeAll), .task 4 .ok, .task 4 .ok]

theorem live_kept_sample : ∃ s t,
    run sampleConfig (deletedRun ++ [.arrive (.hide .restore jobA)]) State.init = some s ∧
    run sampleConfig restoreThenPurge s = some t ∧ restored t 3 = some jobA ∧ Live t jobA := by
  have hrun : ((run sampleConfig (deletedRun ++ [.arrive (.hide .restore jobA)]) State.init).bind
      fun s => (step sampleConfig s (.task 3 .ok)).bind fun m =>
        if restored s 3 = none ∧ restored m 3 = some jobA ∧
            Along sampleConfig (fun u a => deletes u a ≠ some jobA) restoreThenPurge.tail m then
          (run sampleConfig restoreThenPurge s).map (restored · 3)
        else none) = some (some jobA) := by
    simp only [deletedRun, doneRun, List.append_assoc, run_first]
    decide +kernel
  obtain ⟨s, hs, h⟩ := Option.bind_eq_some_iff.mp hrun
  obtain ⟨m, hm, h⟩ := Option.bind_eq_some_iff.mp h
  obtain ⟨⟨hnone, hsome, hdel⟩, h⟩ := Option.ite_none_right_eq_some.mp h
  obtain ⟨t, ht, hend⟩ := Option.map_eq_some_iff.mp h
  have hhand : Along sampleConfig (fun _ a => handsOff a = true)
      (deletedRun ++ [.arrive (.hide .restore jobA)] ++ restoreThenPurge) State.init := by
    simp only [deletedRun, doneRun, List.append_assoc, along_first]
    decide +kernel
  have hres : Along sampleConfig RestoresWhole
      (deletedRun ++ [.arrive (.hide .restore jobA)] ++ restoreThenPurge) State.init := by
    simp only [deletedRun, doneRun, List.append_assoc, along_first]
    decide +kernel
  exact ⟨s, t, hs, ht, hend,
    (live_kept hs ht hhand hres).1 3 .ok _ m jobA rfl hm hnone hsome hdel⟩

/-- A purge has read the deleted job when its restore arrives. -/
def purgeReads : List Act :=
  deletedRun ++ [.arrive (.purge purgeAll), .task 3 .ok, .arrive (.hide .restore jobA)]

/-- The restore is answered 204; the purge goes on to remove the output of the
job, and then its row. -/
theorem restored_purged : ∃ s m u t, run sampleConfig purgeReads State.init = some s ∧
    step sampleConfig s (.task 4 .ok) = some m ∧ restored s 4 = none ∧
    restored m 4 = some jobA ∧ Live m jobA ∧
    run sampleConfig [.task 4 .ok, .task 3 .ok] m = some u ∧
    (∃ r p, row? u jobA = some r ∧ r.deletedAt = none ∧ p ∈ recorded (.of r) ∧
      u.world.files p = none) ∧
    step sampleConfig u (.task 3 .ok) = some t ∧ ¬ Live t jobA := by
  have hrun : ((run sampleConfig purgeReads State.init).bind fun s =>
      (step sampleConfig s (.task 4 .ok)).bind fun m =>
        (run sampleConfig [.task 4 .ok, .task 3 .ok] m).bind fun u =>
          (step sampleConfig u (.task 3 .ok)).bind fun t =>
            if restored s 4 = none ∧ restored m 4 = some jobA ∧
                (row? m jobA).map JobRow.deletedAt = some none ∧ row? t jobA = none then
              (row? u jobA).map fun r =>
                (r.deletedAt, (recorded (.of r)).map fun p => (u.world.files p).isSome)
            else none) = some (none, [false]) := by
    simp only [purgeReads, deletedRun, doneRun, List.append_assoc, run_first]
    decide +kernel
  obtain ⟨s, hs, h⟩ := Option.bind_eq_some_iff.mp hrun
  obtain ⟨m, hm, h⟩ := Option.bind_eq_some_iff.mp h
  obtain ⟨u, hu, h⟩ := Option.bind_eq_some_iff.mp h
  obtain ⟨t, ht, h⟩ := Option.bind_eq_some_iff.mp h
  obtain ⟨⟨hnone, hsome, hlive, hgone⟩, h⟩ := Option.ite_none_right_eq_some.mp h
  obtain ⟨r, hr, hd⟩ := Option.map_eq_some_iff.mp hlive
  obtain ⟨r', hr', he⟩ := Option.map_eq_some_iff.mp h
  obtain ⟨hd', hfiles⟩ := Prod.mk.inj he
  obtain ⟨p, hp, hfile⟩ := List.map_eq_singleton_iff.mp hfiles
  refine ⟨s, m, u, t, hs, hm, hnone, hsome, ⟨r, hr, hd⟩, hu, ⟨r', p, hr', hd', ?_, ?_⟩, ht, ?_⟩
  · rw [hp]
    exact List.mem_singleton_self p
  · simpa using hfile
  · rintro ⟨r'', hr'', -⟩
    rw [hr''] at hgone
    cases hgone

end ZunServer.Retention
