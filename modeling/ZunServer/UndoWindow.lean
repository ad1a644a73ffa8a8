import ZunServer.Retention

/-!
# The window for an undo

`purge::spawn` keeps deleted jobs for `purge_after_days`. A row is within its window
while it is not deleted, or was deleted no longer ago than that. As long as every
restore comes within the window, the races of restores with purges do not happen.
-/
namespace ZunServer.UndoWindow

open KeyedTable
open Schema Statements Database Comfy Calls Renditions Worker Handlers Purge Server Rows
open Lifecycle RowInvariant JobFiles Retention

/-- The retention time in seconds. -/
def secs (days : Nat) : Int := days * 24 * 60 * 60

/-- `PurgeOpts::for_retention_days_now`. -/
def forRetentionDaysNow (now : Int) (days : Nat) : PurgeOpts where
  nowSeconds := now
  deleteGraceSeconds := secs days
  cacheTtlSeconds := secs days
  dryRun := false

/-- Not deleted, or deleted no longer ago than the retention time. -/
def Within (days : Nat) (now : Int) (r : JobRow) : Prop := ∀ d ∈ r.deletedAt, now ≤ d + secs days

instance (days : Nat) (now : Int) (r : JobRow) : Decidable (Within days now r) :=
  inferInstanceAs (Decidable (∀ d ∈ r.deletedAt, _))

/-- The purges are those of the daily task, and the clock is not put back. -/
def daily (days : Nat) (s : State) : Act → Bool
  | .arrive (.purge o) => o = forRetentionDaysNow s.world.now days
  | .env (.clock n) => s.world.now ≤ n
  | _ => true

/-- No file is removed by hand, and every restore comes within the window. -/
def InTime (days : Nat) (s : State) (a : Act) : Prop :=
  daily days s a = true ∧ handsOff a = true ∧ ∀ r ∈ restores s a, Within days s.world.now r

instance (days : Nat) (s : State) (a : Act) : Decidable (InTime days s a) :=
  inferInstanceAs (Decidable (_ ∧ _ ∧ ∀ r ∈ restores s a, Within days s.world.now r))

/-- The row is past its window. -/
def Past (days : Nat) (now : Int) (r : JobRow) : Prop :=
  ∃ d, r.deletedAt = some d ∧ d + secs days < now

theorem within_or_past (days : Nat) (now : Int) (r : JobRow) :
    Within days now r ∨ Past days now r := by
  cases hd : r.deletedAt with
  | none =>
    refine .inl fun d hmem => ?_
    rw [hd] at hmem
    cases hmem
  | some d =>
    by_cases hle : now ≤ d + secs days
    · refine .inl fun d' hmem => ?_
      rw [hd] at hmem
      obtain rfl := Option.some.inj hmem
      exact hle
    · exact .inr ⟨d, hd, by omega⟩

theorem Past.not_within {days : Nat} {now : Int} {r : JobRow} (h : Past days now r) :
    ¬ Within days now r := by
  obtain ⟨d, hd, hlt⟩ := h
  intro hw
  have hle : now ≤ d + secs days := hw d hd
  omega

structure Windowed (days : Nat) (s : State) : Prop where
  kept : Kept s
  young : ∀ (i : Nat) o, s.tasks[i]? = some (.purge (.selectStaleJobs o)) →
    o.jobCutoff + secs days ≤ s.world.now
  hand : ∀ (i : Nat) pc j, s.tasks[i]? = some (.purge pc) → j ∈ entries pc →
    OnRow s j.id (Past days s.world.now)
  whole : ∀ r ∈ s.world.db.jobs.rows, Within days s.world.now r → ∀ p ∈ recorded (.of r),
    (s.world.files p).isSome = true

theorem clock_step {cfg : Config} {days : Nat} {s t : State} {a : Act} (hm : Moved cfg s t a)
    (hd : daily days s a = true) : s.world.now ≤ t.world.now := by
  cases hm with
  | worker h tasks =>
    obtain ⟨c, k, x, -, hex, -⟩ := perform_eq_some.mp h
    exact (exec_change hex).now.ge
  | task hi h worker tasks =>
    obtain ⟨c, k, x, -, hex, -⟩ := perform_eq_some.mp h
    exact (exec_change hex).now.ge
  | writer h worker tasks =>
    obtain ⟨wr, wr', -, he, -⟩ := writerStep_change h
    rw [he]
  | arrive world worker tasks | drop hi live world worker tasks => rw [world]
  | @env e h worker tasks =>
    cases e with
    | comfy c =>
      obtain ⟨b, -, he⟩ := Option.map_eq_some_iff.mp h
      rw [← he]
    | clock n =>
      rw [← Option.some.inj h]
      exact of_decide_eq_true hd
    | vanish p | prompts t | shutdown => rw [← Option.some.inj h]
  | crash h => rw [h]; rfl

theorem Within.before {days : Nat} {now now' : Int} {r : JobRow} (h : Within days now' r)
    (hle : now ≤ now') : Within days now r := fun d hd => by
  have hw : now' ≤ d + secs days := h d hd
  omega

/-- What a purge has in hand can no longer be restored in time. -/
theorem restores_whole {days : Nat} {s : State} {a : Act} (h : Windowed days s)
    (ha : InTime days s a) : RestoresWhole s a := by
  intro r hr
  have hw := ha.2.2 r hr
  have hrow : row? s r.id = some r := by
    unfold restores at hr
    split at hr
    · split at hr
      · obtain ⟨hr, -⟩ := Option.filter_eq_some_iff.mp hr
        obtain rfl := (row_mem hr).2
        exact hr
      · cases hr
    · cases hr
  refine ⟨fun hpurge => ?_, h.whole r (row_mem hrow).1 hw⟩
  obtain ⟨τ, hτ, hmem⟩ := List.mem_flatMap.mp hpurge
  obtain ⟨i, hi⟩ := List.getElem?_of_mem hτ
  cases τ with
  | purge pc =>
    obtain ⟨j, hj, hid⟩ := List.mem_map.mp hmem
    exact (h.hand i pc j hi hj r (hid ▸ hrow)).not_within hw
  | _ => cases hmem

/-- Past its window a row stays as it is, as far as its deletion goes. -/
theorem past_stays {days : Nat} {s : State} {a : Act} {st : JobStmt} {r : JobRow} {now : Int}
    (hst : Issues s a st) (ha : InTime days s a) (hr : row? s r.id = some r)
    (hpast : Past days s.world.now r) (hle : s.world.now ≤ now) :
    Past days now (st.update.row r) := by
  obtain ⟨d, hd, hlt⟩ := hpast
  refine row_cases (P := Past days now) _ r (fun hc => ?_) ⟨d, hd, by omega⟩
  cases hst with
  | hide hi =>
    rename_i i k id n
    cases k with
    | delete =>
      simp only [HideKind.stmt, JobStmt.update, deleteJob, decide_eq_true_eq] at hc
      rw [hc.2] at hd
      cases hd
    | restore =>
      simp only [HideKind.stmt, JobStmt.update, restoreJob, decide_eq_true_eq] at hc
      obtain ⟨rfl, hne⟩ := hc
      have hw : s.world.now ≤ d + secs days := ha.2.2 r (restores_eq hi hr hne) d hd
      omega
  | persistJpegFirst hi | persistJpeg hi | generated hi =>
    simp only [JobStmt.update, setDerivedPath]
    split <;> exact ⟨d, hd, by omega⟩
  | _ => exact ⟨d, hd, by omega⟩

/-- A purge has a job in hand because it had it before, or because it has just read it
as deleted before its cutoff. -/
theorem entries_select {pc pc' : PurgePc} {f : Fate} {w w' : World} (h : PurgeStep w w' f pc pc')
    {j : StaleJob} (hj : j ∈ entries pc') :
    j ∈ entries pc ∨ ∃ o, pc = .selectStaleJobs o ∧ w' = w ∧
      ∃ r ∈ w.db.jobs.rows, deletedBefore o.jobCutoff r = true ∧ j = .of r := by
  cases h with
  | fails _ | counted _ | removedInput => cases hj
  | selected hw =>
    obtain ⟨r, hr, rfl⟩ := List.mem_map.mp (entries_nextJob hj)
    obtain ⟨hmem, hdel⟩ := List.mem_filter.mp hr
    exact .inr ⟨_, rfl, hw, r, hmem, hdel, rfl⟩
  | removed =>
    rw [entries_nextFile] at hj
    exact .inl hj
  | deleted => exact .inl (List.mem_cons_of_mem _ (entries_nextJob hj))
  | selectedInputs _ | cleared =>
    rw [entries_nextInput] at hj
    cases hj

theorem hand_step {cfg : Config} {days : Nat} {s t : State} {a : Act} (h : Windowed days s)
    (hm : Moved cfg s t a) (ha : InTime days s a) {i : Nat} {pc : PurgePc} {j : StaleJob}
    (hi : t.tasks[i]? = some (.purge pc)) (hj : j ∈ entries pc) :
    OnRow t j.id (Past days t.world.now) := by
  have hle := clock_step hm ha.1
  have stays : ∀ pc₀, s.tasks[i]? = some (.purge pc₀) → j ∈ entries pc₀ →
      OnRow t j.id (Past days t.world.now) := by
    intro pc₀ hi₀ hj₀
    have hset := (h.kept.snapshot i pc₀ j hi₀ hj₀).1
    intro r' hr'
    cases row_step hm hset with
    | same he =>
      obtain ⟨d, hd, hlt⟩ := h.hand i pc₀ j hi₀ hj₀ r' (he ▸ hr')
      exact ⟨d, hd, by omega⟩
    | update hst he =>
      rw [he, Option.map_eq_some_iff] at hr'
      obtain ⟨r, hr, rfl⟩ := hr'
      have hid := (row_mem hr).2
      exact past_stays hst ha (hid ▸ hr) (h.hand i pc₀ j hi₀ hj₀ r hr) hle
    | delete _ _ _ he =>
      rw [he] at hr'
      cases hr'
  rcases hm.purge_origin hi with ⟨hi₀, -⟩ | ⟨o, -, -, rfl⟩ | ⟨f, pc₀, -, hi₀, hp⟩
  · exact stays pc hi₀ hj
  · cases hj
  · rcases entries_select (purge_step hp) hj with hj₀ | ⟨o, rfl, hw, r, hr, hdel, rfl⟩
    · exact stays pc₀ hi₀ hj₀
    · have hyoung := h.young i o hi₀
      intro r' hr'
      have hrow : row? s r.id = some r := mem_row hr
      unfold row? at hr'
      rw [hw] at hr' ⊢
      obtain rfl := Option.some.inj (hrow.symm.trans hr')
      obtain ⟨d, hd, hlt⟩ := (Option.any_eq_true _ _).mp hdel
      exact ⟨d, hd, by simp only [decide_eq_true_eq] at hlt; omega⟩

/-- The stale jobs are read once, at the start. -/
theorem select_first {pc pc' : PurgePc} {f : Fate} {w w' : World} (h : PurgeStep w w' f pc pc')
    (o : PurgeOpts) : pc' ≠ .selectStaleJobs o := by
  have file : ∀ o' r j todo l, PurgePc.nextFile o' r j todo l ≠ .selectStaleJobs o := by
    intro o' r j todo l
    cases l <;> exact PurgePc.noConfusion
  have job : ∀ o' r todo, PurgePc.nextJob o' r todo ≠ .selectStaleJobs o := by
    intro o' r todo
    rcases nextJob_cases o' r todo with ⟨r', he⟩ | ⟨r', j, todo', he, -⟩ <;> rw [he]
    · exact PurgePc.noConfusion
    · exact file _ _ _ _ _
  have input : ∀ r todo, PurgePc.nextInput r todo ≠ .selectStaleJobs o := by
    intro r todo
    cases todo <;> exact PurgePc.noConfusion
  cases h with
  | fails _ | counted _ | removedInput => exact PurgePc.noConfusion
  | selected _ | deleted => exact job _ _ _
  | removed => exact file _ _ _ _ _
  | selectedInputs _ | cleared => exact input _ _

/-- Only a purge of the daily task comes to read the stale jobs. -/
theorem young_step {cfg : Config} {days : Nat} {s t : State} {a : Act} (h : Windowed days s)
    (hm : Moved cfg s t a) (hd : daily days s a = true) {i : Nat} {o : PurgeOpts}
    (hi : t.tasks[i]? = some (.purge (.selectStaleJobs o))) :
    o.jobCutoff + secs days ≤ t.world.now := by
  have hle := clock_step hm hd
  rcases hm.purge_origin hi with ⟨hi₀, -⟩ | ⟨o', rfl, -, hpc⟩ | ⟨f, pc₀, -, hi₀, hp⟩
  · have hyoung := h.young i o hi₀
    omega
  · obtain rfl := PurgePc.selectStaleJobs.inj hpc
    have ho : o = forRetentionDaysNow s.world.now days := of_decide_eq_true hd
    have hcut : o.jobCutoff + secs days = s.world.now := by
      rw [ho]
      simp [PurgeOpts.jobCutoff, forRetentionDaysNow]
    omega
  · exact absurd rfl (select_first (purge_step hp) o)

/-- No purge removes a file that a row within its window may record. -/
theorem within_file {cfg : Config} {days : Nat} {s t : State} {a : Act} (h : Windowed days s)
    (hm : Moved cfg s t a) (ha : InTime days s a) {r : JobRow} (hr : row? s r.id = some r)
    (hw : Within days s.world.now r) {p : DataPath} (hrec : Recordable r.id p)
    (hp : (s.world.files p).isSome = true) : (t.world.files p).isSome = true := by
  cases hm.files with
  | same he => exact he ▸ hp
  | put he => exact he ▸ Files.put_isSome hp _ _
  | purged hi hrem he =>
    rename_i i f pc q
    rw [he]
    by_cases hq : p = q
    · subst hq
      have hid := settled_uuid h.kept (h.kept.inv.ids.settled hr)
      obtain ⟨j, hj, hjid, -⟩ := removing_entry h.kept hi hrem hid hrec
      exact absurd hw (h.hand i pc j hi hj r (hjid ▸ hr)).not_within
    · rw [Files.put_other _ _ _ _ hq]
      exact hp
  | vanished he => cases ha.2.1

/-- No purge removes a row within its window. -/
theorem within_row {cfg : Config} {days : Nat} {s t : State} {a : Act} (h : Windowed days s)
    (hm : Moved cfg s t a) {id : String} {r : JobRow} (hr : row? s id = some r)
    (hw : Within days s.world.now r) : (row? t id).isSome = true := by
  obtain ⟨hmem, rfl⟩ := row_mem hr
  cases row_step hm (h.kept.inv.ids.settled hr) with
  | same he => rw [he, hr]; rfl
  | update hst he => rw [he, hr]; rfl
  | delete ha hi hj he =>
    have hpast := h.hand _ _ _ hi List.mem_cons_self
    exact absurd hw (hpast r (hj ▸ hr)).not_within

/-- A row that a statement leaves within its window was so before. -/
theorem within_before {days : Nat} {s : State} {a : Act} {st : JobStmt} {r : JobRow} {now : Int}
    (hst : Issues s a st) (ha : InTime days s a) (hr : row? s r.id = some r)
    (hle : s.world.now ≤ now) (hw : Within days now (st.update.row r)) :
    Within days s.world.now r :=
  (within_or_past days s.world.now r).resolve_right fun hpast =>
    (past_stays hst ha hr hpast hle).not_within hw

theorem whole_step {cfg : Config} {days : Nat} {s t : State} {a : Act} (h : Windowed days s)
    (hm : Moved cfg s t a) (ha : InTime days s a) {r : JobRow} (hr : r ∈ t.world.db.jobs.rows)
    (hw : Within days t.world.now r) {p : DataPath} (hp : p ∈ recorded (.of r)) :
    (t.world.files p).isSome = true := by
  have hle := clock_step hm ha.1
  have hrec : Recordable r.id p := ((h.kept.filed.step hm).rows r hr).recordable hp
  have after : ∀ r₀ ∈ s.world.db.jobs.rows, r₀.id = r.id → Within days s.world.now r₀ →
      (s.world.files p).isSome = true → (t.world.files p).isSome = true :=
    fun r₀ hr₀ hid hw₀ hfile => within_file h hm ha (mem_row hr₀) hw₀ (hid ▸ hrec) hfile
  cases hm.jobs with
  | same he =>
    have hr₀ := he ▸ hr
    exact after r hr₀ rfl (hw.before hle) (h.whole r hr₀ (hw.before hle) p hp)
  | update hst he =>
    rename_i st
    rw [he] at hr
    obtain ⟨r₀, hr₀, rfl⟩ := Table.mem_update.mp hr
    have hw₀ := within_before hst ha (mem_row hr₀) hle hw
    refine after r₀ hr₀ (st.update.row_key r₀).symm hw₀ ?_
    rcases stmt_recorded st hp with hold | hnew
    · exact h.whole r₀ hr₀ hw₀ p hold
    · rcases records_safe h.kept hst hnew with hfile | hrow
      · exact hfile
      · exact h.whole r₀ hr₀ hw₀ p (hrow r₀ (mem_row hr₀))
  | insert _ hi hins =>
    rw [(Table.insert?_eq_some.mp hins).2] at hr
    rcases List.mem_append.mp hr with hr₀ | hr₀
    · exact after r hr₀ rfl (hw.before hle) (h.whole r hr₀ (hw.before hle) p hp)
    · obtain rfl := List.mem_singleton.mp hr₀
      cases hp
  | delete _ hi he =>
    rw [he] at hr
    have hr₀ := (Table.mem_delete.mp hr).1
    exact after r hr₀ rfl (hw.before hle) (h.whole r hr₀ (hw.before hle) p hp)

theorem Windowed.step {cfg : Config} {days : Nat} {s t : State} {a : Act} (h : Windowed days s)
    (hm : Moved cfg s t a) (ha : InTime days s a) : Windowed days t where
  kept := h.kept.step hm ha.2.1 (restores_whole h ha)
  young _ _ hi := young_step h hm ha.1 hi
  hand _ _ _ hi hj := hand_step h hm ha hi hj
  whole _ hr hw _ hp := whole_step h hm ha hr hw hp

theorem Windowed.init (days : Nat) : Windowed days State.init where
  kept := Kept.init
  young i o hi := by simp [State.init] at hi
  hand i pc j hi := by simp [State.init] at hi
  whole r hr := by simp [State.init, World.empty, Db.empty, Table.empty] at hr

theorem run_windowed {cfg : Config} {days : Nat} {as : List Act} {s : State}
    (h : run cfg as State.init = some s) (hc : Along cfg (InTime days) as State.init) :
    Windowed days s :=
  Runs.Along.invariant (fun _ _ _ hu ha hs => hu.step (step_moved hs) ha) hc h (Windowed.init days)

/-- A restore in time takes back the row with its files. -/
theorem restore_in_time {cfg : Config} {days : Nat} {s : State} (h : Windowed days s) {i : Nat}
    {id : String} {now : Int} (hi : s.tasks[i]? = some (.hide (.update .restore id now)))
    {r : JobRow} (hr : row? s id = some r) (hd : r.deletedAt ≠ none)
    (hw : Within days s.world.now r) :
    ∃ u, step cfg s (.task i .ok) = some u ∧ restored u i = some id ∧
      ∃ r', row? u id = some r' ∧ r'.deletedAt = none ∧
        ∀ p ∈ recorded (.of r'), (u.world.files p).isSome = true := by
  obtain ⟨hmem, rfl⟩ := row_mem hr
  have hcond : (restoreJob r.id).cond r = true := decide_eq_true ⟨rfl, hd⟩
  have hone : s.world.db.jobs.affected (JobStmt.restoreJob r.id).update = 1 :=
    (JobStmt.affected_eq_one rfl).mpr ⟨r, hr, hcond⟩
  obtain ⟨u, hu, hjobs, htasks⟩ : ∃ u, step cfg s (.task i .ok) = some u ∧
      u.world.db.jobs = s.world.db.jobs.update (restoreJob r.id) ∧
      u.tasks = s.tasks.set i (.hide (.notify .restore r.id)) := by
    simp only [Server.step, hi, Option.bind_some, ServerTask.next, HidePc.next, HideKind.stmt,
      Option.map_some, Proc.map, perform, exec, execSql, Sql.run, hone]
    exact ⟨_, rfl, rfl, rfl⟩
  have hrow : row? u r.id = some { r with deletedAt := none } := by
    unfold row?
    rw [hjobs, Table.find?_update]
    rw [show s.world.db.jobs.find? r.id = some r from hr, Option.map_some,
      Update.row_of_cond _ hcond]
    rfl
  have htime : InTime days s (.task i .ok) := by
    refine ⟨rfl, rfl, fun r' hr' => ?_⟩
    rw [restores_eq hi hr hd] at hr'
    obtain rfl := Option.some.inj hr'
    exact hw
  have hlen := (List.getElem?_eq_some_iff.mp hi).1
  refine ⟨u, hu, ?_, _, hrow, rfl, ?_⟩
  · simp only [restored, htasks, List.getElem?_set_self hlen]
  · exact (h.step (step_moved hu) htime).kept.live _ (row_mem hrow).1 rfl

/-- In every run whose purges are those of the daily task, whose clock is not put back, in
which no file is removed by hand and every restore comes within the window: a row within
its window has all its files, it stays while it is within its window, and a restore then
takes it back whole. -/
theorem undo_window {cfg : Config} {days : Nat} {as bs : List Act} {s t : State}
    (hs : run cfg as State.init = some s) (ht : run cfg bs s = some t)
    (hc : Along cfg (InTime days) (as ++ bs) State.init) :
    (∀ r ∈ t.world.db.jobs.rows, Within days t.world.now r → ∀ p ∈ recorded (.of r),
      (t.world.files p).isSome = true) ∧
    (∀ id, (row? s id).isSome = true →
      Along cfg (fun u _ => OnRow u id (Within days u.world.now)) bs s →
      (row? t id).isSome = true) ∧
    (∀ i id now r, t.tasks[i]? = some (.hide (.update .restore id now)) → row? t id = some r →
      r.deletedAt ≠ none → Within days t.world.now r →
      ∃ u, step cfg t (.task i .ok) = some u ∧ restored u i = some id ∧
        ∃ r', row? u id = some r' ∧ r'.deletedAt = none ∧
          ∀ p ∈ recorded (.of r'), (u.world.files p).isSome = true) := by
  have hend := run_windowed (Runs.run_trans hs ht) hc
  obtain ⟨hfirst, hrest⟩ := (Runs.along_append hs).mp hc
  have hstart := run_windowed hs hfirst
  refine ⟨hend.whole, fun id hrow hin => ?_, fun i id now r hi hr hd hw =>
    restore_in_time hend hi hr hd hw⟩
  refine (Runs.Along.invariant (I := fun u => Windowed days u ∧ (row? u id).isSome = true)
    (fun u a v hu ha hstep => ?_) (hrest.and hin) ht ⟨hstart, hrow⟩).2
  obtain ⟨r, hr⟩ := Option.isSome_iff_exists.mp hu.2
  exact ⟨hu.1.step (step_moved hstep) ha.1, within_row hu.1 (step_moved hstep) hr (ha.2 r hr)⟩

/-- The `i`-th task, if it hides a job or restores it. -/
def hideAt (s : State) (i : Nat) : Option HidePc :=
  match s.tasks[i]? with
  | some (.hide pc) => some pc
  | _ => none

theorem hideAt_eq_some {s : State} {i : Nat} {pc : HidePc} (h : hideAt s i = some pc) :
    s.tasks[i]? = some (.hide pc) := by
  unfold hideAt at h
  split at h
  · rename_i pc' hi
    rw [hi, Option.some.inj h]
  · cases h

/-- The daily purge comes in the last second of the window, and then the restore. -/
def lastSecond : List Act :=
  [.env (.clock 2592000), .arrive (.purge (forRetentionDaysNow 2592000 30)), .task 3 .ok, .task 3 .ok,
    .arrive (.hide .restore jobA)]

theorem undo_window_restored : ∃ s t u r, run sampleConfig deletedRun State.init = some s ∧
    run sampleConfig lastSecond s = some t ∧ t.world.now = 2592000 ∧
    (row? t jobA).map JobRow.deletedAt = some (some 0) ∧
    step sampleConfig t (.task 4 .ok) = some u ∧ restored u 4 = some jobA ∧
    row? u jobA = some r ∧ r.deletedAt = none := by
  have hrun : ((run sampleConfig deletedRun State.init).bind fun s =>
      (run sampleConfig lastSecond s).bind fun t => (row? t jobA).map fun r =>
        (t.world.now, r.deletedAt, hideAt t 4)) =
      some (2592000, some 0, some (.update .restore jobA 2592000)) := by
    simp only [deletedRun, doneRun, List.append_assoc, run_first]
    decide +kernel
  have hc : Along sampleConfig (InTime 30) (deletedRun ++ lastSecond) State.init := by
    simp only [deletedRun, doneRun, List.append_assoc, along_first]
    decide +kernel
  obtain ⟨s, hs, h⟩ := Option.bind_eq_some_iff.mp hrun
  obtain ⟨t, ht, h⟩ := Option.bind_eq_some_iff.mp h
  obtain ⟨r, hr, h⟩ := Option.map_eq_some_iff.mp h
  simp only [Prod.mk.injEq] at h
  obtain ⟨hnow, hd, hi⟩ := h
  have hw : Within 30 t.world.now r := by
    intro d hmem
    rw [hd] at hmem
    obtain rfl := Option.some.inj hmem
    rw [hnow]
    decide
  obtain ⟨u, hu, hrest, r', hr', hlive, -⟩ :=
    (undo_window hs ht hc).2.2 4 jobA 2592000 r (hideAt_eq_some hi) hr (by simp [hd]) hw
  exact ⟨s, t, u, r', hs, ht, hnow, by rw [hr, Option.map_some, hd], hu, hrest, hr', hlive⟩

end ZunServer.UndoWindow
