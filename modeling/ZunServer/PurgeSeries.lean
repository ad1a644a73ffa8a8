import ZunServer.DryRun

/-!
# Purges one after the other

A purge leaves what its cutoffs say. It takes whatever purges with earlier cutoffs would
have taken, so the days on which none ran are made up for, and it makes no difference that
others ran before it.
-/
namespace ZunServer.PurgeSeries

open KeyedTable Removals
open Schema Statements Database Calls Purge DryRun

/-- No live job refers to the input, and it has not been used since the cutoff. -/
def stale (cutoff : Int) (db : Db) (i : InputRow) : Prop :=
  i.lastUsedAt < cutoff ∧ ∀ j ∈ db.jobs.rows, ¬ (j.inputId = i.id ∧ j.deletedAt = none)

instance (cutoff : Int) (db : Db) (i : InputRow) : Decidable (stale cutoff db i) :=
  inferInstanceAs (Decidable (_ ∧ _))

theorem cleared_id (i : InputRow) : ({ i with path := none } : InputRow).id = i.id := rfl

def clearStale (cutoff : Int) (db : Db) : Update InputRow.id where
  cond i := stale cutoff db i
  set i := { i with path := none }
  keeps := cleared_id

/-- What a purge leaves of the rows. -/
def retained (opts : PurgeOpts) (db : Db) : Db :=
  { db with
    jobs := db.jobs.delete (deletedBefore opts.jobCutoff)
    inputs := db.inputs.update (clearStale opts.inputCutoff db) }

theorem deleteJobs_eq (l : List StaleJob) (db : Db) :
    l.foldl DryRun.deleteJob db =
      { db with
        jobs := l.foldl (fun t (j : StaleJob) => t.delete fun r => r.id = j.id) db.jobs } := by
  induction l generalizing db with
  | nil => rfl
  | cons j l ih => rw [List.foldl_cons, ih, List.foldl_cons, DryRun.deleteJob]

theorem clearPaths_eq (l : List (Int × DataPath)) (db : Db) :
    l.foldl clearPath db =
      { db with
        inputs := l.foldl (fun t x => t.update (Database.clearInputPath x.1)) db.inputs } := by
  induction l generalizing db with
  | nil => rfl
  | cons x l ih => rw [List.foldl_cons, ih, List.foldl_cons, clearPath]

theorem clear_row (l : List (Int × DataPath)) (i : InputRow) :
    l.foldl (fun r x => (Database.clearInputPath x.1).row r) i =
      if l.any (fun x => i.id = x.1) then { i with path := none } else i := by
  induction l generalizing i with
  | nil => rfl
  | cons x l ih =>
    rw [List.foldl_cons, ih, List.any_cons, (Database.clearInputPath x.1).row_key i]
    by_cases hid : i.id = x.1
    · rw [Update.row_of_cond _ (decide_eq_true hid), decide_eq_true hid, Bool.true_or, if_pos rfl]
      exact ite_self _
    · rw [Update.row_of_not _ (decide_eq_false hid), decide_eq_false hid, Bool.false_or]

theorem mem_staleInputs {cutoff : Int} {db : Db} {x : Int × DataPath} :
    x ∈ staleInputs cutoff db ↔
      ∃ i ∈ db.inputs.rows, stale cutoff db i ∧ i.id = x.1 ∧ i.path = some x.2 := by
  obtain ⟨id, p⟩ := x
  simp only [staleInputs, List.mem_filterMap, stale]
  constructor
  · rintro ⟨i, hi, h⟩
    split at h
    · rename_i hstale
      obtain ⟨q, hq, h⟩ := Option.map_eq_some_iff.mp h
      cases h
      exact ⟨i, hi, hstale, rfl, hq⟩
    · cases h
  · rintro ⟨i, hi, hstale, hid, hpath⟩
    refine ⟨i, hi, ?_⟩
    rw [if_pos hstale, hpath]
    simpa using hid

theorem purge_jobs (opts : PurgeOpts) (db : Db) :
    (staleJobs opts.jobCutoff db).foldl DryRun.deleteJob db =
      { db with jobs := db.jobs.delete (deletedBefore opts.jobCutoff) } := by
  rw [deleteJobs_eq, Table.foldl_delete]
  have hrows : ∀ r ∈ db.jobs.rows, (staleJobs opts.jobCutoff db).any (fun j => r.id = j.id) =
      deletedBefore opts.jobCutoff r := by
    intro r hr
    rw [Bool.eq_iff_iff, List.any_eq_true]
    constructor
    · rintro ⟨j, hj, hid⟩
      obtain ⟨r', hr', rfl⟩ := List.mem_map.mp hj
      obtain ⟨hmem, hold⟩ := List.mem_filter.mp hr'
      have hsame : r = r' :=
        List.inj_on_of_nodup_map db.jobs.nodup hr hmem (of_decide_eq_true hid)
      exact hsame ▸ hold
    · intro hold
      exact ⟨.of r, List.mem_map_of_mem (List.mem_filter.mpr ⟨hr, hold⟩), decide_eq_true rfl⟩
  refine congrArg (fun t => { db with jobs := t }) (Table.ext_rows ?_)
  exact List.filter_congr fun r hr => congrArg (!·) (hrows r hr)

theorem purge_inputs (opts : PurgeOpts) (db : Db) :
    (staleInputs opts.inputCutoff db).foldl clearPath db =
      { db with inputs := db.inputs.update (clearStale opts.inputCutoff db) } := by
  rw [clearPaths_eq]
  refine congrArg (fun t => { db with inputs := t }) (Table.ext_rows ?_)
  rw [Table.foldl_update]
  refine List.map_congr_left fun i hi => ?_
  rw [clear_row]
  by_cases hstale : stale opts.inputCutoff db i
  · rw [Update.row_of_cond _ (decide_eq_true hstale)]
    cases hpath : i.path with
    | none =>
      have hsame : ({ i with path := none } : InputRow) = i := by rw [← hpath]
      simp [clearStale, hsame]
    | some p =>
      have hany : (staleInputs opts.inputCutoff db).any (fun x => i.id = x.1) = true :=
        List.any_eq_true.mpr ⟨(i.id, p),
          mem_staleInputs.mpr ⟨i, hi, hstale, rfl, hpath⟩, decide_eq_true rfl⟩
      rw [if_pos hany]
      rfl
  · rw [Update.row_of_not _ (decide_eq_false hstale), if_neg]
    intro hany
    obtain ⟨x, hx, hid⟩ := List.any_eq_true.mp hany
    obtain ⟨i', hi', hstale', hid', -⟩ := mem_staleInputs.mp hx
    have hsame : i = i' := List.inj_on_of_nodup_map db.inputs.nodup hi hi'
      ((of_decide_eq_true hid).trans hid'.symm)
    exact hstale (hsame ▸ hstale')

/-- A later cutoff spares no input that an earlier one takes. -/
theorem stale_mono {c₁ c₂ : Int} (h : c₁ ≤ c₂) {db : Db} {i : InputRow} (hi : stale c₁ db i) :
    stale c₂ db i := ⟨by have hused := hi.1; omega, hi.2⟩

/-- Deleted jobs spare no input, so it makes no difference that they go. -/
theorem stale_delete (c cutoff : Int) (db : Db) (inputs : Inputs) (i : InputRow) :
    stale cutoff { db with jobs := db.jobs.delete (deletedBefore c), inputs := inputs } i ↔
      stale cutoff db i := by
  refine and_congr_right fun _ => ⟨fun h j hj hlive => ?_, fun h j hj => ?_⟩
  · refine h j (Table.mem_delete.mpr ⟨hj, ?_⟩) hlive
    rw [deletedBefore, hlive.2]
    rfl
  · exact h j (Table.mem_delete.mp hj).1

theorem stale_retained (opts : PurgeOpts) (cutoff : Int) (db : Db) (i : InputRow) :
    stale cutoff (retained opts db) ((clearStale opts.inputCutoff db).row i) ↔ stale cutoff db i := by
  refine Iff.trans ?_ (stale_delete opts.jobCutoff cutoff db (retained opts db).inputs i)
  unfold stale Update.row
  split <;> exact Iff.rfl

theorem retained_retained {o₁ o₂ : PurgeOpts} (hj : o₁.jobCutoff ≤ o₂.jobCutoff)
    (hi : o₁.inputCutoff ≤ o₂.inputCutoff) (db : Db) :
    retained o₂ (retained o₁ db) = retained o₂ db := by
  have hjobs : (retained o₂ (retained o₁ db)).jobs = (retained o₂ db).jobs := by
    apply Table.ext_rows
    simp only [retained, Table.delete, List.filter_filter]
    refine List.filter_congr fun r _ => ?_
    cases hd : r.deletedAt with
    | none => simp [deletedBefore, hd]
    | some d =>
      simp only [deletedBefore, hd, Option.any_some]
      by_cases h₁ : d < o₁.jobCutoff
      · have h₂ : d < o₂.jobCutoff := by omega
        simp [h₁, h₂]
      · simp [h₁]
  have hinputs : (retained o₂ (retained o₁ db)).inputs = (retained o₂ db).inputs := by
    apply Table.ext_rows
    simp only [retained, Table.update, List.map_map]
    refine List.map_congr_left fun i _ => ?_
    have hstale := stale_retained o₁ o₂.inputCutoff db i
    rw [Function.comp_apply]
    by_cases h₂ : stale o₂.inputCutoff db i
    · rw [Update.row_of_cond (clearStale o₂.inputCutoff db) (decide_eq_true h₂)]
      refine (Update.row_of_cond _ (decide_eq_true (hstale.mpr h₂))).trans ?_
      unfold Update.row
      split <;> rfl
    · have h₁ : ¬ stale o₁.inputCutoff db i := fun h₁ => h₂ (stale_mono hi h₁)
      rw [Update.row_of_not (clearStale o₂.inputCutoff db) (decide_eq_false h₂)]
      refine (Update.row_of_not _ (decide_eq_false fun h => h₂ (hstale.mp h))).trans ?_
      exact Update.row_of_not _ (decide_eq_false h₁)
  exact congrArg₂ (fun jobs inputs => ({ db with jobs := jobs, inputs := inputs } : Db)) hjobs hinputs

section

variable {Place : Type} [DecidableEq Place] (layout : Layout Place)

/-- The rows and the files after a purge. -/
def leave (opts : PurgeOpts) (x : Db × (Place → Option Node)) : Db × (Place → Option Node) :=
  ((run layout opts x.1 x.2).db, (run layout opts x.1 x.2).disk)

theorem run_leaves {opts : PurgeOpts} (h : opts.dryRun = false) (db : Db)
    (disk : Place → Option Node) :
    leave layout opts (db, disk) =
      (retained opts db, (removeAll Node.removable disk (touched layout opts db disk)).1) := by
  have hleft : Left disk (removeAll Node.removable
      (removeAll Node.removable disk (jobPlaces layout (staleJobs opts.jobCutoff db))).1
      (inputPlaces layout (staleInputs opts.inputCutoff db))).1 :=
    Left.removeAll (Left.removeAll (fun _ => .inl rfl) _) _
  have hrows : (staleInputs opts.inputCutoff db).foldl clearPath
      ((staleJobs opts.jobCutoff db).foldl DryRun.deleteJob db) = retained opts db := by
    rw [← staleInputs_deleteJobs opts.jobCutoff, purge_inputs, purge_jobs]
    refine congrArg (fun t => ({ retained opts db with inputs := t } : Db)) (Table.ext_rows ?_)
    refine List.map_congr_left fun i _ => ?_
    have hstale := stale_delete opts.jobCutoff opts.inputCutoff db db.inputs i
    unfold Update.row
    simp only [clearStale, hstale]
    rfl
  simp only [leave, run, purgeJobs_real layout opts h, staleInputs_deleteJobs,
    purgeInputs_real layout opts h, touched, comfyPlaces, removeAll_append, hrows]
  cases layout.comfy with
  | none => simp [removeAll]
  | some comfy => simp only [sweepComfyLeftovers_eq, sweep_real opts h hleft]

omit [DecidableEq Place] in
/-- The places a purge goes to. -/
theorem mem_touched {opts : PurgeOpts} {db : Db} {disk : Place → Option Node} {x : Place} :
    x ∈ touched layout opts db disk ↔
      (∃ r ∈ db.jobs.rows, deletedBefore opts.jobCutoff r = true ∧
        ∃ p ∈ files (.of r), layout.place p = x) ∨
      (∃ i ∈ db.inputs.rows, stale opts.inputCutoff db i ∧ ∃ p, i.path = some p ∧ layout.place p = x) ∨
      ∃ comfy, layout.comfy = some comfy ∧ ∃ e ∈ comfyEntries comfy,
        sweeps opts disk e = true ∧ e.place = x := by
  rw [touched, List.mem_append, List.mem_append, or_assoc]
  refine or_congr ?_ (or_congr ?_ ?_)
  · simp only [jobPlaces, staleJobs, List.mem_map, List.mem_flatMap, List.mem_filter]
    constructor
    · rintro ⟨p, ⟨j, ⟨r, ⟨hr, hold⟩, rfl⟩, hp⟩, hx⟩
      exact ⟨r, hr, hold, p, hp, hx⟩
    · rintro ⟨r, hr, hold, p, hp, hx⟩
      exact ⟨p, ⟨_, ⟨r, ⟨hr, hold⟩, rfl⟩, hp⟩, hx⟩
  · simp only [inputPlaces, List.mem_map, mem_staleInputs]
    constructor
    · rintro ⟨y, ⟨i, hi, hstale, -, hpath⟩, hx⟩
      exact ⟨i, hi, hstale, y.2, hpath, hx⟩
    · rintro ⟨i, hi, hstale, p, hpath, hx⟩
      exact ⟨(i.id, p), ⟨i, hi, hstale, rfl, hpath⟩, hx⟩
  · unfold comfyPlaces leftovers
    cases layout.comfy with
    | none => simp
    | some comfy => simp [and_assoc]

omit [DecidableEq Place] in
/-- What an earlier purge leaves to a later one, where it has taken nothing. -/
theorem touched_later {o₁ : PurgeOpts} (o₂ : PurgeOpts) {db : Db}
    {disk disk' : Place → Option Node} {x : Place} (hsame : disk' x = disk x)
    (hx : x ∉ touched layout o₁ db disk) :
    x ∈ touched layout o₂ (retained o₁ db) disk' ↔ x ∈ touched layout o₂ db disk := by
  rw [mem_touched] at hx ⊢
  rw [mem_touched]
  obtain ⟨hjobs, hx⟩ := not_or.mp hx
  obtain ⟨hinputs, hcomfy⟩ := not_or.mp hx
  refine or_congr ?_ (or_congr ?_ ?_)
  · constructor
    · rintro ⟨r, hr, hrest⟩
      exact ⟨r, (Table.mem_delete.mp hr).1, hrest⟩
    · rintro ⟨r, hr, hold, hfile⟩
      refine ⟨r, Table.mem_delete.mpr ⟨hr, ?_⟩, hold, hfile⟩
      exact Bool.eq_false_iff.mpr fun h₁ => hjobs ⟨r, hr, h₁, hfile⟩
  · constructor
    · rintro ⟨i', hi', hstale, p, hpath, hp⟩
      obtain ⟨i, hi, rfl⟩ := Table.mem_update.mp hi'
      refine ⟨i, hi, (stale_retained o₁ _ db i).mp hstale, p, ?_, hp⟩
      unfold Update.row at hpath
      split at hpath
      · cases hpath
      · exact hpath
    · rintro ⟨i, hi, hstale, p, hpath, hp⟩
      have h₁ : ¬ stale o₁.inputCutoff db i := fun h₁ => hinputs ⟨i, hi, h₁, p, hpath, hp⟩
      have hrow : (clearStale o₁.inputCutoff db).row i = i := Update.row_of_not _ (decide_eq_false h₁)
      refine ⟨i, Table.mem_update.mpr ⟨i, hi, hrow⟩, ?_, p, hpath, hp⟩
      rw [← hrow]
      exact (stale_retained o₁ _ db i).mpr hstale
  · refine exists_congr fun comfy => and_congr_right fun _ => exists_congr fun e =>
      and_congr_right fun _ => and_congr_left ?_
    rintro rfl
    rw [sweeps_congr o₂ hsame]

omit [DecidableEq Place] in
theorem touched_mono {o₁ o₂ : PurgeOpts} (hj : o₁.jobCutoff ≤ o₂.jobCutoff)
    (hi : o₁.inputCutoff ≤ o₂.inputCutoff) {db : Db} {disk : Place → Option Node} {x : Place}
    (hx : x ∈ touched layout o₁ db disk) : x ∈ touched layout o₂ db disk := by
  rw [mem_touched] at hx ⊢
  rcases hx with ⟨r, hr, hold, hfile⟩ | ⟨i, hi', hstale, hfile⟩ | ⟨comfy, hc, e, he, hsweep, hp⟩
  · refine .inl ⟨r, hr, ?_, hfile⟩
    simp only [deletedBefore, Option.any_eq_true_iff_get, decide_eq_true_eq] at hold ⊢
    obtain ⟨hd, hlt⟩ := hold
    exact ⟨hd, by omega⟩
  · exact .inr (.inl ⟨i, hi', stale_mono hi hstale, hfile⟩)
  · refine .inr (.inr ⟨comfy, hc, e, he, ?_, hp⟩)
    unfold sweeps at hsweep ⊢
    obtain ⟨hname, hfile⟩ := Bool.and_eq_true_iff.mp hsweep
    refine Bool.and_eq_true_iff.mpr ⟨hname, ?_⟩
    split at hfile
    · simp only [isOlderThanCutoff, Option.any_eq_true_iff_get, decide_eq_true_eq] at hfile ⊢
      obtain ⟨ha, hlt⟩ := hfile
      simp only [PurgeOpts.jobCutoff] at hj
      exact ⟨ha, by omega⟩
    · cases hfile

theorem leave_leave {o₁ o₂ : PurgeOpts} (h₁ : o₁.dryRun = false) (h₂ : o₂.dryRun = false)
    (hj : o₁.jobCutoff ≤ o₂.jobCutoff) (hi : o₁.inputCutoff ≤ o₂.inputCutoff)
    (x : Db × (Place → Option Node)) : leave layout o₂ (leave layout o₁ x) = leave layout o₂ x := by
  obtain ⟨db, disk⟩ := x
  rw [run_leaves layout h₁, run_leaves layout h₂, run_leaves layout h₂, retained_retained hj hi]
  congr 1
  funext p
  simp only [removeAll_apply]
  by_cases hp : p ∈ touched layout o₁ db disk ∧ (disk p).any Node.removable = true
  · have hlater := touched_mono layout hj hi hp.1
    simp [hp, hlater]
  · rw [if_neg hp]
    by_cases hrem : (disk p).any Node.removable = true
    · have hsame : (removeAll Node.removable disk (touched layout o₁ db disk)).1 p = disk p := by
        rw [removeAll_apply, if_neg hp]
      have hlater := touched_later layout o₂ hsame fun hx => hp ⟨hx, hrem⟩
      simp only [hlater]
    · simp [hrem]

/-- Right after a purge there is nothing to do for another one. -/
theorem report_again (opts : PurgeOpts) (db : Db) (disk : Place → Option Node) :
    removed layout opts (retained opts db)
      (removeAll Node.removable disk (touched layout opts db disk)).1 = ⟨0, 0, 0, 0, 0⟩ := by
  have hjobs : staleJobs opts.jobCutoff (retained opts db) = [] := by
    rw [staleJobs, List.map_eq_nil_iff, List.filter_eq_nil_iff]
    intro r hr hold
    exact Bool.eq_false_iff.mp (Table.mem_delete.mp hr).2 hold
  have hinputs : staleInputs opts.inputCutoff (retained opts db) = [] := by
    refine List.eq_nil_iff_forall_not_mem.mpr fun x hx => ?_
    obtain ⟨i', hi', hstale, -, hpath⟩ := mem_staleInputs.mp hx
    obtain ⟨i, hi, rfl⟩ := Table.mem_update.mp hi'
    have hi := (stale_retained opts _ db i).mp hstale
    rw [Update.row_of_cond (clearStale opts.inputCutoff db) (decide_eq_true hi)] at hpath
    cases hpath
  have hcomfy : comfyPlaces layout opts
      (removeAll Node.removable disk (touched layout opts db disk)).1 = [] := by
    refine List.eq_nil_iff_forall_not_mem.mpr fun x hx => ?_
    have hx' : x ∈ touched layout opts (retained opts db)
        (removeAll Node.removable disk (touched layout opts db disk)).1 :=
      List.mem_append_right _ hx
    -- whatever the second sweep would take, the first one has taken
    unfold comfyPlaces at hx
    cases hc : layout.comfy with
    | none => simp [hc] at hx
    | some comfy =>
      rw [hc] at hx
      obtain ⟨e, he, rfl⟩ := List.mem_map.mp hx
      obtain ⟨modified, hfile⟩ := sweeps_file opts (List.mem_filter.mp he).2
      have hkept : ¬ (e.place ∈ touched layout opts db disk ∧
          (disk e.place).any Node.removable = true) := by
        intro hgone
        rw [removeAll_apply, if_pos hgone] at hfile
        cases hfile
      rw [removeAll_apply, if_neg hkept] at hfile
      have hsame : (removeAll Node.removable disk (touched layout opts db disk)).1 e.place =
          disk e.place := by
        rw [removeAll_apply, if_neg hkept]
      have hrem : (disk e.place).any Node.removable = true := by rw [hfile]; rfl
      have htouched : e.place ∈ touched layout opts db disk :=
        (touched_later layout opts hsame fun hin => hkept ⟨hin, hrem⟩).mp hx'
      exact hkept ⟨htouched, hrem⟩
  simp [removed, hjobs, hinputs, hcomfy, jobPlaces, inputPlaces, removeAll]

/-- For all rows and files, when every statement and every removal of an existing file
succeeds: a purge leaves what it would have left if any series of purges and dry runs with
cutoffs no later than its own had not come before it, and another one right after it
changes nothing and reports nothing. -/
theorem purges_absorb {o : PurgeOpts} (h : o.dryRun = false) (os : List PurgeOpts)
    (hos : ∀ o' ∈ os, o'.jobCutoff ≤ o.jobCutoff ∧ o'.inputCutoff ≤ o.inputCutoff)
    (x : Db × (Place → Option Node)) :
    leave layout o (os.foldl (fun x o' => leave layout o' x) x) = leave layout o x ∧
      run layout o (leave layout o x).1 (leave layout o x).2 =
        ⟨(leave layout o x).1, (leave layout o x).2, ⟨0, 0, 0, 0, 0⟩⟩ := by
  constructor
  · induction os generalizing x with
    | nil => rfl
    | cons o' os ih =>
      obtain ⟨⟨hj, hi⟩, hos⟩ := List.forall_mem_cons.mp hos
      rw [List.foldl_cons, ih hos]
      cases hdry : o'.dryRun with
      | true =>
        have hsame : leave layout o' x = x := by rw [leave, run_dry layout o' hdry]
        rw [hsame]
      | false => exact leave_leave layout hdry h hj hi x
  · obtain ⟨db, disk⟩ := x
    have hagain := leave_leave layout h h (Int.le_refl _) (Int.le_refl _) (db, disk)
    have hreport : (run layout o (leave layout o (db, disk)).1 (leave layout o (db, disk)).2).report =
        ⟨0, 0, 0, 0, 0⟩ := by
      rw [run_real layout o h, run_leaves layout h, report_again]
    cases hrun : run layout o (leave layout o (db, disk)).1 (leave layout o (db, disk)).2
    have hrows := congrArg Prod.fst hagain
    have hfiles := congrArg Prod.snd hagain
    rw [leave, hrun] at hrows hfiles
    rw [hrun] at hreport
    dsimp only at hrows hfiles hreport
    rw [hrows, hfiles, hreport]

end

/-- One purge a second after the deletion and one an hour later, with an empty window. -/
theorem purges_absorb_sample :
    leave plain ⟨3701, 0, 0, false⟩ (leave plain ⟨101, 0, 0, false⟩ (bareDb, bareDisk)) =
      leave plain ⟨3701, 0, 0, false⟩ (bareDb, bareDisk) ∧
    (leave plain ⟨3701, 0, 0, false⟩ (bareDb, bareDisk)).1.jobs.rows = [] := by
  obtain ⟨hsame, -⟩ := purges_absorb plain (o := ⟨3701, 0, 0, false⟩) rfl [⟨101, 0, 0, false⟩]
    (by decide) (bareDb, bareDisk)
  exact ⟨hsame, by decide +kernel⟩

end ZunServer.PurgeSeries
