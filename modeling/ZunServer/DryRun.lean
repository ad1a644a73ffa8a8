import ZunServer.PurgeRuns
import ZunServer.Removals

/-!
# Dry runs

`purge::run` as one function of the database and the disk, with the sweep of
ComfyUI's directories: every statement succeeds, and every removal of a file that
is there. A dry run counts what such a run would do.
-/
namespace ZunServer.DryRun

open KeyedTable Removals
open Schema Statements Database Calls Purge PurgeRuns

/-- What is at a place: a file with the seconds since the epoch when it was modified, if they can
be had, or something else. -/
inductive Node where
  | file (modified : Option ℕ)
  | symlink
  | dir
  deriving DecidableEq, Repr

/-- `remove_file` succeeds. -/
def Node.removable : Node → Bool
  | .file _ | .symlink => true
  | .dir => false

inductive ComfySub where
  | input | output

/-- An entry of a listing. -/
structure Entry (Place : Type) where
  fileName : String
  place : Place

/-- Where the paths lead, links of directories followed: two of them may well lead to one place.
`comfy` is `comfy_data_dir`, if configured, with the listings of the directories that can be
read. -/
structure Layout (Place : Type) where
  place : DataPath → Place
  comfy : Option (ComfySub → Option (List (Entry Place)))

/-- A run of the purge so far. -/
structure Run (Place : Type) where
  db : Db
  disk : Place → Option Node
  report : PurgeReport

section

variable {Place : Type} [DecidableEq Place] (layout : Layout Place) (opts : PurgeOpts)

/-- The first `SELECT`. -/
def staleJobs (cutoff : Int) (db : Db) : List StaleJob :=
  (db.jobs.rows.filter (deletedBefore cutoff)).map StaleJob.of

def removeJobFile (s : Run Place) (rel : DataPath) : Run Place :=
  if opts.dryRun then { s with report.jobFilesRemoved := s.report.jobFilesRemoved + 1 }
  else
    let (disk, removed) := remove Node.removable s.disk (layout.place rel)
    { s with disk, report.jobFilesRemoved := s.report.jobFilesRemoved + removed.toNat }

def deleteJob (db : Db) (j : StaleJob) : Db := { db with jobs := db.jobs.delete fun r => r.id = j.id }

/-- The body of the loop over the stale jobs. -/
def purgeJob (s : Run Place) (j : StaleJob) : Run Place :=
  let s := (files j).foldl (removeJobFile layout opts) s
  let s := if opts.dryRun then s else { s with db := deleteJob s.db j }
  { s with report.jobsHardDeleted := s.report.jobsHardDeleted + 1 }

def clearPath (db : Db) (x : Int × DataPath) : Db :=
  { db with inputs := db.inputs.update (clearInputPath x.1) }

/-- The body of the loop over the stale inputs. -/
def purgeInput (s : Run Place) (x : Int × DataPath) : Run Place :=
  if opts.dryRun then
    { s with report.inputFilesRemoved := s.report.inputFilesRemoved + 1,
             report.inputsPurged := s.report.inputsPurged + 1 }
  else
    let (disk, removed) := remove Node.removable s.disk (layout.place x.2)
    { db := clearPath s.db x, disk
      report := { s.report with inputFilesRemoved := s.report.inputFilesRemoved + removed.toNat,
                                inputsPurged := s.report.inputsPurged + 1 } }

def isOlderThanCutoff (modified : Option ℕ) : Bool :=
  modified.any fun age => (age : Int) < opts.nowSeconds - opts.deleteGraceSeconds

/-- `COMFY_FILE_PREFIX`. -/
def comfyFilePrefix : String := "zun_"

/-- The sweep passes over everything but the server's own files that are old enough. -/
def sweeps (disk : Place → Option Node) (entry : Entry Place) : Bool :=
  comfyFilePrefix.toList.isPrefixOf entry.fileName.toList && match disk entry.place with
    | some (.file modified) => isOlderThanCutoff opts modified
    | _ => false

def sweepEntry (c : (Place → Option Node) × ℕ) (entry : Entry Place) : (Place → Option Node) × ℕ :=
  if sweeps opts c.1 entry then
    if opts.dryRun then (c.1, c.2 + 1)
    else
      let (disk, removed) := remove Node.removable c.1 entry.place
      (disk, c.2 + removed.toNat)
  else c

/-- `sweep_comfy_leftovers`. -/
def sweepComfyLeftovers (comfy : ComfySub → Option (List (Entry Place))) (disk : Place → Option Node) :
    (Place → Option Node) × ℕ :=
  [.input, .output].foldl (fun c sub => match comfy sub with
    | none => c
    | some entries => entries.foldl (sweepEntry opts) c) (disk, 0)

def run (db : Db) (disk : Place → Option Node) : Run Place :=
  let s := (staleJobs opts.jobCutoff db).foldl (purgeJob layout opts) ⟨db, disk, ⟨0, 0, 0, 0, 0⟩⟩
  let s := (staleInputs opts.inputCutoff s.db).foldl (purgeInput layout opts) s
  match layout.comfy with
  | none => s
  | some comfy =>
    let (disk, removed) := sweepComfyLeftovers opts comfy s.disk
    { s with disk, report.comfyFilesRemoved := removed }

/-- The entries the sweep comes to. -/
def comfyEntries (comfy : ComfySub → Option (List (Entry Place))) : List (Entry Place) :=
  [.input, .output].flatMap fun sub => (comfy sub).getD []

/-- The places of those that it does not pass over. -/
def leftovers (disk : Place → Option Node) (entries : List (Entry Place)) : List Place :=
  (entries.filter (sweeps opts disk)).map Entry.place

theorem sweepComfyLeftovers_eq (comfy : ComfySub → Option (List (Entry Place)))
    (disk : Place → Option Node) : sweepComfyLeftovers opts comfy disk =
      (comfyEntries comfy).foldl (sweepEntry opts) (disk, 0) := by
  simp only [sweepComfyLeftovers, comfyEntries, List.foldl_cons, List.foldl_nil, List.flatMap_cons,
    List.flatMap_nil, List.append_nil, List.foldl_append]
  cases comfy .input <;> cases comfy .output <;> rfl

theorem removeJobFiles_dry (h : opts.dryRun = true) (l : List DataPath) (s : Run Place) :
    l.foldl (removeJobFile layout opts) s =
      { s with report.jobFilesRemoved := s.report.jobFilesRemoved + l.length } := by
  induction l generalizing s with
  | nil => rfl
  | cons p l ih =>
    rw [List.foldl_cons, ih]
    simp [removeJobFile, h]
    omega

theorem purgeJobs_dry (h : opts.dryRun = true) (l : List StaleJob) (s : Run Place) :
    l.foldl (purgeJob layout opts) s =
      { s with
        report.jobsHardDeleted := s.report.jobsHardDeleted + l.length
        report.jobFilesRemoved := s.report.jobFilesRemoved + (l.flatMap files).length } := by
  induction l generalizing s with
  | nil => rfl
  | cons j l ih =>
    rw [List.foldl_cons, ih]
    simp [purgeJob, removeJobFiles_dry layout opts h, h]
    omega

theorem purgeInputs_dry (h : opts.dryRun = true) (l : List (Int × DataPath)) (s : Run Place) :
    l.foldl (purgeInput layout opts) s =
      { s with
        report.inputFilesRemoved := s.report.inputFilesRemoved + l.length
        report.inputsPurged := s.report.inputsPurged + l.length } := by
  induction l generalizing s with
  | nil => rfl
  | cons x l ih =>
    rw [List.foldl_cons, ih]
    simp [purgeInput, h]
    omega

theorem sweep_dry (h : opts.dryRun = true) (disk : Place → Option Node)
    (entries : List (Entry Place)) (n : ℕ) :
    entries.foldl (sweepEntry opts) (disk, n) =
      (disk, n + (leftovers opts disk entries).length) := by
  induction entries generalizing n with
  | nil => rfl
  | cons e entries ih =>
    rw [List.foldl_cons, sweepEntry]
    by_cases hsweep : sweeps opts disk e = true
    · simp [hsweep, h, ih, leftovers]
      omega
    · simp [hsweep, ih, leftovers]

theorem removeJobFiles_real (h : opts.dryRun = false) (l : List DataPath) (s : Run Place) :
    l.foldl (removeJobFile layout opts) s =
      { s with
        disk := (removeAll Node.removable s.disk (l.map layout.place)).1
        report.jobFilesRemoved := s.report.jobFilesRemoved +
          (removeAll Node.removable s.disk (l.map layout.place)).2 } := by
  induction l generalizing s with
  | nil => rfl
  | cons p l ih =>
    rw [List.foldl_cons, ih]
    simp [removeJobFile, h, removeAll, Nat.add_assoc]

/-- The places of the files of these jobs. -/
def jobPlaces (l : List StaleJob) : List Place := (l.flatMap files).map layout.place

theorem purgeJobs_real (h : opts.dryRun = false) (l : List StaleJob) (s : Run Place) :
    l.foldl (purgeJob layout opts) s =
      { db := l.foldl deleteJob s.db
        disk := (removeAll Node.removable s.disk (jobPlaces layout l)).1
        report := { s.report with
          jobsHardDeleted := s.report.jobsHardDeleted + l.length
          jobFilesRemoved := s.report.jobFilesRemoved +
            (removeAll Node.removable s.disk (jobPlaces layout l)).2 } } := by
  induction l generalizing s with
  | nil => rfl
  | cons j l ih =>
    rw [List.foldl_cons, ih]
    simp only [purgeJob, removeJobFiles_real layout opts h, h, jobPlaces, List.flatMap_cons,
      List.map_append, removeAll_append, List.foldl_cons, List.length_cons, Bool.false_eq_true,
      if_false]
    simp [Nat.add_assoc, Nat.add_comm 1]

def inputPlaces (l : List (Int × DataPath)) : List Place := l.map fun x => layout.place x.2

theorem purgeInputs_real (h : opts.dryRun = false) (l : List (Int × DataPath)) (s : Run Place) :
    l.foldl (purgeInput layout opts) s =
      { db := l.foldl clearPath s.db
        disk := (removeAll Node.removable s.disk (inputPlaces layout l)).1
        report := { s.report with
          inputFilesRemoved := s.report.inputFilesRemoved +
            (removeAll Node.removable s.disk (inputPlaces layout l)).2
          inputsPurged := s.report.inputsPurged + l.length } } := by
  induction l generalizing s with
  | nil => rfl
  | cons x l ih =>
    rw [List.foldl_cons, ih]
    simp [purgeInput, h, inputPlaces, removeAll, Nat.add_assoc, Nat.add_comm 1]

/-- What of a disk is left: something may have gone, nothing else has come. -/
def Left (disk₀ disk : Place → Option Node) : Prop := ∀ x, disk x = disk₀ x ∨ disk x = none

theorem Left.remove {disk₀ disk : Place → Option Node} (h : Left disk₀ disk) (a : Place) :
    Left disk₀ (remove Node.removable disk a).1 := by
  intro x
  rw [remove_apply]
  split
  · exact .inr rfl
  · exact h x

theorem Left.removeAll {disk₀ disk : Place → Option Node} (h : Left disk₀ disk) (l : List Place) :
    Left disk₀ (removeAll Node.removable disk l).1 := by
  intro x
  rw [removeAll_apply]
  split
  · exact .inr rfl
  · exact h x

omit [DecidableEq Place] in
theorem sweeps_congr {disk disk' : Place → Option Node} {e : Entry Place}
    (h : disk e.place = disk' e.place) : sweeps opts disk e = sweeps opts disk' e := by
  simp only [sweeps, h]

omit [DecidableEq Place] in
/-- Only files are swept. -/
theorem sweeps_file {disk : Place → Option Node} {e : Entry Place} (h : sweeps opts disk e = true) :
    ∃ modified, disk e.place = some (.file modified) := by
  unfold sweeps at h
  split at h
  · exact ⟨_, ‹_›⟩
  · simp at h

/-- What is swept is what was to be swept from the start, as far as it is still there. -/
theorem sweep_real (h : opts.dryRun = false) {disk₀ disk : Place → Option Node} (hd : Left disk₀ disk)
    (entries : List (Entry Place)) (n : ℕ) :
    entries.foldl (sweepEntry opts) (disk, n) =
      ((removeAll Node.removable disk (leftovers opts disk₀ entries)).1,
        n + (removeAll Node.removable disk (leftovers opts disk₀ entries)).2) := by
  induction entries generalizing disk n with
  | nil => rfl
  | cons e entries ih =>
    rw [List.foldl_cons, sweepEntry]
    by_cases hsweep : sweeps opts disk e = true
    · obtain ⟨modified, hfile⟩ := sweeps_file opts hsweep
      have hsame : disk e.place = disk₀ e.place := by
        rcases hd e.place with hsame | hgone
        · exact hsame
        · rw [hfile] at hgone
          cases hgone
      have hsweep₀ : sweeps opts disk₀ e = true := sweeps_congr opts hsame ▸ hsweep
      rw [if_pos hsweep, h, if_neg (by decide), ih (hd.remove e.place)]
      simp [leftovers, hsweep₀, Removals.removeAll, Nat.add_assoc]
    · rw [if_neg hsweep, ih hd]
      by_cases hsweep₀ : sweeps opts disk₀ e = true
      · have hgone : disk e.place = none := by
          rcases hd e.place with hsame | hgone
          · exact absurd (sweeps_congr opts hsame ▸ hsweep₀) hsweep
          · exact hgone
        simp [leftovers, hsweep₀, Removals.removeAll, Removals.remove, hgone]
      · simp [leftovers, hsweep₀]

theorem mem_deleteJobs {l : List StaleJob} {db : Db} {r : JobRow} :
    r ∈ (l.foldl deleteJob db).jobs.rows ↔ r ∈ db.jobs.rows ∧ ∀ j ∈ l, r.id ≠ j.id := by
  induction l generalizing db with
  | nil => simp
  | cons j l ih =>
    rw [List.foldl_cons, ih, deleteJob, Table.mem_delete, List.forall_mem_cons, and_assoc]
    simp

theorem deleteJobs_inputs (l : List StaleJob) (db : Db) :
    (l.foldl deleteJob db).inputs = db.inputs := by
  induction l generalizing db with
  | nil => rfl
  | cons j l ih => rw [List.foldl_cons, ih, deleteJob]

/-- No input becomes stale because deleted jobs go. -/
theorem staleInputs_deleteJobs (cutoff cutoff' : Int) (db : Db) :
    staleInputs cutoff' ((staleJobs cutoff db).foldl deleteJob db) = staleInputs cutoff' db := by
  have hlive : ∀ j ∈ db.jobs.rows, j.deletedAt = none →
      j ∈ ((staleJobs cutoff db).foldl deleteJob db).jobs.rows := by
    intro j hj hlive
    refine mem_deleteJobs.mpr ⟨hj, ?_⟩
    rintro x hx hid
    obtain ⟨r, hr, rfl⟩ := List.mem_map.mp hx
    obtain ⟨hmem, hold⟩ := List.mem_filter.mp hr
    obtain rfl := List.inj_on_of_nodup_map db.jobs.nodup hj hmem hid
    rw [deletedBefore, hlive] at hold
    cases hold
  unfold staleInputs
  rw [deleteJobs_inputs]
  refine List.filterMap_congr fun i _ => ?_
  have hrefer : (∀ j ∈ ((staleJobs cutoff db).foldl deleteJob db).jobs.rows,
      ¬ (j.inputId = i.id ∧ j.deletedAt = none)) ↔
      ∀ j ∈ db.jobs.rows, ¬ (j.inputId = i.id ∧ j.deletedAt = none) := by
    constructor
    · intro h j hj hrow
      exact h j (hlive j hj hrow.2) hrow
    · intro h j hj
      exact h j (mem_deleteJobs.mp hj).1
  simp only [hrefer]

/-- The leftovers of ComfyUI that a run on its own would sweep. -/
def comfyPlaces (disk : Place → Option Node) : List Place :=
  match layout.comfy with
  | none => []
  | some comfy => leftovers opts disk (comfyEntries comfy)

/-- Where the paths lead that the rows record, and the leftovers. -/
def touched (db : Db) (disk : Place → Option Node) : List Place :=
  jobPlaces layout (staleJobs opts.jobCutoff db) ++
    inputPlaces layout (staleInputs opts.inputCutoff db) ++ comfyPlaces layout opts disk

/-- The report of a dry run: every place counts. -/
def counted (db : Db) (disk : Place → Option Node) : PurgeReport where
  jobsHardDeleted := (staleJobs opts.jobCutoff db).length
  jobFilesRemoved := (jobPlaces layout (staleJobs opts.jobCutoff db)).length
  inputsPurged := (staleInputs opts.inputCutoff db).length
  inputFilesRemoved := (inputPlaces layout (staleInputs opts.inputCutoff db)).length
  comfyFilesRemoved := (comfyPlaces layout opts disk).length

/-- The disk after the stale jobs. -/
def afterJobs (db : Db) (disk : Place → Option Node) : Place → Option Node :=
  (removeAll Node.removable disk (jobPlaces layout (staleJobs opts.jobCutoff db))).1

/-- The disk after the stale inputs. -/
def afterInputs (db : Db) (disk : Place → Option Node) : Place → Option Node :=
  (removeAll Node.removable (afterJobs layout opts db disk)
    (inputPlaces layout (staleInputs opts.inputCutoff db))).1

/-- The report of a run: what is removed counts. -/
def removed (db : Db) (disk : Place → Option Node) : PurgeReport where
  jobsHardDeleted := (staleJobs opts.jobCutoff db).length
  jobFilesRemoved :=
    (removeAll Node.removable disk (jobPlaces layout (staleJobs opts.jobCutoff db))).2
  inputsPurged := (staleInputs opts.inputCutoff db).length
  inputFilesRemoved := (removeAll Node.removable (afterJobs layout opts db disk)
    (inputPlaces layout (staleInputs opts.inputCutoff db))).2
  comfyFilesRemoved := (removeAll Node.removable (afterInputs layout opts db disk)
    (comfyPlaces layout opts disk)).2

theorem run_dry (h : opts.dryRun = true) (db : Db) (disk : Place → Option Node) :
    run layout opts db disk = ⟨db, disk, counted layout opts db disk⟩ := by
  simp only [run, purgeJobs_dry layout opts h, purgeInputs_dry layout opts h, counted, comfyPlaces]
  cases layout.comfy with
  | none => simp [jobPlaces, inputPlaces]
  | some comfy =>
    simp only [sweepComfyLeftovers_eq, sweep_dry opts h]
    simp [jobPlaces, inputPlaces]

theorem run_real (h : opts.dryRun = false) (db : Db) (disk : Place → Option Node) :
    (run layout opts db disk).report = removed layout opts db disk := by
  have hleft : Left disk (afterInputs layout opts db disk) :=
    Left.removeAll (Left.removeAll (fun _ => .inl rfl) _) _
  have hdisk : afterInputs layout opts db disk = (removeAll Node.removable
      (removeAll Node.removable disk (jobPlaces layout (staleJobs opts.jobCutoff db))).1
      (inputPlaces layout (staleInputs opts.inputCutoff db))).1 := rfl
  rw [hdisk] at hleft
  simp only [run, purgeJobs_real layout opts h, staleInputs_deleteJobs,
    purgeInputs_real layout opts h, removed, afterInputs, afterJobs, comfyPlaces]
  cases layout.comfy with
  | none => simp [removeAll]
  | some comfy =>
    simp only [sweepComfyLeftovers_eq, sweep_real opts h hleft]
    simp

/-- A dry run counts what a run removes just when there is a file at every place, and no place is
touched twice. -/
theorem counted_eq_removed_iff (db : Db) (disk : Place → Option Node) :
    counted layout opts db disk = removed layout opts db disk ↔
      (touched layout opts db disk).Nodup ∧
        ∀ x ∈ touched layout opts db disk, (disk x).any Node.removable = true := by
  have hjobs := removeAll_le Node.removable disk (jobPlaces layout (staleJobs opts.jobCutoff db))
  have hinputs := removeAll_le Node.removable (afterJobs layout opts db disk)
    (inputPlaces layout (staleInputs opts.inputCutoff db))
  have hcomfy := removeAll_le Node.removable (afterInputs layout opts db disk)
    (comfyPlaces layout opts disk)
  have htotal : (removeAll Node.removable disk (touched layout opts db disk)).2 =
      (removed layout opts db disk).jobFilesRemoved + (removed layout opts db disk).inputFilesRemoved +
        (removed layout opts db disk).comfyFilesRemoved := by
    rw [touched, removeAll_append, removeAll_append]
    rfl
  rw [← removeAll_eq_length, htotal, counted, removed, PurgeReport.mk.injEq, touched,
    List.length_append, List.length_append]
  constructor
  · rintro ⟨-, hj, -, hi, hc⟩
    rw [hj, hi, hc]
  · intro hcount
    dsimp only at hcount
    omega

/-- A dry run from this state changes nothing, and reports what a run would. -/
structure Predicts (db : Db) (disk : Place → Option Node) : Prop where
  rows : (run layout { opts with dryRun := true } db disk).db = db
  files : (run layout { opts with dryRun := true } db disk).disk = disk
  report : (run layout { opts with dryRun := true } db disk).report =
    (run layout { opts with dryRun := false } db disk).report

/-- The counters of a dry run are those of a run just when the recorded paths and the leftovers are
files that are there, and no two of them are one file. -/
theorem predicts_iff (db : Db) (disk : Place → Option Node) : Predicts layout opts db disk ↔
    (touched layout opts db disk).Nodup ∧
      ∀ x ∈ touched layout opts db disk, (disk x).any Node.removable = true := by
  rw [← counted_eq_removed_iff]
  have hdry := run_dry layout { opts with dryRun := true } rfl db disk
  have hreal := run_real layout { opts with dryRun := false } rfl db disk
  constructor
  · intro h
    have hreport := h.report
    rw [hdry, hreal] at hreport
    exact hreport
  · intro hsame
    refine ⟨by rw [hdry], by rw [hdry], ?_⟩
    rw [hdry, hreal]
    exact hsame

end

/-- A deleted job whose renditions are no longer there. -/
def bareJob : JobRow :=
  { newJob "job-3" 1 none "make it blue" "edit" 600 7 100 with
    status := .done
    outputPath := some ⟨.outputs, "job-3.jpg"⟩
    thumbPath := some ⟨.thumbs, "job-3.jpg"⟩
    previewPath := some ⟨.previews, "job-3.jpg"⟩
    deletedAt := some 100 }

def bareDb : Db := ⟨⟨[bareJob], by decide⟩, Table.empty, Table.empty⟩

def bareDisk (p : DataPath) : Option Node :=
  if p = ⟨.outputs, "job-3.jpg"⟩ then some (.file (some 100)) else none

def plain : Layout DataPath := ⟨id, none⟩

/-- The dry run announces five files, the run removes one. -/
theorem dryRun_counts_missing :
    (run plain ⟨10000, 1000, 1000, true⟩ bareDb bareDisk).report = ⟨1, 5, 0, 0, 0⟩ ∧
      (run plain ⟨10000, 1000, 1000, false⟩ bareDb bareDisk).report = ⟨1, 1, 0, 0, 0⟩ ∧
      ¬ Predicts plain ⟨10000, 1000, 1000, true⟩ bareDb bareDisk := by
  have hdry : (run plain ⟨10000, 1000, 1000, true⟩ bareDb bareDisk).report = ⟨1, 5, 0, 0, 0⟩ := by
    decide +kernel
  have hreal : (run plain ⟨10000, 1000, 1000, false⟩ bareDb bareDisk).report = ⟨1, 1, 0, 0, 0⟩ := by
    decide +kernel
  refine ⟨hdry, hreal, fun h => ?_⟩
  have hreport := h.report
  rw [hdry, hreal] at hreport
  cases hreport

/-- The files of the server model, as a disk. -/
def diskOf (fs : Files) (p : DataPath) : Option Node := (fs p).map fun _ => .file none

/-- How far a purge has come, seen from here. -/
def view (w : World) (r : PurgeReport) : Run DataPath := ⟨w.db, diskOf w.files, r⟩

theorem removable_diskOf (fs : Files) (p : DataPath) :
    (diskOf fs p).any Node.removable = (fs p).isSome := by
  unfold diskOf
  cases fs p <;> rfl

theorem remove_diskOf (fs : Files) (p : DataPath) :
    remove Node.removable (diskOf fs) p = (diskOf (fs.put p none), (fs p).isSome) := by
  have hput : diskOf (fs.put p none) = Function.update (diskOf fs) p none := by
    funext q
    by_cases hq : q = p
    · subst hq
      simp [diskOf]
    · simp [diskOf, hq]
  rw [remove, removable_diskOf, hput]
  cases hp : fs p with
  | some b => rfl
  | none =>
    have hsame : Function.update (diskOf fs) p none = diskOf fs := by
      apply Function.update_eq_self_iff.mpr
      simp [diskOf, hp]
    rw [hsame]
    rfl

/-- The calls all succeed and lead from one state of the purge to another, with this in between seen
from here. -/
def Leads (w : World) (pc : PurgePc) (s : Run DataPath) (next : PurgeReport → PurgePc) : Prop :=
  ∃ fs w', (∀ f ∈ fs, f = .ok) ∧ runPurge fs (w, pc) = some (w', next s.report) ∧
    view w' s.report = s

theorem leads_files {o : PurgeOpts} (h : o.dryRun = false) (j : StaleJob) (todo : List StaleJob)
    (l : List DataPath) (w : World) (r : PurgeReport) :
    Leads w (.nextFile o r j todo l) (l.foldl (removeJobFile plain o) (view w r))
      (fun r => .deleteRow o r j todo) := by
  induction l generalizing w r with
  | nil => exact ⟨[], w, by simp, rfl, rfl⟩
  | cons p l ih =>
    have hstep : ∃ r', purgeStep (w, .nextFile o r j todo (p :: l)) .ok =
        some ({ w with files := w.files.put p none }, .nextFile o r' j todo l) ∧
        removeJobFile plain o (view w r) p = view { w with files := w.files.put p none } r' := by
      simp only [removeJobFile, h, plain, view, id, remove_diskOf]
      cases hp : w.files p with
      | none =>
        refine ⟨r, ?_, rfl⟩
        simp [purgeStep, PurgePc.nextFile, PurgePc.next, perform, exec, execFile, hp]
      | some b =>
        refine ⟨_, ?_, rfl⟩
        simp [purgeStep, PurgePc.nextFile, PurgePc.next, perform, exec, execFile, hp]
    obtain ⟨r', hstep, hview⟩ := hstep
    obtain ⟨fs, w', hfs, hrun, hend⟩ := ih { w with files := w.files.put p none } r'
    rw [List.foldl_cons, hview]
    exact ⟨.ok :: fs, w', by simpa using hfs, Runs.run_cons_some.mpr ⟨_, hstep, hrun⟩, hend⟩

theorem leads_jobs {o : PurgeOpts} (h : o.dryRun = false) (todo : List StaleJob) (w : World)
    (r : PurgeReport) : Leads w (.nextJob o r todo) (todo.foldl (purgeJob plain o) (view w r))
      (fun r => .selectStaleInputs o r) := by
  induction todo generalizing w r with
  | nil => exact ⟨[], w, by simp, rfl, rfl⟩
  | cons j todo ih =>
    obtain ⟨fs, w₁, hfs, hrun, hend⟩ := leads_files h j todo (files j) w r
    generalize hs₁ : (files j).foldl (removeJobFile plain o) (view w r) = s₁ at hrun hend
    let r₂ := { s₁.report with jobsHardDeleted := s₁.report.jobsHardDeleted + 1 }
    have hjob : purgeJob plain o (view w r) j = view { w₁ with db := deleteJob w₁.db j } r₂ := by
      have hdb : s₁.db = w₁.db := congrArg Run.db hend.symm
      have hdisk : s₁.disk = diskOf w₁.files := congrArg Run.disk hend.symm
      rw [purgeJob, hs₁]
      simp [h, view, r₂, hdb, hdisk]
    have hdelete : purgeStep (w₁, .deleteRow o s₁.report j todo) .ok =
        some ({ w₁ with db := deleteJob w₁.db j }, .nextJob o r₂ todo) := rfl
    obtain ⟨fs', w₂, hfs', hrun', hend'⟩ := ih { w₁ with db := deleteJob w₁.db j } r₂
    have hnext : PurgePc.nextJob o r (j :: todo) = .nextFile o r j todo (files j) := by
      simp [PurgePc.nextJob, h]
    rw [List.foldl_cons, hjob]
    refine ⟨fs ++ .ok :: fs', w₂, ?_, ?_, hend'⟩
    · intro f hf
      rcases List.mem_append.mp hf with hf | hf
      · exact hfs f hf
      · rcases List.mem_cons.mp hf with rfl | hf
        · rfl
        · exact hfs' f hf
    · rw [hnext]
      exact Runs.run_trans hrun (Runs.run_cons_some.mpr ⟨_, hdelete, hrun'⟩)

theorem leads_inputs {o : PurgeOpts} (h : o.dryRun = false) (todo : List (Int × DataPath))
    (w : World) (r : PurgeReport) :
    Leads w (.nextInput r todo) (todo.foldl (purgeInput plain o) (view w r))
      (fun r => .finished (.ok r)) := by
  induction todo generalizing w r with
  | nil => exact ⟨[], w, by simp, rfl, rfl⟩
  | cons x todo ih =>
    obtain ⟨i, p⟩ := x
    let w₁ := { w with files := w.files.put p none }
    let w₂ := { w₁ with db := clearPath w.db (i, p) }
    have hsteps : ∃ r₂, runPurge [.ok, .ok] (w, .nextInput r ((i, p) :: todo)) =
        some (w₂, .nextInput r₂ todo) ∧ purgeInput plain o (view w r) (i, p) = view w₂ r₂ := by
      simp only [purgeInput, h, plain, view, id, remove_diskOf]
      cases hp : w.files p with
      | none =>
        refine ⟨_, ?_, rfl⟩
        simp [purgeStep, PurgePc.nextInput, PurgePc.next, perform, exec, execFile, execSql, Sql.run, hp,
          w₂, w₁, clearPath]
      | some b =>
        refine ⟨_, ?_, rfl⟩
        simp [purgeStep, PurgePc.nextInput, PurgePc.next, perform, exec, execFile, execSql, Sql.run, hp,
          w₂, w₁, clearPath]
    obtain ⟨r₂, hrun, hview⟩ := hsteps
    obtain ⟨fs, w', hfs, hrun', hend⟩ := ih w₂ r₂
    rw [List.foldl_cons, hview]
    exact ⟨[.ok, .ok] ++ fs, w', by simpa using hfs, Runs.run_trans hrun hrun', hend⟩

theorem nextJob_dry {o : PurgeOpts} (h : o.dryRun = true) (r : PurgeReport) (todo : List StaleJob) :
    PurgePc.nextJob o r todo = .selectStaleInputs o
      { r with jobFilesRemoved := r.jobFilesRemoved + (todo.flatMap files).length
               jobsHardDeleted := r.jobsHardDeleted + todo.length } := by
  induction todo generalizing r with
  | nil => rfl
  | cons j todo ih =>
    simp only [PurgePc.nextJob, h, if_true, ih]
    simp [Nat.add_assoc, Nat.add_comm 1]

/-- The run on its own, by the steps of the server model. -/
theorem leads_run (o : PurgeOpts) (w : World) :
    Leads w (.selectStaleJobs o) (run plain o w.db (diskOf w.files)) (fun r => .finished (.ok r)) := by
  cases h : o.dryRun with
  | false =>
    obtain ⟨fs, w₁, hfs, hrun, hend⟩ := leads_jobs h (staleJobs o.jobCutoff w.db) w ⟨0, 0, 0, 0, 0⟩
    generalize hs₁ : (staleJobs o.jobCutoff w.db).foldl (purgeJob plain o)
      (view w ⟨0, 0, 0, 0, 0⟩) = s₁ at hrun hend
    obtain ⟨fs', w₂, hfs', hrun', hend'⟩ :=
      leads_inputs h (staleInputs o.inputCutoff s₁.db) w₁ s₁.report
    have hjobs : purgeStep (w, .selectStaleJobs o) .ok =
        some (w, .nextJob o ⟨0, 0, 0, 0, 0⟩ (staleJobs o.jobCutoff w.db)) := rfl
    have hdb : s₁.db = w₁.db := congrArg Run.db hend.symm
    have hinputs : purgeStep (w₁, .selectStaleInputs o s₁.report) .ok =
        some (w₁, .nextInput s₁.report (staleInputs o.inputCutoff s₁.db)) := by
      simp [purgeStep, PurgePc.next, perform, exec, execSql, Sql.run, h, hdb]
    have hall : run plain o w.db (diskOf w.files) =
        (staleInputs o.inputCutoff s₁.db).foldl (purgeInput plain o) (view w₁ s₁.report) := by
      rw [hend, ← hs₁]
      rfl
    rw [hall]
    refine ⟨.ok :: (fs ++ .ok :: fs'), w₂, ?_, ?_, hend'⟩
    · simp only [List.mem_cons, List.mem_append]
      rintro f (rfl | hf | rfl | hf)
      · rfl
      · exact hfs f hf
      · rfl
      · exact hfs' f hf
    · exact Runs.run_cons_some.mpr ⟨_, hjobs,
        Runs.run_trans hrun (Runs.run_cons_some.mpr ⟨_, hinputs, hrun'⟩)⟩
  | true =>
    refine ⟨[.ok, .ok], w, by simp, ?_, ?_⟩
    · rw [run_dry plain o h]
      simp [purgeStep, PurgePc.next, perform, exec, execSql, Sql.run, h, nextJob_dry h, counted,
        PurgePc.dryInputs, jobPlaces, inputPlaces, comfyPlaces, plain, staleJobs]
    · rw [run_dry plain o h]
      rfl

end ZunServer.DryRun
