import Mathlib.Data.List.ReduceOption
import ZunServer.RowInvariant

/-!
# Which file belongs to which job

The output of a job carries the job's id in its name, its renditions are named
by it, and nothing else is ever recorded in its row or removed along with it.
Ids have one length, so no file belongs to two jobs; an input file belongs to
none.
-/
namespace ZunServer.JobFiles

open KeyedTable
open Schema Statements Database Comfy Calls Renditions Worker Handlers Purge Server Rows Lifecycle
open WorkerSteps RenditionSteps RowInvariant SubmitSteps

/-- A file that ComfyUI has named for the job. -/
structure IsOutput (id : String) (p : DataPath) : Prop where
  sub : p.sub = .outputs
  filename : (outputPrefix id).toList <+: p.filename.toList

/-- What the row of a job may record. -/
def Recordable (id : String) (p : DataPath) : Prop :=
  IsOutput id p ∨ ∃ col, p = renditionOf col id .jpeg

/-- What a purge of the job may remove. -/
def Owned (id : String) (p : DataPath) : Prop :=
  IsOutput id p ∨ ∃ col fmt, p = renditionOf col id fmt

theorem Recordable.owned {id : String} {p : DataPath} (h : Recordable id p) : Owned id p :=
  h.imp_right fun ⟨col, he⟩ => ⟨col, .jpeg, he⟩

theorem IsOutput.not_rendition {id id' : String} {p : DataPath} (h : IsOutput id p) (col : Column)
    (fmt : DerivedFormat) : p ≠ renditionOf col id' fmt := by
  intro he
  have hsub := h.sub
  rw [he] at hsub
  cases col <;> cases hsub

theorem Owned.not_input {id : String} {p : DataPath} (h : Owned id p) : p.sub ≠ .cacheInputs := by
  rcases h with h | ⟨col, fmt, rfl⟩
  · rw [h.sub]
    exact Subdir.noConfusion
  · cases col <;> exact Subdir.noConfusion

theorem toList_length {id : String} (h : isUuid id) : id.toList.length = 36 := by
  rw [String.length_toList]
  exact h.1

theorem rendition_inj {col col' : Column} {id id' : String} {fmt fmt' : DerivedFormat}
    (hid : isUuid id) (hid' : isUuid id') (h : renditionOf col id fmt = renditionOf col' id' fmt') :
    id = id' ∧ fmt = fmt' := by
  have hname : id.toList ++ '.' :: fmt.extension.toList =
      id'.toList ++ '.' :: fmt'.extension.toList := by
    have he := congrArg (fun p => p.filename.toList) h
    simpa [renditionOf] using he
  obtain ⟨hstem, hext⟩ := List.append_inj hname (by rw [toList_length hid, toList_length hid'])
  refine ⟨String.toList_injective hstem, ?_⟩
  cases fmt <;> cases fmt' <;> first | rfl | exact absurd hext (by decide)

theorem IsOutput.unique {id id' : String} {p : DataPath} (hid : isUuid id) (hid' : isUuid id')
    (h : IsOutput id p) (h' : IsOutput id' p) : id = id' := by
  have hlen : (outputPrefix id).toList.length = (outputPrefix id').toList.length := by
    simp [outputPrefix, toList_length hid, toList_length hid']
  have hpre := List.prefix_of_prefix_length_le h.filename h'.filename (Nat.le_of_eq hlen)
  have heq := hpre.eq_of_length hlen
  simp only [outputPrefix, String.toList_append, List.append_cancel_left_eq] at heq
  exact String.toList_injective heq

/-- No file belongs to two jobs. -/
theorem Owned.unique {id id' : String} {p : DataPath} (hid : isUuid id) (hid' : isUuid id')
    (h : Owned id p) (h' : Owned id' p) : id = id' := by
  rcases h with h | ⟨col, fmt, rfl⟩
  · rcases h' with h' | ⟨col', fmt', rfl⟩
    · exact h.unique hid hid' h'
    · exact absurd rfl (h.not_rendition col' fmt')
  · rcases h' with h' | ⟨col', fmt', he⟩
    · exact absurd rfl (h'.not_rendition col fmt)
    · exact (rendition_inj hid hid' he).1

theorem toList_ne_nil {id : String} (h : isUuid id) : id.toList ≠ [] := by
  intro he
  have hlen := toList_length h
  rw [he] at hlen
  cases hlen

theorem avifSibling_rendition {id : String} (hne : id.toList ≠ []) (col : Column) :
    avifSibling (renditionOf col id .jpeg) = renditionOf col id .avif := by
  have hstem : fileStem (id ++ "." ++ DerivedFormat.jpeg.extension).toList = id.toList := by
    have hname : (id ++ "." ++ DerivedFormat.jpeg.extension).toList =
        id.toList ++ '.' :: "jpg".toList := by simp [DerivedFormat.extension]
    rw [hname]
    exact fileStem_append hne (by decide)
  have havif : id ++ ".avif" = id ++ "." ++ DerivedFormat.avif.extension := by
    rw [String.append_assoc]
    rfl
  simp only [avifSibling, renditionOf, hstem, String.ofList_toList, havif]

/-- The files a row records, as a purge sees the row. -/
def recorded (j : StaleJob) : List DataPath :=
  [j.outputPath, j.thumbPath, j.previewPath].reduceOption

theorem mem_recorded {j : StaleJob} {p : DataPath} :
    p ∈ recorded j ↔ j.outputPath = some p ∨ j.thumbPath = some p ∨ j.previewPath = some p := by
  simp [recorded, List.reduceOption_mem_iff, eq_comm]

theorem mem_files {j : StaleJob} {p : DataPath} :
    p ∈ Purge.files j ↔ p ∈ recorded j ∨
      ∃ q, (j.thumbPath = some q ∨ j.previewPath = some q) ∧ avifSibling q = p := by
  simp [Purge.files, recorded, List.reduceOption_mem_iff, eq_comm]

/-- Every recorded file is where the job's files are. -/
structure Placed (j : StaleJob) : Prop where
  output : ∀ p, j.outputPath = some p → IsOutput j.id p
  thumb : ∀ p, j.thumbPath = some p → p = renditionOf .thumb j.id .jpeg
  preview : ∀ p, j.previewPath = some p → p = renditionOf .preview j.id .jpeg

theorem Placed.recordable {j : StaleJob} (h : Placed j) {p : DataPath} (hp : p ∈ recorded j) :
    Recordable j.id p := by
  rcases mem_recorded.mp hp with hp | hp | hp
  · exact .inl (h.output p hp)
  · exact .inr ⟨.thumb, h.thumb p hp⟩
  · exact .inr ⟨.preview, h.preview p hp⟩

/-- Besides the recorded files, a purge removes AVIF files only. -/
theorem Placed.file {j : StaleJob} (h : Placed j) (hid : isUuid j.id) {p : DataPath}
    (hp : p ∈ Purge.files j) : p ∈ recorded j ∨ ∃ col, p = renditionOf col j.id .avif := by
  rcases mem_files.mp hp with hp | ⟨q, hq | hq, rfl⟩
  · exact .inl hp
  · rw [h.thumb q hq, avifSibling_rendition (toList_ne_nil hid)]
    exact .inr ⟨.thumb, rfl⟩
  · rw [h.preview q hq, avifSibling_rendition (toList_ne_nil hid)]
    exact .inr ⟨.preview, rfl⟩

/-- No file of a job is in the input cache. -/
theorem Placed.not_input {j : StaleJob} (h : Placed j) {p : DataPath} (hp : p ∈ Purge.files j) :
    p.sub ≠ .cacheInputs := by
  rcases mem_files.mp hp with hp | ⟨q, hq, rfl⟩
  · exact (h.recordable hp).owned.not_input
  · exact (h.recordable (mem_recorded.mpr (.inr hq))).owned.not_input

/-- What some row may record, a purge removes only along with that row. -/
theorem Placed.removes {j : StaleJob} (h : Placed j) (hj : isUuid j.id) {id : String} (hid : isUuid id)
    {p : DataPath} (hp : p ∈ Purge.files j) (hrec : Recordable id p) : j.id = id ∧ p ∈ recorded j := by
  rcases h.file hj hp with hp | ⟨col, rfl⟩
  · exact ⟨(h.recordable hp).owned.unique hj hid hrec.owned, hp⟩
  · exfalso
    rcases hrec with hout | ⟨col', he⟩
    · exact hout.not_rendition col .avif rfl
    · exact DerivedFormat.noConfusion (rendition_inj hj hid he).2

/-- The file a statement records, and in whose row. -/
def records : JobStmt → Option (String × DataPath)
  | .markDone _ id out _ _ => some (id, out)
  | .setDerivedPath _ id rel => some (id, rel)
  | _ => none

def PlacedStmt : JobStmt → Prop
  | .markDone _ id out _ _ => IsOutput id out
  | .setDerivedPath col id rel => rel = renditionOf col id .jpeg
  | _ => True

theorem stmt_placed {st : JobStmt} {r : JobRow} (hst : PlacedStmt st) (h : Placed (.of r)) :
    Placed (.of (st.update.row r)) := by
  refine row_cases (P := fun r' => Placed (.of r')) _ r (fun hc => ?_) h
  cases st with
  | markDone now id out w ht =>
    simp only [JobStmt.update, markDone, decide_eq_true_eq] at hc
    refine ⟨fun p hp => ?_, h.thumb, h.preview⟩
    obtain rfl := Option.some.inj hp
    obtain rfl := hc.1
    exact hst
  | setDerivedPath col id rel =>
    simp only [JobStmt.update, setDerivedPath, decide_eq_true_eq] at hc
    subst hc
    cases col with
    | thumb => exact ⟨h.output, fun p hp => (Option.some.inj hp).symm.trans hst, h.preview⟩
    | preview => exact ⟨h.output, h.thumb, fun p hp => (Option.some.inj hp).symm.trans hst⟩
  | _ => exact ⟨h.output, h.thumb, h.preview⟩

/-- Only these two statements record a file. -/
theorem stmt_recorded (st : JobStmt) {r : JobRow} {p : DataPath}
    (hp : p ∈ recorded (.of (st.update.row r))) :
    p ∈ recorded (.of r) ∨ records st = some (r.id, p) := by
  revert hp
  refine row_cases (P := fun r' => p ∈ recorded (.of r') → _) _ r (fun hc hp => ?_) .inl
  cases st with
  | markDone now id out w ht =>
    simp only [JobStmt.update, markDone, decide_eq_true_eq] at hc
    rcases mem_recorded.mp hp with hp | hp | hp
    · obtain rfl := Option.some.inj hp
      obtain rfl := hc.1
      exact .inr rfl
    · exact .inl (mem_recorded.mpr (.inr (.inl hp)))
    · exact .inl (mem_recorded.mpr (.inr (.inr hp)))
  | setDerivedPath col id rel =>
    simp only [JobStmt.update, setDerivedPath, decide_eq_true_eq] at hc
    subst hc
    cases col <;> rcases mem_recorded.mp hp with hp | hp | hp
    · exact .inl (mem_recorded.mpr (.inl hp))
    · exact .inr (congrArg (fun q => some (r.id, q)) (Option.some.inj hp))
    · exact .inl (mem_recorded.mpr (.inr (.inr hp)))
    · exact .inl (mem_recorded.mpr (.inl hp))
    · exact .inl (mem_recorded.mpr (.inr (.inl hp)))
    · exact .inr (congrArg (fun q => some (r.id, q)) (Option.some.inj hp))
  | _ => exact .inl hp

/-- A file that is recorded stays so: a completion finds nothing recorded, and a
rendition is recorded under the one name it has. -/
theorem stmt_keeps {st : JobStmt} {r : JobRow} {p : DataPath} (hok : RowOk r) (h : Placed (.of r))
    (hst : PlacedStmt st) (hp : p ∈ recorded (.of r)) : p ∈ recorded (.of (st.update.row r)) := by
  refine row_cases (P := fun r' => p ∈ recorded (.of r')) _ r (fun hc => ?_) hp
  cases st with
  | markDone now id out w ht =>
    simp only [JobStmt.update, markDone, decide_eq_true_eq] at hc
    have hnot : ¬ r.status = .done := by
      rw [hc.2]
      exact Status.noConfusion
    rcases mem_recorded.mp hp with hp | hp | hp
    · exact absurd (hok.output.mp (by rw [show r.outputPath = some p from hp]; simp)) hnot
    · exact absurd (hok.rendition (.inl (by rw [show r.thumbPath = some p from hp]; simp))) hnot
    · exact absurd (hok.rendition (.inr (by rw [show r.previewPath = some p from hp]; simp))) hnot
  | setDerivedPath col id rel =>
    simp only [JobStmt.update, setDerivedPath, decide_eq_true_eq] at hc
    subst hc
    have hrel : rel = renditionOf col r.id .jpeg := hst
    cases col <;> rcases mem_recorded.mp hp with hp | hp | hp
    · exact mem_recorded.mpr (.inl hp)
    · exact mem_recorded.mpr (.inr (.inl (congrArg some (hrel.trans (h.thumb p hp).symm))))
    · exact mem_recorded.mpr (.inr (.inr hp))
    · exact mem_recorded.mpr (.inl hp)
    · exact mem_recorded.mpr (.inr (.inl hp))
    · exact mem_recorded.mpr (.inr (.inr (congrArg some (hrel.trans (h.preview p hp).symm))))
  | _ => exact hp

def PlacedPc : WorkerPc → Prop
  | .process job stage => match stage with
    | .view _ _ img => (outputPrefix job.id).toList <+: img.filename.toList
    | .writeOutput out _ | .readDimensions out | .markDone out _ _ => IsOutput job.id out
    | _ => True
  | _ => True

/-- The output file the worker has written and not yet recorded, and its job. -/
def written : WorkerPc → Option (String × DataPath)
  | .process job (.readDimensions out) | .process job (.markDone out _ _) => some (job.id, out)
  | _ => none

def PlacedSubmit : SubmitPc → Prop
  | .write _ _ _ _ _ path | .dimensions _ _ _ _ _ path => path.sub = .cacheInputs
  | .updateInput _ _ _ _ fields | .insertInput _ _ _ fields => fields.path.sub = .cacheInputs
  | _ => True

def PlacedDerived : DerivedPc → Prop
  | .renderJpegFirst c _ dst | .persistJpegFirst c _ dst | .renderJpeg c _ dst
  | .persistJpeg c dst => dst = renditionOf c.col c.jobId .jpeg
  | .renderAvif c _ dst => dst = renditionOf c.col c.jobId .avif
  | _ => True

def PlacedGenerate : GeneratePc → Prop
  | .render id _ dst col fmt _ => dst = renditionOf col id fmt
  | .persist id _ dst col _ => dst = renditionOf col id .jpeg
  | .finished => True

def PlacedPurge : PurgePc → Prop
  | .removeFile _ _ j p rest todo =>
    (∀ q ∈ p :: rest, q ∈ Purge.files j) ∧ Placed j ∧ ∀ k ∈ todo, Placed k
  | .deleteRow _ _ j todo => Placed j ∧ ∀ k ∈ todo, Placed k
  | .removeInput _ _ p todo => p.sub = .cacheInputs ∧ ∀ x ∈ todo, x.2.sub = .cacheInputs
  | .clearPath _ _ todo => ∀ x ∈ todo, x.2.sub = .cacheInputs
  | .selectStaleJobs _ | .selectStaleInputs _ _ | .finished _ => True

def PlacedTask : ServerTask → Prop
  | .submit pc => PlacedSubmit pc
  | .derived pc => PlacedDerived pc
  | .generate pc => PlacedGenerate pc
  | .purge pc => PlacedPurge pc
  | .cancel _ | .hide _ | .get _ | .prompt _ | .dropped => True

structure Filed (s : State) : Prop where
  rows : ∀ r ∈ s.world.db.jobs.rows, Placed (.of r)
  inputs : ∀ r ∈ s.world.db.inputs.rows, ∀ p, r.path = some p → p.sub = .cacheInputs
  worker : PlacedPc s.worker
  tasks : ∀ (i : Nat) τ, s.tasks[i]? = some τ → PlacedTask τ

theorem Filed.stmt {s : State} (h : Filed s) {a : Act} {st : JobStmt} (hst : Issues s a st) :
    PlacedStmt st := by
  cases hst with
  | markDone hw =>
    have hpc := h.worker
    rw [hw] at hpc
    exact hpc
  | persistJpegFirst hi => exact h.tasks _ _ hi
  | persistJpeg hi => exact h.tasks _ _ hi
  | generated hi => exact h.tasks _ _ hi
  | hide hi =>
    rename_i i k id now
    cases k <;> trivial
  | _ => trivial

/-- What a call of the worker does about the output of its job. -/
structure WritesOutput (w' : World) (pc pc' : WorkerPc) : Prop where
  placed : PlacedPc pc → PlacedPc pc'
  written : ∀ x, written pc' = some x → written pc = some x ∨ (w'.files x.2).isSome = true

theorem WritesOutput.other {w' : World} {pc pc' : WorkerPc} (hp : PlacedPc pc')
    (hw : JobFiles.written pc' = none) : WritesOutput w' pc pc' where
  placed _ := hp
  written x hx := by
    rw [hw] at hx
    cases hx

theorem WritesOutput.errorArm {w' : World} {pc pc' : WorkerPc} {job : QueuedJob}
    (h : ErrorArm job pc') : WritesOutput w' pc pc' := by
  cases h <;> exact .other trivial rfl

theorem stage_output {w w' : World} {f : Fate} {job : QueuedJob} {stage : Stage} {pc : WorkerPc}
    {l : List GeneratePc} (h : StageStep w w' f job stage pc l) :
    WritesOutput w' (.process job stage) pc := by
  cases h with
  | goes hg =>
    cases hg with
    | matched himg => exact .other himg rfl
    | viewed hout =>
      rw [dataPath_ok hout]
      exact ⟨fun hp => ⟨rfl, hp⟩, fun x hx => by cases hx⟩
    | wrote hfile =>
      refine ⟨fun hp => hp, fun x hx => .inr ?_⟩
      cases hx
      exact hfile
    | measured => exact ⟨fun hp => hp, fun x hx => .inl hx⟩
    | _ => exact .other trivial rfl
  | fails _ he => exact .errorArm he
  | _ => exact .other trivial rfl

theorem worker_output {cfg : Config} {pc pc' : WorkerPc} {f : Fate} {w w' : World}
    {l : List GeneratePc} (h : perform (pc.next cfg w.now) f w = some (w', pc', l)) :
    WritesOutput w' pc pc' := by
  cases worker_step h with
  | stage hs => exact stage_output hs
  | claimFails hf he => exact .errorArm he
  | free _ h' =>
    refine .other ?_ ?_ <;> cases pc' <;> trivial
  | _ => exact .other trivial rfl

theorem placed_start (cfg : Config) (now : Int) (f : SubmitFields) :
    PlacedSubmit (.start cfg now f) := by
  rcases SubmitPc.start_cases cfg now f with ⟨e, h⟩ | ⟨-, ⟨pid, h⟩ | ⟨p, h⟩⟩ <;> (rw [h]; trivial)

theorem placed_needUpload (f : SubmitFields) (p : Resolved) (now : Int) (row : Option Int) :
    PlacedSubmit (.needUpload f p now row) := by
  rcases SubmitPc.needUpload_cases f p now row with ⟨e, h⟩ | ⟨u, path, hpath, h⟩
  · rw [h]
    trivial
  · rw [h, dataPath_ok hpath]
    exact rfl

theorem placed_submit {w w' : World} {f : Fate} {pc pc' : SubmitPc}
    (hp : PlacedSubmit pc) (hs : SubmitStep w w' f pc pc') : PlacedSubmit pc' := by
  cases hs with
  | refused hw | prompt hw => trivial
  | absent hf hw hnone => exact placed_needUpload _ _ _ _
  | noPath hw hr hsha hpath => exact placed_needUpload _ _ _ _
  | cleared hf hin hfs => exact placed_needUpload _ _ _ _
  | wrote hf hdb hfs => exact hp
  | decodedOld hdb hfs hfields => exact (congrArg DataPath.sub hfields).trans hp
  | decodedNew hdb hfs hfields => exact (congrArg DataPath.sub hfields).trans hp
  | _ => trivial

theorem placed_rendering {id : String} {pc : GeneratePc} (h : Rendering id pc) :
    PlacedGenerate pc := by
  cases h <;> first | rfl | trivial

theorem placed_generate {w' : World} {pc pc' : GeneratePc} (h : GenerateStep w' pc pc')
    (hp : PlacedGenerate pc) : PlacedGenerate pc' := by
  cases h with
  | goes _ hrest => exact placed_rendering hrest
  | rendered _ => exact hp

theorem placed_trying {col : Column} {id : String} {pc : DerivedPc} (h : Trying col id pc) :
    PlacedDerived pc := by
  cases h with
  | renderJpegFirst hcol hid | renderJpeg hcol hid | renderAvif hcol hid =>
    subst hcol hid
    exact rfl
  | _ => trivial

theorem placed_derived {w w' : World} {pc pc' : DerivedPc} (h : DerivedStep w w' pc pc')
    (hp : PlacedDerived pc) : PlacedDerived pc' := by
  cases h with
  | selected _ _ htry | goes _ htry => exact placed_trying htry
  | ended r => trivial
  | renderedFirst _ | rendered _ => exact hp

theorem placed_nextFile {o : PurgeOpts} {r : PurgeReport} {j : StaleJob} {todo : List StaleJob}
    {l : List DataPath} (hl : ∀ q ∈ l, q ∈ Purge.files j) (hj : Placed j)
    (htodo : ∀ k ∈ todo, Placed k) : PlacedPurge (.nextFile o r j todo l) := by
  cases l with
  | nil => exact ⟨hj, htodo⟩
  | cons p rest => exact ⟨hl, hj, htodo⟩

/-- A purge goes on to the files of the next job, or to the inputs: a dry run
counts the jobs and passes them by. -/
theorem nextJob_cases (o : PurgeOpts) (r : PurgeReport) (todo : List StaleJob) :
    (∃ r', PurgePc.nextJob o r todo = .selectStaleInputs o r') ∨
      ∃ r' j todo', PurgePc.nextJob o r todo = .nextFile o r' j todo' (Purge.files j) ∧
        (j :: todo') <:+ todo := by
  induction todo generalizing r with
  | nil => exact .inl ⟨r, rfl⟩
  | cons j todo ih =>
    unfold PurgePc.nextJob
    split
    · rcases ih _ with hinputs | ⟨r', k, todo', he, hsuf⟩
      · exact .inl hinputs
      · exact .inr ⟨r', k, todo', he, hsuf.trans (List.suffix_cons j todo)⟩
    · exact .inr ⟨r, j, todo, rfl, List.suffix_rfl⟩

theorem placed_nextJob (o : PurgeOpts) (r : PurgeReport) {todo : List StaleJob}
    (htodo : ∀ k ∈ todo, Placed k) : PlacedPurge (.nextJob o r todo) := by
  rcases nextJob_cases o r todo with ⟨r', he⟩ | ⟨r', j, todo', he, hsuf⟩
  · rw [he]
    trivial
  · have hrest : ∀ k ∈ j :: todo', Placed k := fun k hk => htodo k (hsuf.subset hk)
    rw [he]
    exact placed_nextFile (fun q hq => hq) (hrest j List.mem_cons_self)
      fun k hk => hrest k (List.mem_cons_of_mem j hk)

theorem placed_nextInput (r : PurgeReport) {todo : List (Int × DataPath)}
    (htodo : ∀ x ∈ todo, x.2.sub = .cacheInputs) : PlacedPurge (.nextInput r todo) := by
  cases todo with
  | nil => trivial
  | cons x todo =>
    exact ⟨htodo x List.mem_cons_self, fun y hy => htodo y (List.mem_cons_of_mem x hy)⟩

theorem mem_staleInputs {cutoff : Int} {db : Db} {x : Int × DataPath}
    (hx : x ∈ staleInputs cutoff db) : ∃ r ∈ db.inputs.rows, r.id = x.1 ∧ r.path = some x.2 ∧
      ∀ j ∈ db.jobs.rows, j.inputId = x.1 → j.deletedAt ≠ none := by
  obtain ⟨r, hr, he⟩ := List.mem_filterMap.mp hx
  split at he
  · rename_i hstale
    obtain ⟨p, hp, rfl⟩ := Option.map_eq_some_iff.mp he
    exact ⟨r, hr, rfl, hp, fun j hj hid hlive => hstale.2 j hj ⟨hid, hlive⟩⟩
  · cases he

/-- A file is removed, found to be gone, or stays because the call fails. -/
def RemoveFile (w w' : World) (f : Fate) (p : DataPath) : Prop :=
  (f = .ok ∧ w' = { w with files := w.files.put p none }) ∨ (w' = w ∧ ∃ e, f = .ioFails e)

/-- What a call of `purge::run` leads to. -/
inductive PurgeStep (w w' : World) (f : Fate) : PurgePc → PurgePc → Prop
  | fails {pc : PurgePc} {e : String} (hw : w' = w) (hpc : removing pc = none) :
      PurgeStep w w' f pc (.finished (.error e))
  | selected {o : PurgeOpts} (hw : w' = w) :
      PurgeStep w w' f (.selectStaleJobs o) (.nextJob o ⟨0, 0, 0, 0, 0⟩
        ((w.db.jobs.rows.filter (deletedBefore o.jobCutoff)).map StaleJob.of))
  | removed {o : PurgeOpts} {r r' : PurgeReport} {j : StaleJob} {p : DataPath}
      {rest : List DataPath} {todo : List StaleJob} (h : RemoveFile w w' f p) :
      PurgeStep w w' f (.removeFile o r j p rest todo) (.nextFile o r' j todo rest)
  | deleted {o : PurgeOpts} {r r' : PurgeReport} {j : StaleJob} {todo : List StaleJob}
      (hw : w' = { w with db := { w.db with jobs := w.db.jobs.delete fun r => r.id = j.id } }) :
      PurgeStep w w' f (.deleteRow o r j todo) (.nextJob o r' todo)
  | counted {o : PurgeOpts} {r r' : PurgeReport} (hw : w' = w) :
      PurgeStep w w' f (.selectStaleInputs o r) (.finished (.ok r'))
  | selectedInputs {o : PurgeOpts} {r : PurgeReport} (hf : f = .ok) (hdry : o.dryRun = false)
      (hw : w' = w) :
      PurgeStep w w' f (.selectStaleInputs o r) (.nextInput r (staleInputs o.inputCutoff w.db))
  | removedInput {r r' : PurgeReport} {id : Int} {p : DataPath} {todo : List (Int × DataPath)}
      (h : RemoveFile w w' f p) :
      PurgeStep w w' f (.removeInput r id p todo) (.clearPath r' id todo)
  | cleared {r r' : PurgeReport} {id : Int} {todo : List (Int × DataPath)}
      (hw : w' = { w with db := { w.db with inputs := w.db.inputs.update (clearInputPath id) } }) :
      PurgeStep w w' f (.clearPath r id todo) (.nextInput r' todo)

theorem removeFile_call {w w' : World} {f : Fate} {p : DataPath} {x : Removal}
    (h : exec w (.file (.removeFile p)) f = some (w', x)) : RemoveFile w w' f p := by
  cases f <;> cases h
  · exact .inl ⟨rfl, rfl⟩
  · exact .inr ⟨rfl, _, rfl⟩

theorem purge_step {w w' : World} {f : Fate} {pc pc' : PurgePc}
    (h : perform pc.next f w = some (w', pc')) : PurgeStep w w' f pc pc' := by
  obtain ⟨c, k, x, hc, hex, hk⟩ := perform_eq_some.mp h
  cases pc with
  | selectStaleJobs o =>
    cases hc
    rcases exec_sql_ok rfl hex with ⟨-, hw, e, rfl⟩ | ⟨-, hw, rfl⟩ <;> cases hk
    · exact .fails hw rfl
    · exact .selected hw
  | removeFile o r j p rest todo =>
    cases hc
    cases x <;> cases hk <;> exact .removed (removeFile_call hex)
  | deleteRow o r j todo =>
    cases hc
    rcases exec_sql_ok rfl hex with ⟨-, hw, e, rfl⟩ | ⟨-, hw, rfl⟩ <;> cases hk
    · exact .fails hw rfl
    · exact .deleted hw
  | selectStaleInputs o r =>
    cases hc
    rcases exec_sql_ok rfl hex with ⟨-, hw, e, rfl⟩ | ⟨hf, hw, rfl⟩
    · cases hk
      exact .fails hw rfl
    · dsimp only at hk
      split at hk
      · cases hk
        exact .counted hw
      · rename_i hdry
        cases hk
        exact .selectedInputs hf (Bool.eq_false_iff.mpr hdry) hw
  | removeInput r id p todo =>
    cases hc
    cases x <;> cases hk <;> exact .removedInput (removeFile_call hex)
  | clearPath r id todo =>
    cases hc
    rcases exec_sql_ok rfl hex with ⟨-, hw, e, rfl⟩ | ⟨-, hw, rfl⟩ <;> cases hk
    · exact .fails hw rfl
    · exact .cleared hw
  | finished r => cases hc

theorem placed_purge {pc pc' : PurgePc} {f : Fate} {w w' : World} (h : PurgeStep w w' f pc pc')
    (hrows : ∀ r ∈ w.db.jobs.rows, Placed (.of r))
    (hinputs : ∀ r ∈ w.db.inputs.rows, ∀ p, r.path = some p → p.sub = .cacheInputs)
    (hp : PlacedPurge pc) : PlacedPurge pc' := by
  cases h with
  | fails _ | counted _ => trivial
  | selected hw =>
    refine placed_nextJob _ _ fun j hj => ?_
    obtain ⟨r, hr, rfl⟩ := List.mem_map.mp hj
    exact hrows r (List.mem_filter.mp hr).1
  | removed =>
    obtain ⟨hfiles, hj, htodo⟩ := hp
    exact placed_nextFile (fun q hq => hfiles q (List.mem_cons_of_mem _ hq)) hj htodo
  | deleted => exact placed_nextJob _ _ hp.2
  | selectedInputs hf hdry hw =>
    refine placed_nextInput _ fun x hx => ?_
    obtain ⟨row, hrow, -, hpath, -⟩ := mem_staleInputs hx
    exact hinputs row hrow _ hpath
  | removedInput => exact hp.2
  | cleared => exact placed_nextInput _ hp

theorem placed_task {cfg : Config} {s : State} (h : Filed s) {τ₀ τ : ServerTask} {f : Fate}
    {w' : World} (hcall : perform (τ₀.next cfg s.world.now) f s.world = some (w', τ))
    (hτ₀ : PlacedTask τ₀) : PlacedTask τ := by
  cases task_moved hcall with
  | submit hp => exact placed_submit hτ₀ (submit_step hp)
  | derived hp => exact placed_derived (derived_step hp) hτ₀
  | generate hp => exact placed_generate (generate_step hp) hτ₀
  | purge hp => exact placed_purge (purge_step hp) h.rows h.inputs hτ₀
  | cancel _ | hide _ | get _ | prompt _ => trivial

theorem input_update {s t : State} {u : Update InputRow.id} (h : Filed s)
    (hu : ∀ r p, (u.set r).path = some p → p.sub = .cacheInputs ∨ r.path = some p)
    (he : t.world.db.inputs = s.world.db.inputs.update u) :
    ∀ r ∈ t.world.db.inputs.rows, ∀ p, r.path = some p → p.sub = .cacheInputs := by
  intro r hr p hp
  rw [he] at hr
  obtain ⟨r₀, hr₀, rfl⟩ := Table.mem_update.mp hr
  unfold Update.row at hp
  split at hp
  · rcases hu r₀ p hp with hsub | hold
    · exact hsub
    · exact h.inputs r₀ hr₀ p hold
  · exact h.inputs r₀ hr₀ p hp

theorem Filed.step {cfg : Config} {s t : State} {a : Act} (h : Filed s) (hm : Moved cfg s t a) :
    Filed t where
  rows r hr := by
    cases hm.jobs with
    | same he => exact h.rows r (he ▸ hr)
    | update hst he =>
      rw [he] at hr
      obtain ⟨r₀, hr₀, rfl⟩ := Table.mem_update.mp hr
      exact stmt_placed (h.stmt hst) (h.rows r₀ hr₀)
    | insert ha hi hins =>
      rw [(Table.insert?_eq_some.mp hins).2] at hr
      rcases List.mem_append.mp hr with hr | hr
      · exact h.rows r hr
      · obtain rfl := List.mem_singleton.mp hr
        refine ⟨?_, ?_, ?_⟩ <;> (intro p hp; cases hp)
    | delete ha hi he =>
      rw [he] at hr
      exact h.rows r (Table.mem_delete.mp hr).1
  inputs := by
    cases hm.inputs with
    | same he =>
      rw [he]
      exact h.inputs
    | touched hi he => exact input_update h (fun r p hp => .inr hp) he
    | cleared hi he | purged hi he => exact input_update h (fun r p hp => by cases hp) he
    | stored hi he =>
      refine input_update h (fun r p hp => .inl ?_) he
      obtain rfl := Option.some.inj hp
      exact h.tasks _ _ hi
    | inserted hi hnew he =>
      intro r hr p hp
      rw [(Table.insert?_eq_some.mp he).2] at hr
      rcases List.mem_append.mp hr with hr | hr
      · exact h.inputs r hr p hp
      · obtain rfl := List.mem_singleton.mp hr
        obtain rfl := Option.some.inj hp
        exact h.tasks _ _ hi
  worker := by
    cases hm with
    | worker hp _ => exact (worker_output hp).placed h.worker
    | task _ _ hw _ | writer _ hw _ | arrive _ hw _ | drop _ _ _ hw _ | env _ hw _ =>
      rw [hw]
      exact h.worker
    | crash he =>
      rw [he]
      trivial
  tasks i τ hi := by
    cases hm.origin hi with
    | kept hi₀ _ => exact h.tasks i τ hi₀
    | moved hi₀ hp => exact placed_task h hp (h.tasks i _ hi₀)
    | arrived hlen hτ =>
      rename_i r
      subst hτ
      cases r with
      | submit f => exact placed_start cfg _ f
      | _ => trivial
    | spawned _ hp hg hτ =>
      subst hτ
      obtain ⟨job, out, wd, ht, r, -, rfl, -⟩ := spawned_done (worker_step hp) hg
      exact placed_rendering (rendering_go _ _ _)
    | dropped hτ =>
      subst hτ
      trivial

theorem Filed.init : Filed State.init where
  rows r h := by simp [State.init, World.empty, Db.empty, Table.empty] at h
  inputs r h := by simp [State.init, World.empty, Db.empty, Table.empty] at h
  worker := trivial
  tasks i τ h := by simp [State.init] at h

theorem reachable_filed {cfg : Config} {s : State} (h : Reachable cfg s) : Filed s :=
  Runs.Reachable.invariant Filed.init (fun _ _ _ hf hs => hf.step (step_moved hs)) h

end ZunServer.JobFiles
