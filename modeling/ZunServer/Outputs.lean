import ZunServer.FileWrites
import ZunServer.Retention

/-!
# Output files and the rows that record them

The worker writes the output of its job first and records it in the row
afterwards, under a guard. A purge removes the files a row recorded when it read
the row, and then the row, whatever became of either. Nothing else ever looks at
the directory, so a file that no row records stays.
-/
namespace ZunServer.Outputs

open KeyedTable
open Schema Statements Database Comfy Calls Renditions Worker Handlers CustomPrompts Purge Server
open Rows Lifecycle SubmitSteps WorkerSteps FileWrites JobFiles RowInvariant Retention

/-- The job that the worker is about to complete, and what becomes of the `UPDATE`. -/
def completing (s : State) : Act → Option (QueuedJob × Fate)
  | .worker f => match s.worker with
    | .process job (.markDone _ _ _) => some (job, f)
    | _ => none
  | _ => none

/-- The output file that a purge fails to remove. -/
def spares (s : State) : Act → Option DataPath
  | .task i (.ioFails _) => match s.tasks[i]? with
    | some (.purge (.removeFile _ _ _ p _ _)) => if p.sub = .outputs then some p else none
    | _ => none
  | _ => none

/-- The worker is at the write of an output file. Where the process dies in the
middle of it, the staging file stays behind. -/
def writing : WorkerPc → Bool
  | .process _ (.writeOutput _ _) => true
  | _ => false

/-- The `UPDATE` that completes a job succeeds, on a running row that no purge has
read; the process does not die from the write of the output file to that `UPDATE`;
no purge fails to remove an output file that is there. -/
structure Tidy (s : State) (a : Act) : Prop where
  completes : ∀ x ∈ completing s a, x.2 = .ok ∧
    (row? s x.1.id).map JobRow.status = some .running ∧ x.1.id ∉ purging s
  survives : staysUp a = true ∨ (writing s.worker = false ∧ written s.worker = none)
  removes : ∀ p ∈ spares s a, s.world.files p = none

instance (s : State) (a : Act) : Decidable (Tidy s a) :=
  decidable_of_iff ((∀ x ∈ completing s a, x.2 = .ok ∧
      (row? s x.1.id).map JobRow.status = some .running ∧ x.1.id ∉ purging s) ∧
    (staysUp a = true ∨ (writing s.worker = false ∧ written s.worker = none)) ∧
    ∀ p ∈ spares s a, s.world.files p = none)
    ⟨fun ⟨h₁, h₂, h₃⟩ => ⟨h₁, h₂, h₃⟩, fun h => ⟨h.1, h.2, h.3⟩⟩

/-- The stale job a purge is at, and the files of it that are still to remove. -/
def removal : PurgePc → Option (StaleJob × List DataPath)
  | .removeFile _ _ j p rest _ => some (j, p :: rest)
  | .deleteRow _ _ j _ => some (j, [])
  | _ => none

structure Accounted (s : State) : Prop where
  inv : Inv s
  filed : Filed s
  undone : ∀ job stage, s.worker = .process job stage → claimed stage = true →
    OnRow s job.id fun r => r.status ≠ .done
  read : ∀ (i : Nat) pc j, s.tasks[i]? = some (.purge pc) → j ∈ entries pc →
    Settled s j.id ∧ OnRow s j.id fun r => r.outputPath = j.outputPath
  removed : ∀ (i : Nat) pc j l, s.tasks[i]? = some (.purge pc) → removal pc = some (j, l) →
    OnRow s j.id fun r => ∀ p, r.outputPath = some p → p ∈ l ∨ s.world.files p = none
  recorded : ∀ p : DataPath, p.sub = .outputs → (s.world.files p).isSome = true →
    (∃ r ∈ s.world.db.jobs.rows, r.outputPath = some p) ∨
      (written s.worker).map Prod.snd = some p

theorem completing_eq {s : State} {f : Fate} {job : QueuedJob} {out : DataPath}
    {w h : Option Int} (hw : s.worker = .process job (.markDone out w h)) :
    completing s (.worker f) = some (job, f) := by
  simp only [completing, hw]

/-- Only the completion of a job changes its output path. -/
theorem stmt_outputPath {s : State} {a : Act} {st : JobStmt} (hst : Issues s a st) (r : JobRow) :
    (st.update.row r).outputPath = r.outputPath ∨
      ∃ job, completing s a = some (job, .ok) ∧ r.id = job.id ∧ r.status = .running := by
  refine row_cases (P := fun r' => r'.outputPath = r.outputPath ∨ _) _ r (fun hc => ?_) (.inl rfl)
  cases hst with
  | markDone hw =>
    simp only [JobStmt.update, markDone, decide_eq_true_eq] at hc
    exact .inr ⟨_, completing_eq hw, hc⟩
  | hide hi =>
    rename_i i k id now
    cases k <;> exact .inl rfl
  | persistJpegFirst hi | persistJpeg hi | generated hi =>
    refine .inl ?_
    simp only [JobStmt.update, setDerivedPath]
    split <;> rfl
  | _ => exact .inl rfl

/-- A row that a purge has read keeps its output path. -/
theorem outputPath_step {cfg : Config} {s t : State} {a : Act} (hm : Moved cfg s t a)
    (htidy : Tidy s a) {id : String} (hset : Settled s id) (hpurge : id ∈ purging s)
    {P : Option DataPath → Prop} (h : OnRow s id fun r => P r.outputPath) :
    OnRow t id fun r => P r.outputPath := by
  refine h.step hm hset fun st r hst hr hp => ?_
  rcases stmt_outputPath hst r with he | ⟨job, hjob, hid, -⟩
  · exact he.symm ▸ hp
  · have hnot := (htidy.completes _ hjob).2.2
    rw [← hid, Table.find?_key hr] at hnot
    exact absurd hpurge hnot

/-- Only the completion of a job makes its row done. -/
theorem stmt_done {s : State} {a : Act} {st : JobStmt} (hst : Issues s a st)
    (hidle : completing s a = none) {r : JobRow} (hr : r.status ≠ .done) :
    (st.update.row r).status ≠ .done := by
  refine row_cases (P := fun r' => r'.status ≠ .done) _ r (fun _ => ?_) hr
  cases hst with
  | markDone hw =>
    rw [completing_eq hw] at hidle
    cases hidle
  | @hide i k id now hi => cases k <;> exact hr
  | persistJpegFirst hi | persistJpeg hi | generated hi =>
    simp only [JobStmt.update, setDerivedPath]
    split <;> exact hr
  | storePromptId hw | progress hw hp => exact hr
  | _ => exact Status.noConfusion

theorem GoesOn.not_completing {w w' : World} {f f' : Fate} {s : State} {job : QueuedJob}
    {stage stage' : Stage} (h : GoesOn w w' f job stage stage')
    (hw : s.worker = .process job stage) : completing s (.worker f') = none := by
  unfold completing
  rw [hw]
  cases h <;> rfl

/-- The worker has not completed the job it is at. -/
theorem undone_step {cfg : Config} {s t : State} {a : Act} (h : Accounted s) (hm : Moved cfg s t a)
    {job : QueuedJob} {stage : Stage} (ht : t.worker = .process job stage)
    (hc : claimed stage = true) : OnRow t job.id fun r => r.status ≠ .done := by
  have stays : ∀ stage', s.worker = .process job stage' → claimed stage' = true →
      completing s a = none → OnRow t job.id fun r => r.status ≠ .done := by
    intro stage' hs hc' hidle
    refine (h.undone job stage' hs hc').step hm (h.inv.process job stage' hs hc').1 ?_
    exact fun st r hst _ hr => stmt_done hst hidle hr
  rcases stage_origin hm ht hc with ⟨hn, hran, -⟩ | ⟨f, stage', rfl, hpc, hg⟩ | ⟨hpc, hne⟩
  · exact (claim_won hn hran).mono fun r hr => by simp [hr]
  · exact stays stage' hpc hg.claimed.1 (GoesOn.not_completing hg hpc)
  · refine stays stage hpc hc ?_
    unfold completing
    split
    · exact absurd rfl (hne _)
    · rfl

theorem removal_entry {pc : PurgePc} {j : StaleJob} {l : List DataPath}
    (h : removal pc = some (j, l)) : j ∈ entries pc := by
  cases pc <;> cases h <;> exact List.mem_cons_self

theorem removal_nextFile (o : PurgeOpts) (r : PurgeReport) (j : StaleJob) (todo : List StaleJob)
    (l : List DataPath) : removal (.nextFile o r j todo l) = some (j, l) := by
  cases l <;> rfl

/-- The first job a purge comes to, it has all the files of still to remove. -/
theorem removal_nextJob {o : PurgeOpts} {r : PurgeReport} {todo : List StaleJob} {j : StaleJob}
    {l : List DataPath} (h : removal (.nextJob o r todo) = some (j, l)) : l = Purge.files j := by
  rcases nextJob_cases o r todo with ⟨r', he⟩ | ⟨r', k, todo', he, -⟩
  · rw [he] at h
    cases h
  · rw [he, removal_nextFile] at h
    cases h
    rfl

theorem removal_nextInput (r : PurgeReport) (todo : List (Int × DataPath)) :
    removal (.nextInput r todo) = none := by
  cases todo <;> rfl

theorem read_step {cfg : Config} {s t : State} {a : Act} (h : Accounted s) (hm : Moved cfg s t a)
    (htidy : Tidy s a) {i : Nat} {pc : PurgePc} {j : StaleJob}
    (hi : t.tasks[i]? = some (.purge pc)) (hj : j ∈ entries pc) :
    Settled t j.id ∧ OnRow t j.id fun r => r.outputPath = j.outputPath := by
  have stays : ∀ pc₀, s.tasks[i]? = some (.purge pc₀) → j ∈ entries pc₀ →
      Settled t j.id ∧ OnRow t j.id fun r => r.outputPath = j.outputPath := by
    intro pc₀ hi₀ hj₀
    obtain ⟨hset, hrow⟩ := h.read i pc₀ j hi₀ hj₀
    exact ⟨hset.step hm,
      outputPath_step hm htidy hset (mem_purging hi₀ hj₀) (P := fun o => o = j.outputPath) hrow⟩
  rcases hm.purge_origin hi with ⟨hi₀, -⟩ | ⟨o, -, -, rfl⟩ | ⟨f, pc₀, rfl, hi₀, hp⟩
  · exact stays pc hi₀ hj
  · cases hj
  · rcases entries_step (purge_step hp) hj with hj₀ | ⟨hw, r, hr, -, rfl⟩
    · exact stays pc₀ hi₀ hj₀
    · have hrow : row? s r.id = some r := mem_row hr
      refine ⟨(h.inv.ids.settled hrow).step hm, fun r' hr' => ?_⟩
      unfold row? at hr'
      rw [hw] at hr'
      obtain rfl := Option.some.inj (hrow.symm.trans hr')
      rfl

/-- The worker writes no file that a row records already. -/
theorem absent_stays {cfg : Config} {s t : State} {a : Act} (h : Accounted s) (hm : Moved cfg s t a)
    {r : JobRow} (hr : r ∈ s.world.db.jobs.rows) {p : DataPath} (hp : r.outputPath = some p)
    (hfile : s.world.files p = none) : t.world.files p = none := by
  have hout : IsOutput r.id p := (h.filed.rows r hr).output p hp
  cases FileWrites.file_step hm with
  | same he => rw [he]; exact hfile
  | wrote hw he =>
    rename_i q b
    rw [he]
    by_cases hq : p = q
    · subst hq
      exfalso
      obtain ⟨job, -, hpc⟩ := hw.of_output h.filed hout.sub
      have hplaced := h.filed.worker
      rw [hpc] at hplaced
      have hset := (h.inv.process job _ hpc rfl).1
      have hid : r.id = job.id := hout.unique (h.inv.ids.uuid _ (h.inv.ids.rows r hr).1)
        (h.inv.ids.uuid _ hset.1) hplaced
      have hdone : r.status = .done := (h.inv.rows r hr).output.mp (by rw [hp]; simp)
      exact h.undone job _ hpc rfl r (hid ▸ mem_row hr) hdone
    · rw [Files.put_other _ _ _ _ hq]
      exact hfile
  | purged hi hpc he | vanished he => exact he ▸ Files.put_none hfile _

/-- The purge that goes on to the next file has removed the one before. -/
theorem removed_call {s t : State} {i : Nat} {f : Fate} (htidy : Tidy s (.task i f))
    {o : PurgeOpts} {r : PurgeReport} {j : StaleJob} {p : DataPath} {rest : List DataPath}
    {todo : List StaleJob} (hi : s.tasks[i]? = some (.purge (.removeFile o r j p rest todo)))
    (hcall : RemoveFile s.world t.world f p) (hsub : p.sub = .outputs) :
    t.world.files p = none := by
  rcases hcall with ⟨-, hw⟩ | ⟨hw, e, rfl⟩
  · rw [hw]
    exact Files.put_same _ _ _
  · rw [hw]
    refine htidy.removes p ?_
    simp only [spares, hi, hsub, ↓reduceIte, Option.mem_some_iff]

theorem removed_step {cfg : Config} {s t : State} {a : Act} (h : Accounted s)
    (hm : Moved cfg s t a) (htidy : Tidy s a) {i : Nat} {pc : PurgePc} {j : StaleJob}
    {l : List DataPath} (hi : t.tasks[i]? = some (.purge pc)) (hl : removal pc = some (j, l)) :
    OnRow t j.id fun r => ∀ p, r.outputPath = some p → p ∈ l ∨ t.world.files p = none := by
  have stays : ∀ pc₀ l₀, s.tasks[i]? = some (.purge pc₀) → removal pc₀ = some (j, l₀) →
      OnRow t j.id fun r => ∀ p, r.outputPath = some p → p ∈ l₀ ∨ t.world.files p = none := by
    intro pc₀ l₀ hi₀ hl₀
    have hj := removal_entry hl₀
    refine outputPath_step hm htidy (h.read i pc₀ j hi₀ hj).1 (mem_purging hi₀ hj)
      (P := fun out => ∀ p, out = some p → p ∈ l₀ ∨ t.world.files p = none) fun r hr p hp => ?_
    exact (h.removed i pc₀ j l₀ hi₀ hl₀ r hr p hp).imp_right
      (absent_stays h hm (row_mem hr).1 hp)
  have begun : l = Purge.files j →
      OnRow t j.id fun r => ∀ p, r.outputPath = some p → p ∈ l ∨ t.world.files p = none := by
    intro he r hr p hp
    rw [(read_step h hm htidy hi (removal_entry hl)).2 r hr] at hp
    exact .inl (he ▸ mem_files.mpr (.inl (mem_recorded.mpr (.inl hp))))
  rcases hm.purge_origin hi with ⟨hi₀, -⟩ | ⟨o, -, -, rfl⟩ | ⟨f, pc₀, rfl, hi₀, hp⟩
  · exact stays pc l hi₀ hl
  · cases hl
  · cases purge_step hp with
    | fails _ | counted _ | removedInput => cases hl
    | selected _ | deleted _ => exact begun (removal_nextJob hl)
    | removed hcall =>
      rename_i p rest todo
      rw [removal_nextFile] at hl
      cases hl
      intro r hr q hq
      rcases stays _ _ hi₀ rfl r hr q hq with hmem | hnone
      · rcases List.mem_cons.mp hmem with rfl | hmem
        · have hsub := (((h.filed.step hm).rows r (row_mem hr).1).output q hq).sub
          exact .inr (removed_call htidy hi₀ hcall hsub)
        · exact .inl hmem
      · exact .inr hnone
    | selectedInputs _ _ _ | cleared =>
      rw [removal_nextInput] at hl
      cases hl

/-- A recorded output stays recorded while it is there. -/
theorem row_stays {cfg : Config} {s t : State} {a : Act} (h : Accounted s) (hm : Moved cfg s t a)
    {r : JobRow} (hr : r ∈ s.world.db.jobs.rows) {p : DataPath} (hp : r.outputPath = some p)
    (hfile : (t.world.files p).isSome = true) :
    ∃ r' ∈ t.world.db.jobs.rows, r'.outputPath = some p := by
  cases hm.jobs with
  | same he => exact ⟨r, he ▸ hr, hp⟩
  | update hst he =>
    rename_i st
    rw [he]
    refine ⟨st.update.row r, Table.mem_update.mpr ⟨r, hr, rfl⟩, ?_⟩
    rcases stmt_outputPath hst r with heq | ⟨job, -, -, hrun⟩
    · exact heq.trans hp
    · have hdone : r.status = .done := (h.inv.rows r hr).output.mp (by rw [hp]; simp)
      exact absurd (hrun.symm.trans hdone) Status.noConfusion
  | insert ha hi hins =>
    rw [(Table.insert?_eq_some.mp hins).2]
    exact ⟨r, List.mem_append_left _ hr, hp⟩
  | delete ha hi he =>
    rename_i j todo
    refine ⟨r, ?_, hp⟩
    rw [he]
    refine Table.mem_delete.mpr ⟨hr, ?_⟩
    by_contra hid
    simp only [decide_eq_false_iff_not, Classical.not_not] at hid
    have hrow := h.removed _ _ _ _ hi rfl r (hid ▸ mem_row hr) p hp
    rcases hrow with hnil | hnone
    · cases hnil
    · rw [absent_stays h hm hr hp hnone] at hfile
      cases hfile

/-- The worker that has written the output goes on to record it. -/
theorem written_stays {cfg : Config} {s t : State} {a : Act} (hm : Moved cfg s t a)
    (htidy : Tidy s a) {x : String × DataPath} (hx : written s.worker = some x) :
    (∃ r ∈ t.world.db.jobs.rows, r.outputPath = some x.2) ∨ written t.worker = some x := by
  rcases worker_cases hm with ⟨f, l, rfl, hw, -⟩ | ⟨hw, -, -⟩ | ⟨rfl, -⟩
  · generalize hpc : s.worker = pc at hw hx
    generalize ht : t.worker = pc' at hw
    cases hw with
    | stage hs =>
      cases hs with
      | goes hg =>
        cases hg with
        | measured =>
          right
          rw [← hx]
          rfl
        | _ => cases hx
      | done hn hran =>
        obtain rfl := Option.some.inj hx
        obtain ⟨r, hr, hcond⟩ := (JobStmt.affected_eq_one rfl).mp hn
        left
        rw [hran.ok]
        refine ⟨_, Table.mem_update.mpr ⟨r, (Table.find?_eq_some.mp hr).1, rfl⟩, ?_⟩
        rw [Update.row_of_cond _ hcond]
        rfl
      | refused hn hran =>
        obtain ⟨-, hrun, -⟩ := htidy.completes _ (completing_eq hpc)
        obtain ⟨r, hr, hstatus⟩ := Option.map_eq_some_iff.mp hrun
        refine absurd ((JobStmt.affected_eq_one rfl).mpr ⟨r, hr, ?_⟩) hn
        exact decide_eq_true ⟨Table.find?_key hr, hstatus⟩
      | fails hf he =>
        cases hf with
        | markDone hf =>
          have hok := (htidy.completes _ (completing_eq hpc)).1
          rw [hf] at hok
          cases hok
        | _ => cases hx
      | _ => cases hx
    | free h _ _ => cases pc <;> first | cases hx | cases h
    | _ => cases hx
  · exact .inr (hw ▸ hx)
  · rcases htidy.survives with hup | ⟨-, hnone⟩
    · cases hup
    · rw [hnone] at hx
      cases hx

theorem writeOutput_call {cfg : Config} {now : Int} {job : QueuedJob} {out : DataPath} {b : Bytes}
    {w w' : World} {pc : WorkerPc} {l : List GeneratePc}
    (h : perform ((WorkerPc.process job (.writeOutput out b)).next cfg now) .ok w =
      some (w', pc, l)) : pc = .process job (.readDimensions out) := by
  obtain ⟨c, k, x, hc, hex, hk⟩ := perform_eq_some.mp h
  cases hc
  cases hex
  cases hk
  rfl

theorem recorded_step {cfg : Config} {s t : State} {a : Act} (h : Accounted s)
    (hm : Moved cfg s t a) (htidy : Tidy s a) {p : DataPath} (hsub : p.sub = .outputs)
    (hp : (t.world.files p).isSome = true) :
    (∃ r ∈ t.world.db.jobs.rows, r.outputPath = some p) ∨
      (written t.worker).map Prod.snd = some p := by
  have stays : (s.world.files p).isSome = true →
      (∃ r ∈ t.world.db.jobs.rows, r.outputPath = some p) ∨
        (written t.worker).map Prod.snd = some p := by
    intro hs
    rcases h.recorded p hsub hs with ⟨r, hr, hout⟩ | hw
    · exact .inl (row_stays h hm hr hout hp)
    · obtain ⟨x, hx, rfl⟩ := Option.map_eq_some_iff.mp hw
      exact (written_stays hm htidy hx).imp_right fun hx => by rw [hx]; rfl
  cases FileWrites.file_step hm with
  | same he => exact stays (he ▸ hp)
  | wrote hw he =>
    rename_i q b
    by_cases hq : p = q
    · subst hq
      obtain ⟨job, rfl, hpc⟩ := hw.of_output h.filed hsub
      cases hm with
      | worker hcall _ =>
        rw [hpc] at hcall
        rw [writeOutput_call hcall]
        exact .inr rfl
    · rw [he, Files.put_other _ _ _ _ hq] at hp
      exact stays hp
  | purged hi hpc he | vanished he =>
    rename_i q
    rw [he] at hp
    by_cases hq : p = q
    · subst hq
      simp at hp
    · rw [Files.put_other _ _ _ _ hq] at hp
      exact stays hp

theorem Accounted.step {cfg : Config} {s t : State} {a : Act} (h : Accounted s)
    (hm : Moved cfg s t a) (htidy : Tidy s a) : Accounted t where
  inv := h.inv.step hm
  filed := h.filed.step hm
  undone _ _ ht hc := undone_step h hm ht hc
  read _ _ _ hi hj := read_step h hm htidy hi hj
  removed _ _ _ _ hi hl := removed_step h hm htidy hi hl
  recorded _ hsub hp := recorded_step h hm htidy hsub hp

theorem Accounted.init : Accounted State.init where
  inv := Inv.init
  filed := Filed.init
  undone job stage h := by cases h
  read i pc j hi := by simp [State.init] at hi
  removed i pc j l hi := by simp [State.init] at hi
  recorded p hsub hp := by cases hp

/-- In every run whose completions all take effect on a row that no purge has in
hand, that does not die with an output file still to write out or to record and in
which no purge fails to remove one: whenever the worker has recorded what it has written, every
output file is recorded in some row. -/
theorem outputs_recorded {cfg : Config} {as : List Act} {s : State}
    (hs : run cfg as State.init = some s) (htidy : Along cfg Tidy as State.init)
    (hw : written s.worker = none) :
    ∀ p : DataPath, p.sub = .outputs → (s.world.files p).isSome = true →
      ∃ r ∈ s.world.db.jobs.rows, r.outputPath = some p := by
  intro p hsub hp
  have hacc : Accounted s := Runs.Along.invariant
    (fun u a v hu ha hstep => hu.step (step_moved hstep) ha) htidy hs Accounted.init
  rcases hacc.recorded p hsub hp with hrow | hx
  · exact hrow
  · rw [hw] at hx
    cases hx

def outputOf (id : String) : DataPath := ⟨.outputs, outputName id⟩

theorem outputs_recorded_sample : ∃ s, run sampleConfig doneRun State.init = some s ∧
    (s.world.files (outputOf jobA)).isSome = true ∧
    ∃ r ∈ s.world.db.jobs.rows, r.outputPath = some (outputOf jobA) := by
  have hrun : (run sampleConfig doneRun State.init).map
      (fun s => (written s.worker, (s.world.files (outputOf jobA)).isSome)) =
        some (none, true) := by
    simp only [doneRun, List.append_assoc, run_first]
    decide +kernel
  obtain ⟨s, hs, h⟩ := Option.map_eq_some_iff.mp hrun
  obtain ⟨hw, hp⟩ := Prod.mk.inj h
  have htidy : Along sampleConfig Tidy doneRun State.init := by
    simp only [doneRun, List.append_assoc, along_first]
    decide +kernel
  exact ⟨s, hs, hp, outputs_recorded hs htidy hw _ rfl hp⟩

/-- The job is cancelled when its output is written and not yet recorded. -/
def lateCancel : List Act :=
  firstSubmit 0 jobA ++ startAndClaim ++ processToSubmit clientA "p1" ++
    (processToDone jobA).take 9 ++ [.arrive (.cancel jobA), .task 1 .ok] ++
    (processToDone jobA).drop 9

/-- The completion is refused, and the file stays without a row to record it. -/
theorem output_orphaned : ∃ s p, run sampleConfig lateCancel State.init = some s ∧
    s.worker = .inner ∧ p.sub = .outputs ∧ (s.world.files p).isSome = true ∧
    ∀ r ∈ s.world.db.jobs.rows, r.outputPath ≠ some p := by
  have hrun : (run sampleConfig lateCancel State.init).map (fun s =>
      (s.worker, (s.world.files (outputOf jobA)).isSome,
        s.world.db.jobs.rows.map JobRow.outputPath)) = some (.inner, true, [none]) := by
    simp only [lateCancel, List.append_assoc, run_first]
    decide +kernel
  obtain ⟨s, hs, h⟩ := Option.map_eq_some_iff.mp hrun
  obtain ⟨hw, hp, hrows⟩ : s.worker = .inner ∧ (s.world.files (outputOf jobA)).isSome = true ∧
      s.world.db.jobs.rows.map JobRow.outputPath = [none] := by simpa using h
  refine ⟨s, outputOf jobA, hs, hw, rfl, hp, fun r hr he => ?_⟩
  have hmem := List.mem_map_of_mem (f := JobRow.outputPath) hr
  rw [hrows, he] at hmem
  simp at hmem

end ZunServer.Outputs
