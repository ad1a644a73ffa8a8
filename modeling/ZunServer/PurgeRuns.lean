import ZunServer.ContentAddressed
import ZunServer.Outputs

/-!
# A purge on its own

`purge::run` from its first statement to its report, with nothing else moving:
which files it removes, and what becomes of the rows that refer to them. A file
that cannot be removed is logged and its row retired all the same.
-/
namespace ZunServer.PurgeRuns

open KeyedTable
open Schema Statements Database Comfy Calls Renditions Worker Handlers CustomPrompts Purge Server
open Rows RenditionSteps RowInvariant JobFiles ContentAddressed Retention Outputs FirstUpload

def purgeStep (s : World × PurgePc) (f : Fate) : Option (World × PurgePc) :=
  perform s.2.next f s.1

abbrev runPurge : List Fate → World × PurgePc → Option (World × PurgePc) := Runs.run purgeStep

/-- The calls of a purge so far, each with the state it was made in and its fate. -/
abbrev History := List ((World × PurgePc) × Fate)

abbrev history : List Fate → World × PurgePc → History := Runs.visits purgeStep

/-- The purge has called `remove_file` on the path. -/
def Tried (past : History) (p : DataPath) : Prop := ∃ x ∈ past, removing x.1.2 = some p

/-- One of these calls succeeded. -/
def Unlinked (past : History) (p : DataPath) : Prop :=
  ∃ x ∈ past, removing x.1.2 = some p ∧ x.2 = .ok

instance (past : History) (p : DataPath) : Decidable (Unlinked past p) :=
  inferInstanceAs (Decidable (∃ x ∈ past, removing x.1.2 = some p ∧ x.2 = .ok))

/-- A `remove_file` fails only on a path without a file, or on one that another
call of the run removes. -/
def NoneSpared (w : World) (past : History) : Prop :=
  ∀ x ∈ past, x.2 ≠ .ok → ∀ p ∈ removing x.1.2, w.files p = none ∨ Unlinked past p

instance (w : World) (past : History) : Decidable (NoneSpared w past) :=
  inferInstanceAs (Decidable (∀ x ∈ past, x.2 ≠ .ok → ∀ p ∈ removing x.1.2, _))

/-- Between `w` and `w'`, no row was retired before its files: a deleted job has
no file left, nor has an input whose path was cleared, and whatever refers to a
file that is there still does so. -/
structure Retired (w w' : World) : Prop where
  deleted : ∀ r ∈ w.db.jobs.rows, r ∉ w'.db.jobs.rows → ∀ p ∈ Purge.files (.of r),
    w'.files p = none
  cleared : ∀ i ∈ w.db.inputs.rows, ∀ p, i.path = some p →
    (∃ i' ∈ w'.db.inputs.rows, i'.id = i.id ∧ i'.path = none) → w'.files p = none
  kept : ∀ p, (w'.files p).isSome = true →
    (∀ r ∈ w.db.jobs.rows, p ∈ Purge.files (.of r) → r ∈ w'.db.jobs.rows) ∧
    ∀ i ∈ w.db.inputs.rows, i.path = some p → i ∈ w'.db.inputs.rows

/-- The stale inputs whose files are still to remove. -/
def listed : PurgePc → List (Int × DataPath)
  | .removeInput _ id p todo => (id, p) :: todo
  | .clearPath _ _ todo => todo
  | _ => []

/-- The input whose path is to be cleared next. -/
def clearing : PurgePc → Option Int
  | .clearPath _ id _ => some id
  | _ => none

/-- No job that is not deleted refers to the input. -/
def Unreferenced (w : World) (id : Int) : Prop :=
  ∀ r ∈ w.db.jobs.rows, r.inputId = id → r.deletedAt ≠ none

/-- The row has been deleted, or the purge is at it. -/
def JobPassed (s : World × PurgePc) (r : JobRow) : Prop :=
  r ∈ s.1.db.jobs.rows → ∃ l, removal s.2 = some (.of r, l)

/-- The path has been cleared, or it is to be next. -/
def InputPassed (s : World × PurgePc) (i : InputRow) : Prop :=
  i ∈ s.1.db.inputs.rows → clearing s.2 = some i.id

structure Progress (w : World) (past : History) (s : World × PurgePc) : Prop where
  gone : ∀ p, Unlinked past p → s.1.files p = none
  same : ∀ p, ¬ Unlinked past p → s.1.files p = w.files p
  jobs : ∀ r ∈ w.db.jobs.rows, r ∈ s.1.db.jobs.rows ∨
    r.deletedAt ≠ none ∧ ∀ p ∈ Purge.files (.of r), Tried past p
  jobsFrom : ∀ r ∈ s.1.db.jobs.rows, r ∈ w.db.jobs.rows
  entries : ∀ j ∈ entries s.2, ∃ r ∈ w.db.jobs.rows, r.deletedAt ≠ none ∧ j = .of r
  removal : ∀ j l, removal s.2 = some (j, l) → (∀ p ∈ l, p ∈ Purge.files j) ∧
    ∀ p ∈ Purge.files j, p ∈ l ∨ Tried past p
  inputs : ∀ i ∈ w.db.inputs.rows, i ∈ s.1.db.inputs.rows ∨
    { i with path := none } ∈ s.1.db.inputs.rows ∧ ∀ p, i.path = some p → Tried past p
  inputsFrom : ∀ i ∈ s.1.db.inputs.rows, ∀ p, i.path = some p → i ∈ w.db.inputs.rows
  listed : ∀ x ∈ listed s.2, Unreferenced s.1 x.1 ∧
    ∃ i ∈ w.db.inputs.rows, i.id = x.1 ∧ i.path = some x.2
  clearing : ∀ id, clearing s.2 = some id →
    ∃ i ∈ w.db.inputs.rows, i.id = id ∧ ∀ p, i.path = some p → Tried past p
  tried : (∀ e, s.2 ≠ .finished (.error e)) → ∀ p, Tried past p →
    (∃ r ∈ w.db.jobs.rows, p ∈ Purge.files (.of r) ∧ JobPassed s r) ∨
    ∃ i ∈ w.db.inputs.rows, i.path = some p ∧ Unreferenced s.1 i.id ∧ InputPassed s i

theorem tried_snoc {past : History} {x : (World × PurgePc) × Fate} {p : DataPath} :
    Tried (past ++ [x]) p ↔ Tried past p ∨ removing x.1.2 = some p := by
  simp [Tried, or_and_right, exists_or]

theorem unlinked_snoc {past : History} {x : (World × PurgePc) × Fate} {p : DataPath} :
    Unlinked (past ++ [x]) p ↔ Unlinked past p ∨ (removing x.1.2 = some p ∧ x.2 = .ok) := by
  simp [Unlinked, or_and_right, exists_or]

theorem Tried.snoc {past : History} {p : DataPath} (h : Tried past p)
    (x : (World × PurgePc) × Fate) : Tried (past ++ [x]) p := tried_snoc.mpr (.inl h)

theorem Unlinked.tried {past : History} {p : DataPath} (h : Unlinked past p) : Tried past p := by
  obtain ⟨x, hx, hp, -⟩ := h
  exact ⟨x, hx, hp⟩

/-- The purge among the tasks of the server, the others standing still. -/
theorem purge_alone {cfg : Config} {s : State} {i : Nat} {pc pc' : PurgePc} {fs : List Fate}
    {w' : World} (hi : s.tasks[i]? = some (.purge pc))
    (h : runPurge fs (s.world, pc) = some (w', pc')) :
    Server.run cfg (fs.map (.task i)) s = some ⟨w', s.worker, s.tasks.set i (.purge pc')⟩ :=
  run_alone ServerTask.purge (fun _ pc => PurgePc.next pc) (fun _ _ => rfl) hi h

/-- A call removes the one file it is about, if it succeeds. -/
theorem purge_files {w w' : World} {f : Fate} {pc pc' : PurgePc} (h : PurgeStep w w' f pc pc')
    (p : DataPath) : (removing pc = some p ∧ f = .ok ∧ w'.files p = none) ∨
      (¬ (removing pc = some p ∧ f = .ok) ∧ w'.files p = w.files p) := by
  have file : ∀ {q}, removing pc = some q → RemoveFile w w' f q →
      (removing pc = some p ∧ f = .ok ∧ w'.files p = none) ∨
        (¬ (removing pc = some p ∧ f = .ok) ∧ w'.files p = w.files p) := by
    intro q hq hcall
    rcases hcall with ⟨hf, hw⟩ | ⟨hw, e, hf⟩
    · by_cases hp : p = q
      · subst hp
        rw [hw]
        exact .inl ⟨hq, hf, Files.put_same _ _ _⟩
      · refine .inr ⟨fun hr => hp ?_, by rw [hw]; exact Files.put_other _ _ _ _ hp⟩
        exact Option.some.inj (hr.1.symm.trans hq)
    · refine .inr ⟨fun hr => ?_, by rw [hw]⟩
      rw [hf] at hr
      cases hr.2
  have other : removing pc = none → w'.files = w.files →
      (removing pc = some p ∧ f = .ok ∧ w'.files p = none) ∨
        (¬ (removing pc = some p ∧ f = .ok) ∧ w'.files p = w.files p) := by
    intro hnone hw
    refine .inr ⟨fun hr => ?_, by rw [hw]⟩
    rw [hnone] at hr
    cases hr.1
  cases h with
  | fails hw hpc => exact other hpc (by rw [hw])
  | removed hcall | removedInput hcall => exact file rfl hcall
  | selected hw | counted hw | selectedInputs _ _ hw | deleted hw | cleared hw =>
    exact other rfl (by rw [hw])

/-- The rows of `jobs` that a call deletes. -/
def deleting : PurgePc → Option StaleJob
  | .deleteRow _ _ j _ => some j
  | _ => none

theorem purge_jobs {w w' : World} {f : Fate} {pc pc' : PurgePc} (h : PurgeStep w w' f pc pc') :
    w'.db.jobs = w.db.jobs ∨ ∃ j, deleting pc = some j ∧ removal pc = some (j, []) ∧
      w'.db.jobs = w.db.jobs.delete fun r => r.id = j.id := by
  cases h with
  | deleted hw => exact .inr ⟨_, rfl, rfl, by rw [hw]⟩
  | removed hcall | removedInput hcall =>
    rcases hcall with ⟨-, hw⟩ | ⟨hw, -⟩ <;> exact .inl (by rw [hw])
  | fails hw _ | selected hw | counted hw | selectedInputs _ _ hw | cleared hw =>
    exact .inl (by rw [hw])

theorem purge_inputs {w w' : World} {f : Fate} {pc pc' : PurgePc} (h : PurgeStep w w' f pc pc') :
    (w'.db.inputs = w.db.inputs ∧ (clearing pc = none ∨ ∃ e, pc' = .finished (.error e))) ∨
      ∃ id, clearing pc = some id ∧ w'.db.inputs = w.db.inputs.update (clearInputPath id) := by
  cases h with
  | cleared hw => exact .inr ⟨_, rfl, by rw [hw]⟩
  | removed hcall | removedInput hcall =>
    rcases hcall with ⟨-, hw⟩ | ⟨hw, -⟩ <;> exact .inl ⟨by rw [hw], .inl rfl⟩
  | fails hw _ => exact .inl ⟨by rw [hw], .inr ⟨_, rfl⟩⟩
  | selected hw | counted hw | selectedInputs _ _ hw | deleted hw =>
    exact .inl ⟨by rw [hw], .inl rfl⟩

/-- A row of the updated table is one of another id as it was, or has no path. -/
theorem mem_cleared {t : Inputs} {id : Int} {i : InputRow}
    (h : i ∈ (t.update (clearInputPath id)).rows) : (i ∈ t.rows ∧ i.id ≠ id) ∨ i.path = none := by
  obtain ⟨i₀, hi₀, rfl⟩ := Table.mem_update.mp h
  unfold Update.row
  split
  · exact .inr rfl
  · rename_i hc
    exact .inl ⟨hi₀, fun he => hc (decide_eq_true he)⟩

theorem cleared_mem {t : Inputs} {id : Int} {i : InputRow} (h : i ∈ t.rows) (hid : i.id = id) :
    { i with path := none } ∈ (t.update (clearInputPath id)).rows :=
  Table.mem_update.mpr ⟨i, h, Update.row_of_cond _ (decide_eq_true hid)⟩

theorem uncleared_mem {t : Inputs} {id : Int} {i : InputRow} (h : i ∈ t.rows) (hid : i.id ≠ id) :
    i ∈ (t.update (clearInputPath id)).rows :=
  Table.mem_update.mpr ⟨i, h, Update.row_of_not _ (decide_eq_false hid)⟩

section

variable {w : World} {past : History} {s t : World × PurgePc} {f : Fate}

/-- A call that is about no file tries none. -/
theorem jobs_step (h : Progress w past s) (hp : PurgeStep s.1 t.1 f s.2 t.2) :
    ∀ r ∈ w.db.jobs.rows, r ∈ t.1.db.jobs.rows ∨
      r.deletedAt ≠ none ∧ ∀ p ∈ Purge.files (.of r), Tried (past ++ [(s, f)]) p := by
  intro r hr
  rcases h.jobs r hr with hmem | ⟨hdel, htried⟩
  · rcases purge_jobs hp with he | ⟨j, -, hl, he⟩
    · exact .inl (he ▸ hmem)
    · rw [he]
      by_cases hid : r.id = j.id
      · obtain ⟨r', hr', hdel, rfl⟩ := h.entries j (removal_entry hl)
        obtain rfl : r = r' := List.inj_on_of_nodup_map w.db.jobs.nodup hr hr' hid
        refine .inr ⟨hdel, fun p hp => Tried.snoc ?_ _⟩
        exact ((h.removal _ _ hl).2 p hp).resolve_left List.not_mem_nil
      · exact .inl (Table.mem_delete.mpr ⟨hmem, decide_eq_false hid⟩)
  · exact .inr ⟨hdel, fun p hp => (htried p hp).snoc _⟩

theorem jobs_sub (hp : PurgeStep s.1 t.1 f s.2 t.2) :
    ∀ r ∈ t.1.db.jobs.rows, r ∈ s.1.db.jobs.rows := by
  intro r hr
  rcases purge_jobs hp with he | ⟨j, -, -, he⟩
  · exact he ▸ hr
  · rw [he] at hr
    exact (Table.mem_delete.mp hr).1

theorem entries_from (h : Progress w past s) (hp : PurgeStep s.1 t.1 f s.2 t.2) :
    ∀ j ∈ entries t.2, ∃ r ∈ w.db.jobs.rows, r.deletedAt ≠ none ∧ j = .of r := by
  intro j hj
  rcases entries_step hp hj with hj₀ | ⟨-, r, hr, hdel, rfl⟩
  · exact h.entries j hj₀
  · exact ⟨r, h.jobsFrom r hr, hdel, rfl⟩

theorem removal_step (h : Progress w past s) (hp : PurgeStep s.1 t.1 f s.2 t.2) {j : StaleJob}
    {l : List DataPath} (hl : removal t.2 = some (j, l)) : (∀ p ∈ l, p ∈ Purge.files j) ∧
      ∀ p ∈ Purge.files j, p ∈ l ∨ Tried (past ++ [(s, f)]) p := by
  have begun : l = Purge.files j → (∀ p ∈ l, p ∈ Purge.files j) ∧
      ∀ p ∈ Purge.files j, p ∈ l ∨ Tried (past ++ [(s, f)]) p := by
    rintro rfl
    exact ⟨fun p hp => hp, fun p hp => .inl hp⟩
  generalize hs : s.2 = pc at hp
  generalize ht : t.2 = pc' at hp hl
  cases hp with
  | fails _ _ | counted _ | removedInput _ => cases hl
  | selected _ | deleted _ => exact begun (removal_nextJob hl)
  | @removed o r r' k q rest todo _ =>
    rw [removal_nextFile] at hl
    cases hl
    obtain ⟨hsub, hall⟩ := h.removal j (q :: l) (by rw [hs]; rfl)
    refine ⟨fun p hp => hsub p (List.mem_cons_of_mem q hp), fun p hp => ?_⟩
    rcases hall p hp with hmem | htried
    · rcases List.mem_cons.mp hmem with rfl | hmem
      · exact .inr (tried_snoc.mpr (.inr (by rw [hs]; rfl)))
      · exact .inl hmem
    · exact .inr (htried.snoc _)
  | selectedInputs _ _ _ | cleared _ =>
    rw [removal_nextInput] at hl
    cases hl

theorem listed_nextInput (r : PurgeReport) (todo : List (Int × DataPath)) :
    listed (.nextInput r todo) = todo := by
  cases todo <;> rfl

theorem listed_nextFile (o : PurgeOpts) (r : PurgeReport) (j : StaleJob) (todo : List StaleJob)
    (l : List DataPath) : listed (.nextFile o r j todo l) = [] := by
  cases l <;> rfl

theorem listed_nextJob (o : PurgeOpts) (r : PurgeReport) (todo : List StaleJob) :
    listed (.nextJob o r todo) = [] := by
  rcases nextJob_cases o r todo with ⟨r', he⟩ | ⟨r', j, todo', he, -⟩
  · rw [he]
    rfl
  · rw [he, listed_nextFile]

theorem clearing_nextFile (o : PurgeOpts) (r : PurgeReport) (j : StaleJob) (todo : List StaleJob)
    (l : List DataPath) : clearing (.nextFile o r j todo l) = none := by
  cases l <;> rfl

theorem clearing_nextJob (o : PurgeOpts) (r : PurgeReport) (todo : List StaleJob) :
    clearing (.nextJob o r todo) = none := by
  rcases nextJob_cases o r todo with ⟨r', he⟩ | ⟨r', j, todo', he, -⟩
  · rw [he]
    rfl
  · rw [he, clearing_nextFile]

theorem clearing_nextInput (r : PurgeReport) (todo : List (Int × DataPath)) :
    clearing (.nextInput r todo) = none := by
  cases todo <;> rfl

theorem Unreferenced.step (hp : PurgeStep s.1 t.1 f s.2 t.2) {id : Int}
    (h : Unreferenced s.1 id) : Unreferenced t.1 id :=
  fun r hr => h r (jobs_sub hp r hr)

theorem inputs_step (h : Progress w past s) (hp : PurgeStep s.1 t.1 f s.2 t.2) :
    ∀ i ∈ w.db.inputs.rows, i ∈ t.1.db.inputs.rows ∨ { i with path := none } ∈ t.1.db.inputs.rows ∧
      ∀ p, i.path = some p → Tried (past ++ [(s, f)]) p := by
  intro i hi
  rcases purge_inputs hp with ⟨he, -⟩ | ⟨id, hc, he⟩
  · rw [he]
    exact (h.inputs i hi).imp_right fun ⟨hmem, htried⟩ => ⟨hmem, fun p hp => (htried p hp).snoc _⟩
  · rw [he]
    rcases h.inputs i hi with hmem | ⟨hmem, htried⟩
    · by_cases hid : i.id = id
      · obtain ⟨i', hi', hid', htried⟩ := h.clearing id hc
        obtain rfl : i = i' := List.inj_on_of_nodup_map w.db.inputs.nodup hi hi' (hid.trans hid'.symm)
        exact .inr ⟨cleared_mem hmem hid, fun p hp => (htried p hp).snoc _⟩
      · exact .inl (uncleared_mem hmem hid)
    · refine .inr ⟨?_, fun p hp => (htried p hp).snoc _⟩
      by_cases hid : i.id = id
      · exact cleared_mem (i := { i with path := none }) hmem hid
      · exact uncleared_mem (i := { i with path := none }) hmem hid

/-- An input that has a path had it before, and it was not to be cleared. -/
theorem inputs_sub (hp : PurgeStep s.1 t.1 f s.2 t.2) {i : InputRow} (hi : i ∈ t.1.db.inputs.rows)
    {p : DataPath} (hpath : i.path = some p) : i ∈ s.1.db.inputs.rows ∧
      (clearing s.2 = some i.id → ∃ e, t.2 = .finished (.error e)) := by
  rcases purge_inputs hp with ⟨he, hcase⟩ | ⟨id, hc, he⟩
  · refine ⟨he ▸ hi, fun hclear => hcase.resolve_left fun hnone => ?_⟩
    rw [hnone] at hclear
    cases hclear
  · rw [he] at hi
    rcases mem_cleared hi with ⟨hmem, hid⟩ | hnone
    · exact ⟨hmem, fun hclear => absurd (Option.some.inj (hclear.symm.trans hc)) hid⟩
    · rw [hnone] at hpath
      cases hpath

theorem listed_step (h : Progress w past s) (hp : PurgeStep s.1 t.1 f s.2 t.2) :
    ∀ x ∈ listed t.2, Unreferenced t.1 x.1 ∧
      ∃ i ∈ w.db.inputs.rows, i.id = x.1 ∧ i.path = some x.2 := by
  have stays : (∀ x ∈ listed t.2, x ∈ listed s.2) → ∀ x ∈ listed t.2, Unreferenced t.1 x.1 ∧
      ∃ i ∈ w.db.inputs.rows, i.id = x.1 ∧ i.path = some x.2 := by
    intro hsub x hx
    obtain ⟨hun, hrow⟩ := h.listed x (hsub x hx)
    exact ⟨hun.step hp, hrow⟩
  generalize hs : s.2 = pc at hp stays
  generalize ht : t.2 = pc' at hp stays ⊢
  cases hp with
  | fails _ _ | counted _ => exact stays fun x hx => by cases hx
  | selected _ | deleted _ => exact stays fun x hx => by rw [listed_nextJob] at hx; cases hx
  | removed _ => exact stays fun x hx => by rw [listed_nextFile] at hx; cases hx
  | removedInput _ => exact stays fun x hx => List.mem_cons_of_mem _ hx
  | cleared _ => exact stays fun x hx => by rw [listed_nextInput] at hx; exact hx
  | selectedInputs _ _ hw =>
    intro x hx
    rw [listed_nextInput] at hx
    obtain ⟨i, hi, hid, hpath, hun⟩ := mem_staleInputs hx
    exact ⟨hw ▸ hun, i, h.inputsFrom i hi _ hpath, hid, hpath⟩

theorem clearing_step (h : Progress w past s) (hp : PurgeStep s.1 t.1 f s.2 t.2) {id : Int}
    (hc : clearing t.2 = some id) : ∃ i ∈ w.db.inputs.rows, i.id = id ∧
      ∀ p, i.path = some p → Tried (past ++ [(s, f)]) p := by
  generalize hs : s.2 = pc at hp
  generalize ht : t.2 = pc' at hp hc
  cases hp with
  | fails _ _ | counted _ => cases hc
  | removedInput _ =>
    cases hc
    obtain ⟨-, i, hi, hid, hpath⟩ := h.listed _ (by rw [hs]; exact List.mem_cons_self)
    refine ⟨i, hi, hid, fun p hp => tried_snoc.mpr (.inr ?_)⟩
    rw [hs]
    exact hpath.symm.trans hp
  | selected _ | deleted _ =>
    rw [clearing_nextJob] at hc
    cases hc
  | removed _ =>
    rw [clearing_nextFile] at hc
    cases hc
  | selectedInputs _ _ _ | cleared _ =>
    rw [clearing_nextInput] at hc
    cases hc

/-- A job that the purge has passed stays so; it goes on from one file to the next. -/
theorem JobPassed.step (hp : PurgeStep s.1 t.1 f s.2 t.2)
    (hend : ∀ e, t.2 ≠ .finished (.error e)) {r : JobRow} (hpass : JobPassed s r) :
    JobPassed t r := by
  intro hmem
  obtain ⟨l, hl⟩ := hpass (jobs_sub hp r hmem)
  generalize hs : s.2 = pc at hp hl
  generalize ht : t.2 = pc' at hp hend ⊢
  cases hp with
  | fails _ _ => exact absurd rfl (hend _)
  | removed _ =>
    cases hl
    exact ⟨_, removal_nextFile _ _ _ _ _⟩
  | deleted hw =>
    cases hl
    rw [hw] at hmem
    exact absurd (Table.mem_delete.mp hmem).2 (by simp [StaleJob.of])
  | _ => cases hl

theorem InputPassed.step (hp : PurgeStep s.1 t.1 f s.2 t.2)
    (hend : ∀ e, t.2 ≠ .finished (.error e)) {i : InputRow} {p : DataPath} (hi : i.path = some p)
    (hpass : InputPassed s i) : InputPassed t i := by
  intro hmem
  obtain ⟨hmem₀, hclear⟩ := inputs_sub hp hmem hi
  obtain ⟨e, he⟩ := hclear (hpass hmem₀)
  exact absurd he (hend e)

/-- What the call is about has been passed with it. -/
theorem tried_now (h : Progress w past s) (hp : PurgeStep s.1 t.1 f s.2 t.2) {p : DataPath}
    (hnow : removing s.2 = some p) :
    (∃ r ∈ w.db.jobs.rows, p ∈ Purge.files (.of r) ∧ JobPassed t r) ∨
      ∃ i ∈ w.db.inputs.rows, i.path = some p ∧ Unreferenced t.1 i.id ∧ InputPassed t i := by
  generalize hs : s.2 = pc at hp hnow
  generalize ht : t.2 = pc' at hp
  cases hp with
  | fails _ hpc =>
    rw [hpc] at hnow
    cases hnow
  | @removed o rep rep' j q rest todo _ =>
    cases hnow
    obtain ⟨r, hr, -, rfl⟩ := h.entries j (by rw [hs]; exact List.mem_cons_self)
    obtain ⟨hsub, -⟩ := h.removal (.of r) (p :: rest) (by rw [hs]; rfl)
    refine .inl ⟨r, hr, hsub p List.mem_cons_self, fun _ => ⟨rest, ?_⟩⟩
    rw [ht]
    exact removal_nextFile _ _ _ _ _
  | @removedInput rep rep' id q todo hcall =>
    cases hnow
    obtain ⟨hun, i, hi, hid, hpath⟩ := h.listed (id, p) (by rw [hs]; exact List.mem_cons_self)
    refine .inr ⟨i, hi, hpath, ?_, fun _ => ?_⟩
    · subst hid
      rcases hcall with ⟨-, hw⟩ | ⟨hw, -⟩ <;> rw [hw] <;> exact hun
    · rw [ht, hid]
      rfl
  | _ => cases hnow

theorem tried_step (h : Progress w past s) (hp : PurgeStep s.1 t.1 f s.2 t.2)
    (hend : ∀ e, t.2 ≠ .finished (.error e)) {p : DataPath}
    (htried : Tried (past ++ [(s, f)]) p) :
    (∃ r ∈ w.db.jobs.rows, p ∈ Purge.files (.of r) ∧ JobPassed t r) ∨
      ∃ i ∈ w.db.inputs.rows, i.path = some p ∧ Unreferenced t.1 i.id ∧ InputPassed t i := by
  rcases tried_snoc.mp htried with hold | hnow
  · have hgoes : ∀ e, s.2 ≠ .finished (.error e) := by
      intro e he
      rw [he] at hp
      generalize t.2 = pc' at hp hend
      cases hp
      exact hend _ rfl
    rcases h.tried hgoes p hold with ⟨r, hr, hfile, hpass⟩ | ⟨i, hi, hpath, hun, hpass⟩
    · exact .inl ⟨r, hr, hfile, hpass.step hp hend⟩
    · exact .inr ⟨i, hi, hpath, hun.step hp, hpass.step hp hend hpath⟩
  · exact tried_now h hp hnow

theorem Progress.step (h : Progress w past s) (hstep : purgeStep s f = some t) :
    Progress w (past ++ [(s, f)]) t := by
  have hp : PurgeStep s.1 t.1 f s.2 t.2 := purge_step hstep
  refine ⟨fun p hun => ?_, fun p hnot => ?_, jobs_step h hp,
    fun r hr => h.jobsFrom r (jobs_sub hp r hr), entries_from h hp, fun j l => removal_step h hp,
    inputs_step h hp, fun i hi p hpath => h.inputsFrom i (inputs_sub hp hi hpath).1 p hpath,
    listed_step h hp, fun id => clearing_step h hp, fun hend p => tried_step h hp hend⟩
  · rcases purge_files hp p with ⟨-, -, hnone⟩ | ⟨hnot, hsame⟩
    · exact hnone
    · exact hsame.trans (h.gone p ((unlinked_snoc.mp hun).resolve_right hnot))
  · rcases purge_files hp p with ⟨hpc, hf, -⟩ | ⟨-, hsame⟩
    · exact absurd (unlinked_snoc.mpr (.inr ⟨hpc, hf⟩)) hnot
    · exact hsame.trans (h.same p fun hun => hnot (unlinked_snoc.mpr (.inl hun)))

theorem Progress.init (w : World) (o : PurgeOpts) :
    Progress w [] (w, .selectStaleJobs o) where
  gone p h := by obtain ⟨x, hx, -⟩ := h; cases hx
  same p _ := rfl
  jobs r hr := .inl hr
  jobsFrom r hr := hr
  entries j hj := by cases hj
  removal j l hl := by cases hl
  inputs i hi := .inl hi
  inputsFrom i hi p _ := hi
  listed x hx := by cases hx
  clearing id hc := by cases hc
  tried _ p h := by obtain ⟨x, hx, -⟩ := h; cases hx

end

theorem purge_progress {w w' : World} {o : PurgeOpts} {fs : List Fate} {pc : PurgePc}
    (h : runPurge fs (w, .selectStaleJobs o) = some (w', pc)) :
    Progress w (history fs (w, .selectStaleJobs o)) (w', pc) := by
  have hinv := Runs.history_invariant (I := Progress w) (fun past s f t hs hstep => hs.step hstep) h
    (Progress.init w o)
  rwa [List.nil_append] at hinv

theorem Progress.tried_gone {w w' : World} {past : History} {pc : PurgePc}
    (h : Progress w past (w', pc)) (hspared : NoneSpared w past) {p : DataPath}
    (ht : Tried past p) : w'.files p = none := by
  by_cases hun : Unlinked past p
  · exact h.gone p hun
  · obtain ⟨x, hx, hp⟩ := ht
    refine (h.same p hun).trans ?_
    have hf : x.2 ≠ .ok := fun hf => hun ⟨x, hx, hp, hf⟩
    exact (hspared x hx hf p hp).resolve_right hun

/-- Nothing is retired before its files, as long as no file that is there resists
all attempts to remove it. -/
theorem Progress.retired {w w' : World} {past : History} {pc : PurgePc}
    (h : Progress w past (w', pc)) (hspared : NoneSpared w past) : Retired w w' := by
  have job : ∀ r ∈ w.db.jobs.rows, r ∉ w'.db.jobs.rows → ∀ p ∈ Purge.files (.of r),
      w'.files p = none := by
    intro r hr hnot p hp
    obtain ⟨-, htried⟩ := (h.jobs r hr).resolve_left hnot
    exact h.tried_gone hspared (htried p hp)
  have input : ∀ i ∈ w.db.inputs.rows, i ∉ w'.db.inputs.rows → ∀ p, i.path = some p →
      w'.files p = none := by
    intro i hi hnot p hp
    obtain ⟨-, htried⟩ := (h.inputs i hi).resolve_left hnot
    exact h.tried_gone hspared (htried p hp)
  refine ⟨job, fun i hi p hp ⟨i', hi', hid, hnone⟩ => input i hi (fun hmem => ?_) p hp,
    fun p hfile => ⟨fun r hr hp => ?_, fun i hi hp => ?_⟩⟩
  · obtain rfl : i' = i := List.inj_on_of_nodup_map w'.db.inputs.nodup hi' hmem hid
    rw [hp] at hnone
    cases hnone
  · by_contra hnot
    rw [job r hr hnot p hp] at hfile
    cases hfile
  · by_contra hnot
    rw [input i hi hnot p hp] at hfile
    cases hfile

/-- What a purge that has returned its report tried to remove, it has retired. -/
theorem Progress.finished {w w' : World} {past : History} {r : PurgeReport}
    (h : Progress w past (w', .finished (.ok r))) {p : DataPath} (ht : Tried past p) :
    (∃ r ∈ w.db.jobs.rows, p ∈ Purge.files (.of r) ∧ r ∉ w'.db.jobs.rows) ∨
      ∃ i ∈ w.db.inputs.rows, i.path = some p ∧ Unreferenced w' i.id ∧
        i ∉ w'.db.inputs.rows ∧ { i with path := none } ∈ w'.db.inputs.rows := by
  rcases h.tried (fun e he => by cases he) p ht with ⟨r, hr, hfile, hpass⟩ |
    ⟨i, hi, hpath, hun, hpass⟩
  · refine .inl ⟨r, hr, hfile, fun hmem => ?_⟩
    obtain ⟨l, hl⟩ := hpass hmem
    cases hl
  · have hnot : i ∉ w'.db.inputs.rows := fun hmem => by cases hpass hmem
    exact .inr ⟨i, hi, hpath, hun, hnot, ((h.inputs i hi).resolve_left hnot).1⟩

/-- Whatever database and files a purge finds and whichever calls fail: if no
file that is there resists every attempt to remove it, no row is retired before
its files. A purge that returns its report needs exactly that. -/
theorem purge_retires {w w' : World} {o : PurgeOpts} {fs : List Fate} {pc : PurgePc}
    (h : runPurge fs (w, .selectStaleJobs o) = some (w', pc)) :
    (NoneSpared w (history fs (w, .selectStaleJobs o)) → Retired w w') ∧
    ((∃ r, pc = .finished (.ok r)) → Retired w w' →
      NoneSpared w (history fs (w, .selectStaleJobs o))) := by
  have hprog := purge_progress h
  refine ⟨hprog.retired, fun ⟨r, hend⟩ hret x hx hf p hp => ?_⟩
  subst hend
  by_contra hnot
  obtain ⟨hfile, hun⟩ := not_or.mp hnot
  have hthere : w'.files p ≠ none := by
    rw [hprog.same p hun]
    exact hfile
  rcases hprog.finished ⟨x, hx, hp⟩ with ⟨row, hr, hmem, hgone⟩ | ⟨i, hi, hpath, -, -, hclear⟩
  · exact hthere (hret.deleted row hr hgone p hmem)
  · exact hthere (hret.cleared i hi p hpath ⟨_, hclear, rfl, rfl⟩)

def report : PurgePc → Option PurgeReport
  | .finished (.ok r) => some r
  | _ => none

theorem report_eq_some {pc : PurgePc} {r : PurgeReport} (h : report pc = some r) :
    pc = .finished (.ok r) := by
  unfold report at h
  split at h <;> cases h
  rfl

/-- A purge of the deleted job and of its input. -/
def cleanPurge : List Fate := List.replicate 6 .ok

theorem purge_retires_sample : ∃ s w' r, run sampleConfig deletedRun State.init = some s ∧
    runPurge cleanPurge (s.world, .selectStaleJobs purgeAll) = some (w', .finished (.ok r)) ∧
    Retired s.world w' := by
  have hrun : ((run sampleConfig deletedRun State.init).bind fun s =>
      if NoneSpared s.world (history cleanPurge (s.world, .selectStaleJobs purgeAll)) then
        (runPurge cleanPurge (s.world, .selectStaleJobs purgeAll)).bind fun x => report x.2
      else none) = some ⟨1, 1, 1, 1, 0⟩ := by
    simp only [deletedRun, doneRun, List.append_assoc, run_first]
    decide +kernel
  obtain ⟨s, hs, h⟩ := Option.bind_eq_some_iff.mp hrun
  obtain ⟨hspared, h⟩ := Option.ite_none_right_eq_some.mp h
  obtain ⟨⟨w', pc⟩, hpurge, h⟩ := Option.bind_eq_some_iff.mp h
  obtain rfl := report_eq_some h
  exact ⟨s, w', _, hs, hpurge, (purge_retires hpurge).1 hspared⟩

/-- The output file cannot be removed. -/
def stuckPurge : List Fate :=
  [.ok, .ioFails "Permission denied (os error 13)", .ok, .ok, .ok, .ok]

/-- The row goes, its output stays, and the purge reports success. -/
theorem output_left : ∃ s w' r, run sampleConfig deletedRun State.init = some s ∧
    runPurge stuckPurge (s.world, .selectStaleJobs purgeAll) = some (w', .finished (.ok r)) ∧
    (∃ row ∈ s.world.db.jobs.rows, row ∉ w'.db.jobs.rows ∧
      ∃ p ∈ Purge.files (.of row), (w'.files p).isSome = true) ∧ ¬ Retired s.world w' := by
  have hrun : ((run sampleConfig deletedRun State.init).bind fun s =>
      (runPurge stuckPurge (s.world, .selectStaleJobs purgeAll)).bind fun x =>
        if x.1.db.jobs.rows = [] ∧ (x.1.files (outputOf jobA)).isSome = true then
          (report x.2).bind fun r => (row? s jobA).map fun row => (r, row.outputPath)
        else none) = some (⟨1, 0, 1, 1, 0⟩, some (outputOf jobA)) := by
    simp only [deletedRun, doneRun, List.append_assoc, run_first]
    decide +kernel
  obtain ⟨s, hs, h⟩ := Option.bind_eq_some_iff.mp hrun
  obtain ⟨⟨w', pc⟩, hpurge, h⟩ := Option.bind_eq_some_iff.mp h
  obtain ⟨⟨hrows, hfile⟩, h⟩ := Option.ite_none_right_eq_some.mp h
  obtain ⟨r, hr, h⟩ := Option.bind_eq_some_iff.mp h
  obtain ⟨row, hrow, he⟩ := Option.map_eq_some_iff.mp h
  obtain rfl := report_eq_some hr
  have hout : row.outputPath = some (outputOf jobA) := (Prod.mk.inj he).2
  have hmem : outputOf jobA ∈ Purge.files (.of row) :=
    mem_files.mpr (.inl (mem_recorded.mpr (.inl hout)))
  have hgone : row ∉ w'.db.jobs.rows := by
    intro hrow'
    rw [hrows] at hrow'
    cases hrow'
  refine ⟨s, w', r, hs, hpurge, ⟨row, (row_mem hrow).1, hgone, _, hmem, hfile⟩, fun hret => ?_⟩
  rw [hret.deleted row (row_mem hrow).1 hgone _ hmem] at hfile
  cases hfile

theorem placed_owned {j : StaleJob} (h : Placed j) (hid : isUuid j.id) {p : DataPath}
    (hp : p ∈ Purge.files j) : Owned j.id p := by
  rcases h.file hid hp with hrec | ⟨col, rfl⟩
  · exact (h.recordable hrec).owned
  · exact .inr ⟨col, .avif, rfl⟩

theorem input_unique {cfg : Config} {s : State} (hs : Reachable cfg s) {i i' : InputRow}
    (hi : i ∈ s.world.db.inputs.rows) (hi' : i' ∈ s.world.db.inputs.rows) {p : DataPath}
    (hp : i.path = some p) (hp' : i'.path = some p) : i = i' := by
  have haddr := reachable_addressed hs
  have hsha := (haddr.rows i hi p hp).inj (haddr.rows i' hi' p hp')
  exact List.inj_on_of_nodup_map (reachable_unique hs) hi hi' hsha

/-- A purge that runs from a reachable state to its report, with nothing else in
between, removes only files of jobs it deletes and of inputs whose path it
clears: no file of a job that is left, no file that an input has left, and no
file of the input of a job that is not deleted. -/
theorem purge_removes_owned {cfg : Config} {s : State} (hs : Reachable cfg s) {o : PurgeOpts}
    {fs : List Fate} {w' : World} {r : PurgeReport}
    (h : runPurge fs (s.world, .selectStaleJobs o) = some (w', .finished (.ok r))) {p : DataPath}
    (hfile : (s.world.files p).isSome = true) (hgone : w'.files p = none) :
    ((∃ r ∈ s.world.db.jobs.rows, r ∉ w'.db.jobs.rows ∧ p ∈ Purge.files (.of r)) ∨
      ∃ i ∈ s.world.db.inputs.rows, i.path = some p ∧
        { i with path := none } ∈ w'.db.inputs.rows) ∧
    (∀ r ∈ w'.db.jobs.rows, p ∉ Purge.files (.of r)) ∧
    (∀ i ∈ w'.db.inputs.rows, i.path ≠ some p) ∧
    ∀ r ∈ s.world.db.jobs.rows, r.deletedAt = none → r ∈ w'.db.jobs.rows ∧
      ∀ i ∈ s.world.db.inputs.rows, i.id = r.inputId → i.path ≠ some p := by
  have hprog := purge_progress h
  have hfiled := reachable_filed hs
  have huuid : ∀ r ∈ s.world.db.jobs.rows, isUuid r.id := fun r hr =>
    (reachable_ids hs).uuid _ ((reachable_ids hs).rows r hr).1
  have live : ∀ r ∈ s.world.db.jobs.rows, r.deletedAt = none → r ∈ w'.db.jobs.rows :=
    fun r hr hd => (hprog.jobs r hr).resolve_right fun hdel => hdel.1 hd
  have apart : ∀ r ∈ s.world.db.jobs.rows, p ∈ Purge.files (.of r) →
      ∀ i ∈ s.world.db.inputs.rows, i.path ≠ some p := fun r hr hp i hi hpath =>
    (hfiled.rows r hr).not_input hp (hfiled.inputs i hi p hpath)
  have htried : Tried (history fs (s.world, .selectStaleJobs o)) p := by
    refine Unlinked.tried (Classical.not_not.mp fun hun => ?_)
    rw [← hprog.same p hun, hgone] at hfile
    cases hfile
  rcases hprog.finished htried with ⟨r₀, hr₀, hp₀, hleft⟩ | ⟨i₀, hi₀, hpath₀, hun, hleft, hclear⟩
  · refine ⟨.inl ⟨r₀, hr₀, hleft, hp₀⟩, fun r hr hp => ?_, fun i hi hpath => ?_,
      fun r hr hd => ⟨live r hr hd, fun i hi _ => apart r₀ hr₀ hp₀ i hi⟩⟩
    · have hr' := hprog.jobsFrom r hr
      have howned : Owned r.id p := placed_owned (hfiled.rows r hr') (huuid r hr') hp
      have howned₀ : Owned r₀.id p := placed_owned (hfiled.rows r₀ hr₀) (huuid r₀ hr₀) hp₀
      have hid : r.id = r₀.id := howned.unique (huuid r hr') (huuid r₀ hr₀) howned₀
      obtain rfl : r = r₀ := List.inj_on_of_nodup_map s.world.db.jobs.nodup hr' hr₀ hid
      exact hleft hr
    · exact apart r₀ hr₀ hp₀ i (hprog.inputsFrom i hi p hpath) hpath
  · refine ⟨.inr ⟨i₀, hi₀, hpath₀, hclear⟩, fun r hr hp => ?_, fun i hi hpath => ?_,
      fun r hr hd => ⟨live r hr hd, fun i hi hid hpath => ?_⟩⟩
    · exact apart r (hprog.jobsFrom r hr) hp i₀ hi₀ hpath₀
    · obtain rfl := input_unique hs (hprog.inputsFrom i hi p hpath) hi₀ hpath hpath₀
      exact hleft hi
    · obtain rfl := input_unique hs hi hi₀ hpath hpath₀
      exact hun r (live r hr hd) hid.symm hd

theorem purge_removes_owned_sample : ∃ s w' r, run sampleConfig deletedRun State.init = some s ∧
    runPurge cleanPurge (s.world, .selectStaleJobs purgeAll) = some (w', .finished (.ok r)) ∧
    w'.files (outputOf jobA) = none ∧
    ∀ r ∈ w'.db.jobs.rows, outputOf jobA ∉ Purge.files (.of r) := by
  have hrun : ((run sampleConfig deletedRun State.init).bind fun s =>
      (runPurge cleanPurge (s.world, .selectStaleJobs purgeAll)).bind fun x =>
        if (s.world.files (outputOf jobA)).isSome = true ∧ x.1.files (outputOf jobA) = none then
          report x.2 else none) = some ⟨1, 1, 1, 1, 0⟩ := by
    simp only [deletedRun, doneRun, List.append_assoc, run_first]
    decide +kernel
  obtain ⟨s, hs, h⟩ := Option.bind_eq_some_iff.mp hrun
  obtain ⟨⟨w', pc⟩, hpurge, h⟩ := Option.bind_eq_some_iff.mp h
  obtain ⟨⟨hfile, hgone⟩, h⟩ := Option.ite_none_right_eq_some.mp h
  obtain rfl := report_eq_some h
  exact ⟨s, w', _, hs, hpurge, hgone, (purge_removes_owned ⟨_, hs⟩ hpurge hfile hgone).2.1⟩

end ZunServer.PurgeRuns
