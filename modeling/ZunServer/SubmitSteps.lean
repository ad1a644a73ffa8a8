import ZunServer.Server

/-!
# One call of a submit request

What each call of `submit_job` leads to, said once, with what the call did to
the `inputs` table and to the files.
-/
namespace ZunServer.SubmitSteps

open KeyedTable
open Schema Statements Database Comfy Calls Renditions Worker Handlers Purge Server

/-- The environment makes the call fail. -/
def failing : Fate → Bool
  | .sqlFails _ | .ioFails _ => true
  | _ => false

/-- What a call of `submit_job` leads to. -/
inductive SubmitStep (w w' : World) (f : Fate) : SubmitPc → SubmitPc → Prop
  | fails {pc : SubmitPc} {e : String} (hf : failing f = true) (hw : w' = w) :
      SubmitStep w w' f pc (.fail e)
  | refused {fl : SubmitFields} {pid : Int} {e : String} (hw : w' = w) :
      SubmitStep w w' f (.selectPrompt fl pid) (.badRequest e)
  | prompt {fl : SubmitFields} {pid : Int} {p : Resolved} (hw : w' = w) :
      SubmitStep w w' f (.selectPrompt fl pid) (.selectInput fl p w.now)
  | absent {fl : SubmitFields} {p : Resolved} {now : Int} (hf : f = .ok) (hw : w' = w)
      (h : ∀ r ∈ w.db.inputs.rows, r.sha256 ≠ fl.inputSha256) :
      SubmitStep w w' f (.selectInput fl p now) (.needUpload fl p now none)
  | noPath {fl : SubmitFields} {p : Resolved} {now : Int} {r : InputRow} (hw : w' = w)
      (hr : r ∈ w.db.inputs.rows) (hsha : r.sha256 = fl.inputSha256) (hpath : r.path = none) :
      SubmitStep w w' f (.selectInput fl p now) (.needUpload fl p now (some r.id))
  | cached {fl : SubmitFields} {p : Resolved} {now : Int} {r : InputRow} {path : DataPath}
      (hw : w' = w) (hr : r ∈ w.db.inputs.rows) (hsha : r.sha256 = fl.inputSha256)
      (hpath : r.path = some path) :
      SubmitStep w w' f (.selectInput fl p now) (.stat fl p now r.id path)
  | hit {fl : SubmitFields} {p : Resolved} {now id : Int} {path : DataPath} (hf : f = .ok)
      (hw : w' = w) (hfile : (w.files path).isSome) :
      SubmitStep w w' f (.stat fl p now id path) (.touch fl p now id)
  | miss {fl : SubmitFields} {p : Resolved} {now id : Int} {path : DataPath} (hw : w' = w)
      (hfile : failing f = true ∨ w.files path = none) :
      SubmitStep w w' f (.stat fl p now id path) (.clearPath fl p now id)
  | touched {fl : SubmitFields} {p : Resolved} {now id : Int}
      (hin : w'.db.inputs = w.db.inputs.update (touchInput now id)) (hfs : w'.files = w.files) :
      SubmitStep w w' f (.touch fl p now id) (.newJobId p id)
  | cleared {fl : SubmitFields} {p : Resolved} {now id : Int} (hf : f = .ok)
      (hin : w'.db.inputs = w.db.inputs.update (clearInputPath id)) (hfs : w'.files = w.files) :
      SubmitStep w w' f (.clearPath fl p now id) (.needUpload fl p now (some id))
  | wrote {fl : SubmitFields} {p : Resolved} {now : Int} {row : Option Int} {u : Upload}
      {path : DataPath} (hf : f = .ok) (hdb : w'.db = w.db)
      (hfs : w'.files = w.files.put path (some u.bytes)) :
      SubmitStep w w' f (.write fl p now row u path) (.dimensions fl p now row u path)
  | decodedOld {fl : SubmitFields} {p : Resolved} {now id : Int} {u : Upload} {path : DataPath}
      {fields : InputFields} (hdb : w'.db = w.db) (hfs : w'.files = w.files)
      (hfields : fields.path = path) :
      SubmitStep w w' f (.dimensions fl p now (some id) u path) (.updateInput fl p now id fields)
  | decodedNew {fl : SubmitFields} {p : Resolved} {now : Int} {u : Upload} {path : DataPath}
      {fields : InputFields} (hdb : w'.db = w.db) (hfs : w'.files = w.files)
      (hfields : fields.path = path) :
      SubmitStep w w' f (.dimensions fl p now none u path) (.insertInput fl p now fields)
  | stored {fl : SubmitFields} {p : Resolved} {now id : Int} {fields : InputFields} (hf : f = .ok)
      (hin : w'.db.inputs = w.db.inputs.update (storeInput now id fields))
      (hfs : w'.files = w.files) :
      SubmitStep w w' f (.updateInput fl p now id fields) (.newJobId p id)
  | inserted {fl : SubmitFields} {p : Resolved} {now : Int} {fields : InputFields}
      (hnew : ∀ r ∈ w.db.inputs.rows, r.sha256 ≠ fl.inputSha256)
      (hin : w.db.inputs.insert? (newInput (nextRowId w.db.inputs) fl.inputSha256 now fields) =
        some w'.db.inputs) (hfs : w'.files = w.files) :
      SubmitStep w w' f (.insertInput fl p now fields) (.newJobId p (nextRowId w.db.inputs))
  | duplicate {fl : SubmitFields} {p : Resolved} {now : Int} {fields : InputFields} {e : String}
      (hw : w' = w) (hdup : ∃ r ∈ w.db.inputs.rows, r.sha256 = fl.inputSha256) :
      SubmitStep w w' f (.insertInput fl p now fields) (.fail e)
  | drew {p : Resolved} {id : Int} {jobId : String} (hnew : jobId ∉ w.issued)
      (hw : w' = { w with issued := jobId :: w.issued }) :
      SubmitStep w w' f (.newJobId p id) (.seed p id jobId)
  | seeded {p : Resolved} {id : Int} {jobId : String} {u : UInt64} (hw : w' = w) :
      SubmitStep w w' f (.seed p id jobId) (.insertJob p id jobId (randomSeed u))
  | queued {p : Resolved} {id : Int} {jobId : String} {n : Int}
      (hin : w'.db.inputs = w.db.inputs) (hfs : w'.files = w.files)
      (hjob : w.db.jobs.insert? (newJob jobId id p.sourcePromptId p.promptText p.workflow
        p.timeoutSeconds n w.now) = some w'.db.jobs) :
      SubmitStep w w' f (.insertJob p id jobId n) (.wakeWorker id jobId)
  | notQueued {p : Resolved} {id : Int} {jobId : String} {n : Int} {e : String} (hw : w' = w)
      (hdup : (w.db.jobs.find? jobId).isSome) :
      SubmitStep w w' f (.insertJob p id jobId n) (.fail e)
  | woke {id : Int} {jobId : String} (hdb : w'.db = w.db) (hfs : w'.files = w.files) :
      SubmitStep w w' f (.wakeWorker id jobId) (.answered (.accepted jobId id))

theorem foldl_max_bounds (l : List Int) (a : Int) : a ≤ l.foldl max a ∧ ∀ x ∈ l, x ≤ l.foldl max a := by
  induction l generalizing a with
  | nil => exact ⟨Int.le_refl a, by simp⟩
  | cons x xs ih =>
    obtain ⟨h₁, h₂⟩ := ih (max a x)
    simp only [List.foldl_cons, List.mem_cons, forall_eq_or_imp]
    refine ⟨by omega, by omega, h₂⟩

/-- The next rowid is not taken. -/
theorem find?_nextRowId (t : Inputs) : t.find? (nextRowId t) = none := by
  rw [Table.find?_eq_none]
  intro r hr he
  have hle := (foldl_max_bounds (t.rows.map InputRow.id) 0).2 r.id (List.mem_map_of_mem hr)
  unfold nextRowId at he
  omega

theorem run_insertInput_taken {db : Db} {sha : String}
    (h : ∃ r ∈ db.inputs.rows, r.sha256 = sha) {now : Int} {fields : InputFields} :
    (Sql.insertInput sha now fields).run db =
      .error "UNIQUE constraint failed: inputs.sha256" := by
  simp only [Sql.run, if_pos h]

theorem run_insertInput_free {db : Db} {sha : String}
    (h : ¬ ∃ r ∈ db.inputs.rows, r.sha256 = sha) (now : Int) (fields : InputFields) :
    ∃ t, db.inputs.insert? (newInput (nextRowId db.inputs) sha now fields) = some t ∧
      (Sql.insertInput sha now fields).run db =
        .ok ({ db with inputs := t }, nextRowId db.inputs) := by
  obtain ⟨t, ht⟩ : ∃ t, db.inputs.insert? (newInput (nextRowId db.inputs) sha now fields) = some t :=
    Table.insert?_fresh (find?_nextRowId db.inputs)
  exact ⟨t, ht, by simp only [Sql.run, if_neg h, ht]⟩

theorem run_insertJob_none {db : Db} {row : JobRow} (h : db.jobs.insert? row = none) :
    (Sql.insertJob row).run db = .error "UNIQUE constraint failed: jobs.id" := by
  simp only [Sql.run, h]

theorem run_insertJob_some {db : Db} {row : JobRow} {t : Jobs} (h : db.jobs.insert? row = some t) :
    (Sql.insertJob row).run db = .ok ({ db with jobs := t }, ()) := by
  simp only [Sql.run, h]

/-- A new row leaves the others where they are. -/
theorem find?_insertInput {t t' : Inputs} {sha : String} {now : Int} {fields : InputFields}
    (h : t.insert? (newInput (nextRowId t) sha now fields) = some t') {id : Int} {r : InputRow}
    (hr : t.find? id = some r) : t'.find? id = some r := by
  rw [Table.find?_insert h, if_neg, hr]
  intro (hnext : nextRowId t = id)
  have hnone := find?_nextRowId t
  rw [hnext, hr] at hnone
  cases hnone

/-- A statement that violates no constraint fails only by its fate. -/
theorem exec_sql_ok {w w' : World} {q : Sql} {f : Fate} {db : Db} {a : q.Result}
    {x : Except String q.Result} (hrun : q.run w.db = .ok (db, a))
    (h : execSql w q f = some (w', x)) :
    (failing f = true ∧ w' = w ∧ ∃ e, x = .error e) ∨
      (f = .ok ∧ w' = { w with db := db } ∧ x = .ok a) := by
  cases f with
  | ok =>
    simp only [execSql, hrun] at h
    cases h
    exact .inr ⟨rfl, rfl, rfl⟩
  | sqlFails e =>
    cases h
    exact .inl ⟨rfl, rfl, e, rfl⟩
  | _ => cases h

/-- One that violates a constraint changes nothing. -/
theorem exec_sql_refused {w w' : World} {q : Sql} {f : Fate} {e : String}
    {x : Except String q.Result} (hrun : q.run w.db = .error e)
    (h : execSql w q f = some (w', x)) : w' = w ∧ ∃ e', x = .error e' := by
  rcases execSql_eq_some h with ⟨db, a, -, hrun', -, -⟩ | h
  · rw [hrun] at hrun'
    cases hrun'
  · exact h

theorem submit_step {cfg : Config} {w w' : World} {f : Fate} {pc pc' : SubmitPc}
    (h : perform (pc.next cfg w.now) f w = some (w', pc')) : SubmitStep w w' f pc pc' := by
  obtain ⟨c, k, x, hc, hex, hk⟩ := perform_eq_some.mp h
  cases pc with
  | selectPrompt fl pid =>
    cases hc
    rcases exec_sql_ok rfl hex with ⟨hf, hw, e, rfl⟩ | ⟨-, rfl, rfl⟩
    · cases hk
      exact .fails hf hw
    · generalize hres : ((w.db.prompts.find? pid).filter (fun r => r.deletedAt = none)).map
        (fun r => (r.text, r.workflow, r.timeoutSeconds)) = res at hk
      rcases res with _ | ⟨text, workflow, timeout⟩
      · cases hk
        exact .refused rfl
      · dsimp only at hk
        split at hk
        · cases hk
          exact .refused rfl
        · cases hk
          rcases SubmitPc.resolveInput_cases cfg w.now fl
            ⟨workflow, text, some pid, clampTimeoutSeconds timeout⟩ with ⟨e, he⟩ | he
          · rw [he]
            exact .refused rfl
          · rw [he]
            exact .prompt rfl
  | selectInput fl p now =>
    cases hc
    rcases exec_sql_ok rfl hex with ⟨hf, hw, e, rfl⟩ | ⟨hf, rfl, rfl⟩
    · cases hk
      exact .fails hf hw
    · cases hrow : w.db.inputs.rows.find? (fun r => r.sha256 = fl.inputSha256) with
      | none =>
        rw [hrow] at hk
        cases hk
        refine .absent hf rfl fun r hr => ?_
        simpa using List.find?_eq_none.mp hrow r hr
      | some r =>
        have hr := List.mem_of_find?_eq_some hrow
        have hsha : r.sha256 = fl.inputSha256 := by simpa using List.find?_some hrow
        rw [hrow] at hk
        dsimp only [Option.map_some] at hk
        cases hpath : r.path with
        | none =>
          rw [hpath] at hk
          cases hk
          exact .noPath rfl hr hsha hpath
        | some path =>
          rw [hpath] at hk
          cases hk
          exact .cached rfl hr hsha hpath
  | stat fl p now id path =>
    cases hc
    cases f <;> simp only [exec, execFile, reduceCtorEq, Option.some.injEq, Prod.mk.injEq] at hex
    · obtain ⟨rfl, rfl⟩ := hex
      cases hfile : (w.files path).isSome with
      | true =>
        rw [hfile] at hk
        cases hk
        exact .hit rfl rfl hfile
      | false =>
        rw [hfile] at hk
        cases hk
        exact .miss rfl (.inr (by simpa using hfile))
    · obtain ⟨rfl, rfl⟩ := hex
      cases hk
      exact .miss rfl (.inl rfl)
  | touch fl p now id =>
    cases hc
    rcases exec_sql_ok rfl hex with ⟨hf, hw, e, rfl⟩ | ⟨-, rfl, rfl⟩
    · cases hk
      exact .fails hf hw
    · cases hk
      exact .touched rfl rfl
  | clearPath fl p now id =>
    cases hc
    rcases exec_sql_ok rfl hex with ⟨hf, hw, e, rfl⟩ | ⟨hf, rfl, rfl⟩
    · cases hk
      exact .fails hf hw
    · cases hk
      exact .cleared hf rfl rfl
  | write fl p now row u path =>
    cases hc
    cases f <;> simp only [exec, execFile, reduceCtorEq, Option.some.injEq, Prod.mk.injEq] at hex
    · obtain ⟨rfl, rfl⟩ := hex
      cases hk
      exact .wrote rfl rfl rfl
    · obtain ⟨rfl, rfl⟩ := hex
      cases hk
      exact .fails rfl rfl
  | dimensions fl p now row u path =>
    cases hc
    obtain ⟨hdb, hfs⟩ := runtime_keeps hex
    cases row <;> cases hk
    · exact .decodedNew hdb hfs rfl
    · exact .decodedOld hdb hfs rfl
  | updateInput fl p now id fields =>
    cases hc
    rcases exec_sql_ok rfl hex with ⟨hf, hw, e, rfl⟩ | ⟨hf, rfl, rfl⟩
    · cases hk
      exact .fails hf hw
    · cases hk
      exact .stored hf rfl rfl
  | insertInput fl p now fields =>
    cases hc
    by_cases hdup : ∃ r ∈ w.db.inputs.rows, r.sha256 = fl.inputSha256
    · obtain ⟨hw, e, rfl⟩ := exec_sql_refused (run_insertInput_taken hdup) hex
      cases hk
      exact .duplicate hw hdup
    · obtain ⟨t, ht, hrun⟩ := run_insertInput_free hdup now fields
      rcases exec_sql_ok hrun hex with ⟨hf, hw, e, rfl⟩ | ⟨-, rfl, rfl⟩
      · cases hk
        exact .fails hf hw
      · cases hk
        exact .inserted (fun r hr he => hdup ⟨r, hr, he⟩) ht rfl
  | newJobId p inputId =>
    cases hc
    cases hk
    cases f <;> simp only [exec, execRuntime, reduceCtorEq, Option.ite_none_right_eq_some,
      Option.some.injEq, Prod.mk.injEq] at hex
    obtain ⟨⟨-, hnew⟩, rfl, rfl⟩ := hex
    exact .drew hnew rfl
  | seed p inputId id =>
    cases hc
    cases hk
    cases f <;> simp only [exec, execRuntime, reduceCtorEq, Option.some.injEq, Prod.mk.injEq] at hex
    obtain ⟨rfl, rfl⟩ := hex
    exact .seeded rfl
  | insertJob p inputId id n =>
    cases hc
    cases hins : w.db.jobs.insert? (newJob id inputId p.sourcePromptId p.promptText p.workflow
      p.timeoutSeconds n w.now) with
    | none =>
      obtain ⟨hw, e, rfl⟩ := exec_sql_refused (run_insertJob_none hins) hex
      cases hk
      exact .notQueued hw (Table.insert?_eq_none.mp hins)
    | some t =>
      rcases exec_sql_ok (run_insertJob_some hins) hex with ⟨hf, hw, e, rfl⟩ | ⟨-, rfl, rfl⟩
      · cases hk
        exact .fails hf hw
      · cases hk
        exact .queued rfl rfl hins
  | wakeWorker inputId id =>
    cases hc
    cases hk
    obtain ⟨hdb, hfs⟩ := runtime_keeps hex
    exact .woke hdb hfs
  | answered r => cases hc

/-- A submit among the tasks is there from before, has just arrived, or has moved. -/
theorem submit_origin {cfg : Config} {s t : State} {a : Act} (hm : Moved cfg s t a) {i : Nat}
    {pc : SubmitPc} (hi : t.tasks[i]? = some (.submit pc)) :
    (s.tasks[i]? = some (.submit pc) ∧ ∀ f, a ≠ .task i f) ∨
    (∃ fl, a = .arrive (.submit fl) ∧ i = s.tasks.length ∧ pc = .start cfg s.world.now fl) ∨
    (∃ f pc₀, a = .task i f ∧ s.tasks[i]? = some (.submit pc₀) ∧
      SubmitStep s.world t.world f pc₀ pc) := by
  cases hm.origin hi with
  | kept hi ha => exact .inl ⟨hi, ha⟩
  | moved hi₀ hp =>
    cases task_moved hp with
    | submit hp => exact .inr (.inr ⟨_, _, rfl, hi₀, submit_step hp⟩)
  | arrived hlen hτ =>
    rename_i r
    cases r with
    | submit fl =>
      cases hτ
      exact .inr (.inl ⟨fl, rfl, hlen, rfl⟩)
    | _ => cases hτ
  | spawned hi hp hg hτ => cases hτ
  | dropped hτ => cases hτ

/-- The answer a submit got. -/
def answerAt (s : State) (i : Nat) : Option Response :=
  match s.tasks[i]? with
  | some (.submit (.answered r)) => some r
  | _ => none

theorem answerAt_eq_some {s : State} {i : Nat} {r : Response} (h : answerAt s i = some r) :
    s.tasks[i]? = some (.submit (.answered r)) := by
  unfold answerAt at h
  split at h
  · rename_i hi
    rw [hi, Option.some.inj h]
  · cases h

end ZunServer.SubmitSteps
