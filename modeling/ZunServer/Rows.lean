import ZunServer.SubmitSteps

/-!
# Rows over time

Job ids are UUIDs that the server draws and never draws again. An id is settled
once it has been drawn and no submit is still to insert it: from then on the row
of that id can only be updated or removed. This is what lets a fact about a row
be carried along while other tasks run.
-/
namespace ZunServer.Rows

open KeyedTable
open Schema Statements Database Comfy Calls Renditions Worker Handlers Purge Server
open SubmitSteps

/-- The row of a job. -/
def row? (s : State) (id : String) : Option JobRow := s.world.db.jobs.find? id

/-- The row of a job, if there is one, satisfies `P`. -/
def OnRow (s : State) (id : String) (P : JobRow → Prop) : Prop := ∀ r, row? s id = some r → P r

theorem OnRow.mono {s : State} {id : String} {P Q : JobRow → Prop} (h : OnRow s id P)
    (hPQ : ∀ r, P r → Q r) : OnRow s id Q := fun r hr => hPQ r (h r hr)

/-- The id that a submit has drawn and not yet inserted. -/
def reserves : ServerTask → Option String
  | .submit (.seed _ _ id) | .submit (.insertJob _ _ id _) => some id
  | _ => none

def Settled (s : State) (id : String) : Prop :=
  id ∈ s.world.issued ∧ ∀ (i : Nat) τ, s.tasks[i]? = some τ → reserves τ ≠ some id

structure IdsOk (s : State) : Prop where
  uuid : ∀ id ∈ s.world.issued, isUuid id
  rows : ∀ r ∈ s.world.db.jobs.rows, Settled s r.id
  reserved : ∀ (i : Nat) τ id, s.tasks[i]? = some τ → reserves τ = some id →
    id ∈ s.world.issued ∧ row? s id = none
  distinct : ∀ (i j : Nat) τ τ' id, s.tasks[i]? = some τ → s.tasks[j]? = some τ' →
    reserves τ = some id → reserves τ' = some id → i = j

theorem IdsOk.settled {s : State} (h : IdsOk s) {id : String} {r : JobRow} (hr : row? s id = some r) :
    Settled s id := by
  obtain ⟨hm, rfl⟩ := Table.find?_eq_some.mp hr
  exact h.rows r hm

theorem exec_issued {w w' : World} {c : Call} {f : Fate} {x : c.Answer}
    (h : exec w c f = some (w', x)) :
    w'.issued = w.issued ∨ ∃ id, isUuid id ∧ id ∉ w.issued ∧ w'.issued = id :: w.issued := by
  rcases (exec_change h).issued with h | ⟨q, -, h | ⟨id, -, hu, hf, h⟩⟩
  · exact .inl h
  · exact .inl h
  · exact .inr ⟨id, hu, hf, h⟩

/-- Ids stay drawn, and a new one is a UUID not drawn before. -/
theorem moved_issued {cfg : Config} {s t : State} {a : Act} (h : Moved cfg s t a) :
    t.world.issued = s.world.issued ∨
      ∃ id, isUuid id ∧ id ∉ s.world.issued ∧ t.world.issued = id :: s.world.issued := by
  cases h with
  | worker h tasks =>
    obtain ⟨c, k, x, -, hex, -⟩ := perform_eq_some.mp h
    exact exec_issued hex
  | task hi h worker tasks =>
    obtain ⟨c, k, x, -, hex, -⟩ := perform_eq_some.mp h
    exact exec_issued hex
  | writer h worker tasks =>
    obtain ⟨wr, wr', -, hw, -⟩ := writerStep_change h
    exact .inl (by rw [hw])
  | arrive world worker tasks => exact .inl (by rw [world])
  | drop hi live world worker tasks => exact .inl (by rw [world])
  | env h worker tasks => exact .inl (Env.apply_change h).issued
  | crash h => exact .inl (by rw [h]; rfl)

theorem issued_mono {cfg : Config} {s t : State} {a : Act} (h : Moved cfg s t a) {id : String}
    (hid : id ∈ s.world.issued) : id ∈ t.world.issued := by
  rcases moved_issued h with h | ⟨_, -, -, h⟩
  · rw [h]
    exact hid
  · rw [h]
    exact List.mem_cons_of_mem _ hid

theorem reserves_needUpload (f : SubmitFields) (p : Resolved) (now : Int) (row : Option Int) :
    reserves (.submit (.needUpload f p now row)) = none := by
  rcases SubmitPc.needUpload_cases f p now row with ⟨e, h⟩ | ⟨u, path, -, h⟩ <;> (rw [h]; rfl)

theorem reserves_start (cfg : Config) (now : Int) (f : SubmitFields) :
    reserves (.submit (.start cfg now f)) = none := by
  rcases SubmitPc.start_cases cfg now f with ⟨e, h⟩ | ⟨-, ⟨pid, h⟩ | ⟨p, h⟩⟩ <;> (rw [h]; rfl)

/-- A task reserves an id by drawing it, and keeps it until the `INSERT`. -/
theorem reserves_perform {cfg : Config} {τ₀ τ : ServerTask} {f : Fate} {w w' : World}
    (h : perform (τ₀.next cfg w.now) f w = some (w', τ)) {id : String}
    (hτ : reserves τ = some id) :
    (reserves τ₀ = some id ∧ w'.issued = w.issued ∧ w'.db = w.db) ∨
      (id ∉ w.issued ∧ w'.issued = id :: w.issued ∧ w'.db = w.db) := by
  cases task_moved h with
  | submit hp =>
    cases submit_step hp with
    | drew hnew hw =>
      obtain rfl := Option.some.inj hτ
      subst hw
      exact .inr ⟨hnew, rfl, rfl⟩
    | seeded hw =>
      subst hw
      exact .inl ⟨hτ, rfl, rfl⟩
    | absent hf hw hnone | noPath hw hr hsha hpath | cleared hf hin hfs =>
      rw [reserves_needUpload] at hτ
      cases hτ
    | _ => cases hτ
  | cancel _ | hide _ | derived _ | generate _ | purge _ | get _ | prompt _ => cases hτ

/-- The same of a whole step. -/
theorem reserves_origin {cfg : Config} {s t : State} {a : Act} (h : Moved cfg s t a) {i : Nat}
    {τ : ServerTask} {id : String} (hi : t.tasks[i]? = some τ) (hτ : reserves τ = some id) :
    (∃ τ₀, s.tasks[i]? = some τ₀ ∧ reserves τ₀ = some id ∧
      (τ₀ = τ ∧ (∀ f, a ≠ .task i f) ∨ t.world.issued = s.world.issued ∧ t.world.db = s.world.db)) ∨
    (id ∉ s.world.issued ∧ t.world.issued = id :: s.world.issued ∧ t.world.db = s.world.db ∧
      ∃ f, a = .task i f) := by
  cases h.origin hi with
  | kept hi ha => exact .inl ⟨τ, hi, hτ, .inl ⟨rfl, ha⟩⟩
  | moved hi₀ hp =>
    rename_i f τ₀
    rcases reserves_perform hp hτ with ⟨h₀, hiss, hdb⟩ | ⟨hf, hiss, hdb⟩
    · exact .inl ⟨τ₀, hi₀, h₀, .inr ⟨hiss, hdb⟩⟩
    · exact .inr ⟨hf, hiss, hdb, f, rfl⟩
  | arrived hi hτ' =>
    rename_i r
    subst hτ'
    cases r with
    | submit f =>
      exfalso
      simp only [Request.start] at hτ
      rw [reserves_start] at hτ
      cases hτ
    | _ => cases hτ
  | spawned hi h hg hτ' =>
    subst hτ'
    cases hτ
  | dropped hτ' =>
    subst hτ'
    cases hτ

theorem Settled.step {cfg : Config} {s t : State} {a : Act} (h : Moved cfg s t a) {id : String}
    (hs : Settled s id) : Settled t id := by
  refine ⟨issued_mono h hs.1, fun i τ hi hτ => ?_⟩
  rcases reserves_origin h hi hτ with ⟨τ₀, hi₀, h₀, -⟩ | ⟨hf, -⟩
  · exact hs.2 i τ₀ hi₀ h₀
  · exact hf hs.1

theorem row?_insert {s t : State} {row : JobRow}
    (h : s.world.db.jobs.insert? row = some t.world.db.jobs) (id : String) :
    row? t id = if row.id = id then some row else row? s id := Table.find?_insert h id

/-- What a step does to a settled row: it is as before, a statement updates it,
or purge removes it. -/
inductive RowStep (s t : State) (a : Act) (id : String) : Prop
  | same (h : row? t id = row? s id)
  | update {st : JobStmt} (hst : Issues s a st) (h : row? t id = (row? s id).map st.update.row)
  | delete {i : Nat} {f : Fate} {o : PurgeOpts} {r : PurgeReport} {j : StaleJob}
      {todo : List StaleJob} (ha : a = .task i f)
      (hi : s.tasks[i]? = some (.purge (.deleteRow o r j todo))) (hj : j.id = id)
      (h : row? t id = none)

theorem row_step {cfg : Config} {s t : State} {a : Act} (h : Moved cfg s t a) {id : String}
    (hs : Settled s id) : RowStep s t a id := by
  cases h.jobs with
  | same h => exact .same (by unfold row?; rw [h])
  | update hst h => exact .update hst (by unfold row?; rw [h, Table.find?_update])
  | insert ha hi h =>
    rename_i i f p inputId n id'
    have hne : id' ≠ id := fun he => hs.2 i _ hi (by rw [he]; rfl)
    exact .same (by rw [row?_insert h]; exact if_neg hne)
  | delete ha hi h =>
    rename_i i f o r j todo
    have hrow : row? t id = (row? s id).filter (fun row => !decide (row.id = j.id)) := by
      unfold row?
      rw [h, Table.find?_delete]
    cases hr : row? s id with
    | none => exact .same (by rw [hrow, hr]; rfl)
    | some row =>
      have hid : row.id = id := Table.find?_key hr
      rw [hr, Option.filter_some, hid] at hrow
      by_cases hj : j.id = id
      · exact .delete ha hi hj (by simpa [hj] using hrow)
      · have hj' : ¬ id = j.id := fun he => hj he.symm
        exact .same (by rw [hr]; simpa [hj'] using hrow)

/-- A fact about a settled row that every statement issued here keeps. -/
theorem OnRow.step {cfg : Config} {s t : State} {a : Act} (h : Moved cfg s t a) {id : String}
    (hs : Settled s id) {P : JobRow → Prop} (hP : OnRow s id P)
    (hst : ∀ st r, Issues s a st → row? s id = some r → P r → P (st.update.row r)) :
    OnRow t id P := by
  intro r' hr'
  cases row_step h hs with
  | same h => exact hP r' (h ▸ hr')
  | update hi h =>
    rw [h, Option.map_eq_some_iff] at hr'
    obtain ⟨r, hr, rfl⟩ := hr'
    exact hst _ r hi hr (hP r hr)
  | delete ha hi hj h =>
    rw [h] at hr'
    cases hr'

/-- A fact about every row: the statements issued here keep it, and the row of a new job has it. -/
theorem rows_moved {cfg : Config} {s t : State} {a : Act} (h : Moved cfg s t a) {P : JobRow → Prop}
    (hP : ∀ r ∈ s.world.db.jobs.rows, P r)
    (hst : ∀ st, Issues s a st → ∀ r ∈ s.world.db.jobs.rows, P (st.update.row r))
    (hins : ∀ (i : Nat) (p : Resolved) (inputId n : Int) (id : String),
      s.tasks[i]? = some (.submit (.insertJob p inputId id n)) →
        P (newJob id inputId p.sourcePromptId p.promptText p.workflow p.timeoutSeconds n
          s.world.now)) :
    ∀ r ∈ t.world.db.jobs.rows, P r := by
  intro r hr
  cases h.jobs with
  | same he => exact hP r (he ▸ hr)
  | update hi he =>
    rw [he] at hr
    obtain ⟨r₀, hr₀, rfl⟩ := Table.mem_update.mp hr
    exact hst _ hi r₀ hr₀
  | insert ha hi he =>
    rw [(Table.insert?_eq_some.mp he).2] at hr
    rcases List.mem_append.mp hr with hr | hr
    · exact hP r hr
    · obtain rfl := List.mem_singleton.mp hr
      exact hins _ _ _ _ _ hi
  | delete ha hi he =>
    rw [he] at hr
    exact hP r (Table.mem_delete.mp hr).1

theorem IdsOk.init : IdsOk State.init where
  uuid id h := by simp [State.init, World.empty] at h
  rows r h := by simp [State.init, World.empty, Db.empty, Table.empty] at h
  reserved i τ id h := by simp [State.init] at h
  distinct i j τ τ' id h := by simp [State.init] at h

theorem IdsOk.fresh {s : State} (h : IdsOk s) {id : String} (hid : id ∉ s.world.issued) :
    row? s id = none := by
  cases hr : row? s id with
  | none => rfl
  | some r => exact absurd (h.settled hr).1 hid

/-- No task still reserves the id that a step has just inserted. -/
theorem settled_inserted {cfg : Config} {s t : State} {a : Act} (h : Moved cfg s t a)
    (hok : IdsOk s) {i : Nat} {f : Fate} {p : Resolved} {inputId n : Int} {id : String}
    (ha : a = .task i f) (hi : s.tasks[i]? = some (.submit (.insertJob p inputId id n)))
    {row : JobRow} (hid : row.id = id)
    (hins : s.world.db.jobs.insert? row = some t.world.db.jobs) : Settled t id := by
  have hres := hok.reserved i _ id hi rfl
  refine ⟨issued_mono h hres.1, fun j τ hj hτ => ?_⟩
  have hrow : row? t id = some row := by rw [row?_insert hins, if_pos hid]
  have hdb : t.world.db ≠ s.world.db := fun he => by
    have : row? s id = some row := by
      rw [← hrow]
      unfold row?
      rw [he]
    rw [hres.2] at this
    cases this
  rcases reserves_origin h hj hτ with ⟨τ₀, hj₀, hτ₀, ⟨-, hne⟩ | ⟨-, he⟩⟩ | ⟨hf, -⟩
  · obtain rfl := hok.distinct i j _ _ id hi hj₀ rfl hτ₀
    exact hne f ha
  · exact hdb he
  · exact hf hres.1

theorem IdsOk.step {cfg : Config} {s t : State} {a : Act} (h : Moved cfg s t a) (hok : IdsOk s) :
    IdsOk t where
  uuid id hid := by
    rcases moved_issued h with he | ⟨id', hu, -, he⟩
    · exact hok.uuid id (he ▸ hid)
    · rw [he] at hid
      rcases List.mem_cons.mp hid with rfl | hid
      · exact hu
      · exact hok.uuid id hid
  rows r hr := by
    cases h.jobs with
    | same he => exact (hok.rows r (he ▸ hr)).step h
    | update hst he =>
      rename_i st
      rw [he] at hr
      obtain ⟨r₀, hr₀, rfl⟩ := Table.mem_update.mp hr
      have hid := st.update.row_key r₀
      rw [hid]
      exact (hok.rows r₀ hr₀).step h
    | insert ha hi hins =>
      rw [(Table.insert?_eq_some.mp hins).2] at hr
      rcases List.mem_append.mp hr with hr | hr
      · exact (hok.rows r hr).step h
      · obtain rfl := List.mem_singleton.mp hr
        exact settled_inserted h hok ha hi rfl hins
    | delete ha hi he =>
      rw [he] at hr
      exact (hok.rows r (Table.mem_delete.mp hr).1).step h
  reserved i τ id hi hτ := by
    rcases reserves_origin h hi hτ with ⟨τ₀, hi₀, hτ₀, hcase⟩ | ⟨hf, hiss, hdb, -⟩
    · have hres := hok.reserved i τ₀ id hi₀ hτ₀
      refine ⟨issued_mono h hres.1, ?_⟩
      cases h.jobs with
      | same he =>
        unfold row? at hres ⊢
        rw [he]
        exact hres.2
      | update hst he =>
        unfold row? at hres ⊢
        rw [he, Table.find?_update, hres.2]
        rfl
      | insert ha hj hins =>
        rw [row?_insert hins]
        split
        · rename_i hid
          subst hid
          exact absurd hτ ((settled_inserted h hok ha hj rfl hins).2 i τ hi)
        · exact hres.2
      | delete ha hj he =>
        unfold row? at hres ⊢
        rw [he, Table.find?_delete, hres.2]
        rfl
    · refine ⟨by rw [hiss]; exact List.mem_cons_self, ?_⟩
      have := hok.fresh hf
      unfold row? at this ⊢
      rw [hdb]
      exact this
  distinct i j τ τ' id hi hj hτ hτ' := by
    rcases reserves_origin h hi hτ with ⟨τ₀, hi₀, hτ₀, -⟩ | ⟨hf, -, -, f, ha⟩
    · rcases reserves_origin h hj hτ' with ⟨τ₁, hj₀, hτ₁, -⟩ | ⟨hf, -⟩
      · exact hok.distinct i j τ₀ τ₁ id hi₀ hj₀ hτ₀ hτ₁
      · exact absurd (hok.reserved i τ₀ id hi₀ hτ₀).1 hf
    · rcases reserves_origin h hj hτ' with ⟨τ₁, hj₀, hτ₁, -⟩ | ⟨-, -, -, f', ha'⟩
      · exact absurd (hok.reserved j τ₁ id hj₀ hτ₁).1 hf
      · rw [ha] at ha'
        cases ha'
        rfl

theorem reachable_ids {cfg : Config} {s : State} (h : Reachable cfg s) : IdsOk s :=
  Runs.Reachable.invariant IdsOk.init (fun _ _ _ hok hs => hok.step (step_moved hs)) h

end ZunServer.Rows
