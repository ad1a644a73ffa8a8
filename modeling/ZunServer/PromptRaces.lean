import Mathlib.Data.List.Permutation
import ZunServer.PromptPatches
import ZunServer.Serial

/-!
# Requests that race for a prompt

`update` reads the row, checks and edits a copy, writes every column of the copy
back in another statement, which asks for nothing but the id, and reads the row
again to answer; nothing holds these three together. `delete` is one statement.
As long as no copy is out of date when it is written back, and nobody changes the
row before it is read again, the requests might as well have come one by one.
-/
namespace ZunServer.PromptRaces

open KeyedTable Serde Serial
open Schema Statements Database Calls CustomPrompts Server PromptPatches

/-- The row of the prompt. -/
def prompt (s : State) (id : Int) : Option PromptRow := s.world.db.prompts.find? id

/-- A patch or a delete of the prompt, as it arrives. -/
def OnPrompt (id : Int) (τ : ServerTask) : Prop :=
  (∃ body, τ = .prompt (.patch id body)) ∨ ∃ now, τ = .prompt (.delete id now)

/-- Nothing moves but the requests and the clock. -/
def requestsOnly : Act → Bool
  | .task _ _ | .env (.clock _) => true
  | _ => false

/-- The statements that request `i` has executed, each with the time it was executed at. -/
def turns (i : Nat) (past : List (State × Act)) : List (Int × Fate) :=
  past.filterMap fun x => match x.2 with
    | .task j f => if j = i then some (x.1.world.now, f) else none
    | _ => none

/-- These statements again, request by request. -/
def oneByOne (past : List (State × Act)) (order : List Nat) : List Act :=
  order.flatMap fun i => (turns i past).flatMap fun x => [.env (.clock x.1), .task i x.2]

/-- Apart from the columns of the body, the copy is what the row is, and the row is live. -/
def current (b : UpdatePrompt) (f : PromptFields) (r : PromptRow) : Bool :=
  r.deletedAt = none ∧ (b.label = none → f.label = r.label) ∧
    (b.description = none → f.description = r.description) ∧ (b.text = none → f.text = r.text) ∧
    (b.workflow = none → f.workflow = r.workflow) ∧
    (b.timeoutSeconds = none → f.timeoutSeconds = r.timeoutSeconds)

/-- If request `i` is about to write its copy back, the copy is up to date. -/
def upToDate (s u : State) (id : Int) (i : Nat) : Bool :=
  match s.tasks[i]?, u.tasks[i]? with
  | some (.prompt (.fetch _ b)), some (.prompt (.update _ f _)) => (prompt u id).any (current b f)
  | _, _ => true

/-- The statement that request `i` is about to execute changes the row. -/
def changes (u : State) (id : Int) (i : Nat) : Bool :=
  match u.tasks[i]? with
  | some (.prompt (.update _ f now)) =>
    (prompt u id).any fun r => (Database.updatePrompt now id f).row r ≠ r
  | some (.prompt (.delete _ now)) =>
    (prompt u id).any fun r => (Database.deletePrompt now id).row r ≠ r
  | _ => false

/-- Some other request has written its copy back and is to read the row again. -/
def readsBack (u : State) (i : Nat) : Bool :=
  (List.range u.tasks.length).any fun j => j ≠ i && match u.tasks[j]? with
    | some (.prompt (.refetch _)) => true
    | _ => false

/-- The request whose statement is executed. -/
def executes : Act → Option Nat
  | .task i .ok => some i
  | _ => none

/-- No copy is written back out of date, and none written back is overtaken. -/
def Careful (s : State) (id : Int) (u : State) (a : Act) : Prop :=
  ∀ i ∈ executes a, upToDate s u id i = true ∧ (changes u id i = true → readsBack u i = false)

instance (s : State) (id : Int) (u : State) (a : Act) : Decidable (Careful s id u a) :=
  inferInstanceAs (Decidable (∀ i ∈ executes a, _ = true ∧ (_ = true → _ = false)))

/-- No request sees this prompt. -/
def Gone (T : Option PromptRow) : Prop := ∀ r, T = some r → r.deletedAt ≠ none

/-- A request that has a statement to execute. -/
def Pending (id : Int) (p : PromptPc) : Prop :=
  (∃ b, p = .fetch id b) ∨ (∃ f now, p = .update id f now) ∨ p = .refetch id ∨ ∃ now, p = .delete id now

/-- What a statement of a request does to the row, and where the request goes on. -/
inductive Statement (cfg : Config) (id now : Int) : Fate → PromptPc → Option PromptRow → PromptPc →
    Option PromptRow → Prop
  | missed {b : UpdatePrompt} {T : Option PromptRow} (h : Gone T) :
      Statement cfg id now .ok (.fetch id b) T (.refuse .notFound) T
  | invalid {b : UpdatePrompt} {r : PromptRow} {e : String} (live : r.deletedAt = none)
      (h : b.apply cfg (.of r) = .error e) :
      Statement cfg id now .ok (.fetch id b) (some r) (.refuse (.badRequest e)) (some r)
  | read {b : UpdatePrompt} {r : PromptRow} {f : PromptFields} (live : r.deletedAt = none)
      (h : b.apply cfg (.of r) = .ok f) :
      Statement cfg id now .ok (.fetch id b) (some r) (.update id f now) (some r)
  | updated {f : PromptFields} {n : Int} {T : Option PromptRow} :
      Statement cfg id now .ok (.update id f n) T (.refetch id)
        (T.map (Database.updatePrompt n id f).row)
  | lost {T : Option PromptRow} (h : Gone T) :
      Statement cfg id now .ok (.refetch id) T (.refuse .notFound) T
  | seen {r : PromptRow} (live : r.deletedAt = none) :
      Statement cfg id now .ok (.refetch id) (some r) (.answered (.prompt (.of r) false)) (some r)
  | deleted {r : PromptRow} {n : Int} (live : r.deletedAt = none) :
      Statement cfg id now .ok (.delete id n) (some r) (.answered .noContent)
        (some { r with deletedAt := some n })
  | absent {n : Int} {T : Option PromptRow} (h : Gone T) :
      Statement cfg id now .ok (.delete id n) T (.refuse .notFound) T
  | failed {p : PromptPc} {e : String} {T : Option PromptRow} (h : Pending id p) :
      Statement cfg id now (.sqlFails e) p T (.refuse (.internal e)) T

/-- One statement at a given time. -/
def turn (cfg : Config) (s : World × PromptPc) (x : Int × Fate) : Option (World × PromptPc) :=
  perform (s.2.next cfg x.1) x.2 { s.1 with now := x.1 }

/-- With the row to itself, a request goes through these statements. -/
def Leads (cfg : Config) (id : Int) (l : List (Int × Fate)) (p : PromptPc) (T : Option PromptRow)
    (p' : PromptPc) (T' : Option PromptRow) : Prop :=
  ∀ w : World, w.db.prompts.find? id = T →
    ∃ w', Runs.run (turn cfg) l (w, p) = some (w', p') ∧ w'.db.prompts.find? id = T'

theorem Leads.append {cfg : Config} {id : Int} {l l' : List (Int × Fate)} {p p' p'' : PromptPc}
    {T T' T'' : Option PromptRow} (h : Leads cfg id l p T p' T') (h' : Leads cfg id l' p' T' p'' T'') :
    Leads cfg id (l ++ l') p T p'' T'' := by
  intro w hw
  obtain ⟨w', hrun, hw'⟩ := h w hw
  obtain ⟨w'', hrun', hw''⟩ := h' w' hw'
  exact ⟨w'', Runs.run_trans hrun hrun', hw''⟩

theorem gone_filter {T : Option PromptRow} :
    T.filter (fun r => r.deletedAt = none) = none ↔ Gone T := by
  cases T <;> simp [Gone]

/-- How a request sees the row. -/
theorem live_cases (T : Option PromptRow) :
    Gone T ∨ ∃ r, T = some r ∧ r.deletedAt = none := by
  cases T with
  | none => exact .inl fun r h => by cases h
  | some r =>
    by_cases h : r.deletedAt = none
    · exact .inr ⟨r, rfl, h⟩
    · refine .inl fun r' hr' => ?_
      cases hr'
      exact h

theorem fetch_gone {db : Db} {id : Int} (h : Gone (db.prompts.find? id)) :
    (Sql.fetchPrompt id).run db = .ok (db, none) := by
  simp only [Sql.run, gone_filter.mpr h, Option.map_none]

theorem affected_delete {t : Prompts} {id now : Int} : t.affected (Database.deletePrompt now id) =
    if (t.find? id).any (fun r => (Database.deletePrompt now id).cond r) then 1 else 0 := by
  refine Table.affected_keyed fun r hr => ?_
  simp only [Database.deletePrompt, decide_eq_true_eq] at hr
  exact hr.1

theorem affected_gone {t : Prompts} {id : Int} (now : Int) (h : Gone (t.find? id)) :
    t.affected (Database.deletePrompt now id) = 0 := by
  rw [affected_delete]
  cases hT : t.find? id with
  | none => rfl
  | some r => simp [Database.deletePrompt, h r hT]

theorem affected_live {t : Prompts} {r : PromptRow} (now : Int) (hr : t.find? r.id = some r)
    (live : r.deletedAt = none) : t.affected (Database.deletePrompt now r.id) = 1 := by
  rw [affected_delete, hr]
  simp [Database.deletePrompt, live]

theorem deletePrompt_live {r : PromptRow} (now : Int) (live : r.deletedAt = none) :
    (Database.deletePrompt now r.id).row r = { r with deletedAt := some now } := by
  rw [Update.row_of_cond _ (by simp [Database.deletePrompt, live])]
  rfl

theorem deletePrompt_gone {T : Option PromptRow} (now id : Int) (h : Gone T) :
    T.map (Database.deletePrompt now id).row = T := by
  cases T with
  | none => rfl
  | some r =>
    rw [Option.map_some, Update.row_of_not _ (by simp [Database.deletePrompt, h r rfl])]

theorem statement_step {cfg : Config} {id : Int} {p p' : PromptPc} {f : Fate} {w w' : World}
    (hp : Pending id p) (h : perform (p.next cfg w.now) f w = some (w', p')) :
    Statement cfg id w.now f p (w.db.prompts.find? id) p' (w'.db.prompts.find? id) := by
  obtain ⟨c, k, x, hc, hex, hk⟩ := perform_eq_some.mp h
  rcases hp with ⟨b, rfl⟩ | ⟨fields, n, rfl⟩ | rfl | ⟨n, rfl⟩
  · cases hc
    rcases live_cases (w.db.prompts.find? id) with hgone | ⟨r, hr, live⟩
    · rcases exec_sql (fetch_gone hgone) hex with ⟨rfl, rfl, rfl⟩ | ⟨e, rfl, rfl, rfl⟩ <;> cases hk
      · exact .missed hgone
      · exact .failed (.inl ⟨b, rfl⟩)
    · rcases exec_sql (fetch_live hr live) hex with ⟨rfl, rfl, rfl⟩ | ⟨e, rfl, rfl, rfl⟩
      · rw [hr]
        dsimp only at hk
        cases happ : b.apply cfg (.of r) with
        | error e =>
          rw [happ] at hk
          cases hk
          exact .invalid live happ
        | ok fields =>
          rw [happ] at hk
          cases hk
          exact .read live happ
      · cases hk
        exact .failed (.inl ⟨b, rfl⟩)
  · cases hc
    rcases exec_sql rfl hex with ⟨rfl, rfl, rfl⟩ | ⟨e, rfl, rfl, rfl⟩ <;> cases hk
    · rw [Table.find?_update]
      exact .updated
    · exact .failed (.inr (.inl ⟨fields, n, rfl⟩))
  · cases hc
    rcases live_cases (w.db.prompts.find? id) with hgone | ⟨r, hr, live⟩
    · rcases exec_sql (fetch_gone hgone) hex with ⟨rfl, rfl, rfl⟩ | ⟨e, rfl, rfl, rfl⟩ <;> cases hk
      · exact .lost hgone
      · exact .failed (.inr (.inr (.inl rfl)))
    · rcases exec_sql (fetch_live hr live) hex with ⟨rfl, rfl, rfl⟩ | ⟨e, rfl, rfl, rfl⟩ <;> cases hk
      · rw [hr]
        exact .seen live
      · exact .failed (.inr (.inr (.inl rfl)))
  · cases hc
    rcases exec_sql rfl hex with ⟨rfl, rfl, rfl⟩ | ⟨e, rfl, rfl, rfl⟩
    · dsimp only at hk
      rw [Table.find?_update]
      rcases live_cases (w.db.prompts.find? id) with hgone | ⟨r, hr, live⟩
      · rw [affected_gone n hgone] at hk
        rw [deletePrompt_gone n id hgone]
        cases hk
        exact .absent hgone
      · obtain rfl : r.id = id := Table.find?_key hr
        rw [affected_live n hr live] at hk
        rw [hr, Option.map_some, deletePrompt_live n live]
        cases hk
        exact .deleted live
    · cases hk
      exact .failed (.inr (.inr (.inr ⟨n, rfl⟩)))

theorem turn_run {cfg : Config} {n : Int} {p p' : PromptPc} {q : Sql}
    {k : Except String q.Result → PromptPc} {w : World} {db : Db} {a : q.Result}
    (hp : p.next cfg n = some ⟨.sql q, k⟩) (hq : q.run w.db = .ok (db, a)) (hk : k (.ok a) = p') :
    Runs.run (turn cfg) [(n, .ok)] (w, p) = some ({ w with now := n, db := db }, p') := by
  simp [turn, perform, exec, execSql, hp, hq, hk]

theorem turn_fails {cfg : Config} {n : Int} {p p' : PromptPc} {q : Sql}
    {k : Except String q.Result → PromptPc} {w : World} {e : String}
    (hp : p.next cfg n = some ⟨.sql q, k⟩) (hk : k (.error e) = p') :
    Runs.run (turn cfg) [(n, .sqlFails e)] (w, p) = some ({ w with now := n }, p') := by
  simp [turn, perform, exec, execSql, hp, hk]

/-- A statement does the same in every world with this row. -/
theorem statement_leads {cfg : Config} {id n : Int} {f : Fate} {p p' : PromptPc}
    {T T' : Option PromptRow} (h : Statement cfg id n f p T p' T') :
    Leads cfg id [(n, f)] p T p' T' := by
  intro w hw
  cases h with
  | missed hgone => exact ⟨_, turn_run rfl (fetch_gone (hw ▸ hgone)) rfl, hw⟩
  | invalid live happ =>
    exact ⟨_, turn_run rfl (fetch_live hw live) (by simp only [happ]), hw⟩
  | read live happ =>
    exact ⟨_, turn_run rfl (fetch_live hw live) (by simp only [happ]), hw⟩
  | updated =>
    refine ⟨_, turn_run rfl rfl rfl, ?_⟩
    rw [Table.find?_update, hw]
  | lost hgone => exact ⟨_, turn_run rfl (fetch_gone (hw ▸ hgone)) rfl, hw⟩
  | seen live => exact ⟨_, turn_run rfl (fetch_live hw live) rfl, hw⟩
  | @deleted r m live =>
    obtain rfl : r.id = id := Table.find?_key hw
    refine ⟨_, turn_run rfl rfl (by simp only [affected_live m hw live]; rfl), ?_⟩
    rw [Table.find?_update, hw, Option.map_some, deletePrompt_live m live]
  | @absent m T hgone =>
    refine ⟨_, turn_run rfl rfl (by simp only [affected_gone m (hw ▸ hgone)]; rfl), ?_⟩
    rw [Table.find?_update, hw, deletePrompt_gone m id hgone]
  | failed hp =>
    rcases hp with ⟨b, rfl⟩ | ⟨fields, m, rfl⟩ | rfl | ⟨m, rfl⟩ <;> exact ⟨_, turn_fails rfl rfl, hw⟩

theorem getD_kept {α : Type} {x : Option α} {old new : α} (h : x = none → x.getD old = new) :
    x.getD new = x.getD old := by
  cases x with
  | none => exact (h rfl).symm
  | some a => rfl

/-- A copy that is up to date is the one that the request would make now. -/
theorem apply_current {cfg : Config} {b : UpdatePrompt} {r₀ r : PromptRow} {f : PromptFields}
    (h : b.apply cfg (.of r₀) = .ok f) (hcur : current b f r = true) :
    b.apply cfg (.of r) = .ok f := by
  rw [apply_any h]
  have hf := apply_ok h
  subst hf
  simp only [current, decide_eq_true_eq] at hcur
  obtain ⟨-, hl, hd, ht, hw, hs⟩ := hcur
  simp only [CustomPromptRow.of] at hl hd ht hw hs ⊢
  rw [getD_kept hl, getD_kept hd, getD_kept ht, getD_kept hw, getD_kept hs]

theorem turns_self (i : Nat) (past : List (State × Act)) (u : State) (f : Fate) :
    turns i (past ++ [(u, .task i f)]) = turns i past ++ [(u.world.now, f)] := by simp [turns]

theorem turns_other {i : Nat} {a : Act} (h : ∀ f, a ≠ .task i f) (past : List (State × Act))
    (u : State) : turns i (past ++ [(u, a)]) = turns i past := by
  cases a with
  | task j f =>
    have hne : j ≠ i := by
      rintro rfl
      exact h f rfl
    simp [turns, hne]
  | _ => simp [turns]

/-- What a request that is through has done to the row. -/
inductive Effect (id : Int) (p₀ : PromptPc) : Response → Option PromptRow → Option PromptRow → Prop
  | idle {resp : Response} {T : Option PromptRow} (h : ∀ row, resp ≠ .prompt row false) :
      Effect id p₀ resp T T
  | patched {b : UpdatePrompt} {r : PromptRow} {now : Int} {resp : Response} (h : p₀ = .fetch id b) :
      Effect id p₀ resp (some r) (some (written b now r))
  | deleted {r : PromptRow} {now : Int} (h : p₀ = .delete id now) :
      Effect id p₀ .noContent (some r) (some { r with deletedAt := some now })

/-- Request `i` has begun; alone, it would have come as far from one row to the other. -/
inductive Link (cfg : Config) (id : Int) (s u : State) (past : List (State × Act)) (i : Nat) :
    Option PromptRow → Option PromptRow → Prop
  | read {b : UpdatePrompt} {f : PromptFields} {r₀ : PromptRow} {now : Int} {T : Option PromptRow}
      (start : s.tasks[i]? = some (.prompt (.fetch id b)))
      (pc : u.tasks[i]? = some (.prompt (.update id f now)))
      (valid : b.apply cfg (.of r₀) = .ok f) (once : turns i past = [(now, .ok)])
      (leads : Leads cfg id (turns i past) (.fetch id b) T (.update id f now) T) :
      Link cfg id s u past i T T
  -- what it has written is still what the row is
  | wrote {b : UpdatePrompt} {r : PromptRow} {now : Int}
      (start : s.tasks[i]? = some (.prompt (.fetch id b)))
      (pc : u.tasks[i]? = some (.prompt (.refetch id))) (live : r.deletedAt = none)
      (leads : Leads cfg id (turns i past) (.fetch id b) (some r) (.refetch id)
        (some (written b now r)))
      (cur : prompt u id = some (written b now r)) :
      Link cfg id s u past i (some r) (some (written b now r))
  | through {p₀ : PromptPc} {resp : Response} {T T₁ : Option PromptRow}
      (start : s.tasks[i]? = some (.prompt p₀))
      (pc : u.tasks[i]? = some (.prompt (.answered resp)))
      (leads : Leads cfg id (turns i past) p₀ T (.answered resp) T₁) (effect : Effect id p₀ resp T T₁) :
      Link cfg id s u past i T T₁

section Links

variable {cfg : Config} {id n : Int} {s u u' : State} {past past' : List (State × Act)} {i : Nat}
  {T T₁ : Option PromptRow} {f : PromptFields} {now : Int}

theorem Link.stays (h : Link cfg id s u past i T T₁) (hpc : u'.tasks[i]? = u.tasks[i]?)
    (hturns : turns i past' = turns i past)
    (hcur : u.tasks[i]? = some (.prompt (.refetch id)) → prompt u' id = prompt u id) :
    Link cfg id s u' past' i T T₁ := by
  cases h with
  | read start pc valid once leads =>
    exact .read start (hpc.trans pc) valid (hturns.trans once) (hturns ▸ leads)
  | wrote start pc live leads cur =>
    exact .wrote start (hpc.trans pc) live (hturns ▸ leads) ((hcur pc).trans cur)
  | through start pc leads effect => exact .through start (hpc.trans pc) (hturns ▸ leads) effect

/-- A request that has only read has left the row alone. -/
theorem Link.of_update (h : Link cfg id s u past i T T₁)
    (hpc : u.tasks[i]? = some (.prompt (.update id f now))) :
    T₁ = T ∧ ∃ b r₀, s.tasks[i]? = some (.prompt (.fetch id b)) ∧ b.apply cfg (.of r₀) = .ok f ∧
      turns i past = [(now, .ok)] ∧ Leads cfg id (turns i past) (.fetch id b) T (.update id f now) T := by
  cases h with
  | read start pc valid once leads =>
    rw [hpc] at pc
    cases pc
    exact ⟨rfl, _, _, start, valid, once, leads⟩
  | wrote start pc | through start pc =>
    rw [hpc] at pc
    cases pc

/-- A request that is to read again has written a row that was live. -/
theorem Link.of_refetch (h : Link cfg id s u past i T T₁)
    (hpc : u.tasks[i]? = some (.prompt (.refetch id))) :
    ∃ b r now, T = some r ∧ T₁ = some (written b now r) ∧ r.deletedAt = none ∧
      s.tasks[i]? = some (.prompt (.fetch id b)) ∧ prompt u id = some (written b now r) ∧
      Leads cfg id (turns i past) (.fetch id b) T (.refetch id) T₁ := by
  cases h with
  | wrote start pc live leads cur => exact ⟨_, _, _, rfl, rfl, live, start, cur, leads⟩
  | read start pc | through start pc =>
    rw [hpc] at pc
    cases pc

theorem Link.of_answered (h : Link cfg id s u past i T T₁) {resp : Response}
    (hpc : u.tasks[i]? = some (.prompt (.answered resp))) :
    ∃ p₀, s.tasks[i]? = some (.prompt p₀) ∧ Effect id p₀ resp T T₁ := by
  cases h with
  | through start pc leads effect =>
    rw [hpc] at pc
    cases pc
    exact ⟨_, start, effect⟩
  | read start pc | wrote start pc =>
    rw [hpc] at pc
    cases pc

/-- Where a request that has begun stands. -/
theorem Link.pc_cases (h : Link cfg id s u past i T T₁) :
    (∃ f now, u.tasks[i]? = some (.prompt (.update id f now))) ∨
      u.tasks[i]? = some (.prompt (.refetch id)) ∨
      ∃ resp, u.tasks[i]? = some (.prompt (.answered resp)) := by
  cases h with
  | read start pc => exact .inl ⟨_, _, pc⟩
  | wrote start pc => exact .inr (.inl pc)
  | through start pc => exact .inr (.inr ⟨_, pc⟩)

/-- The `UPDATE` fails. -/
theorem Link.refused (h : Link cfg id s u past i T T₁)
    (hpc : u.tasks[i]? = some (.prompt (.update id f now))) {e : String}
    (hpc' : u'.tasks[i]? = some (.prompt (.refuse (.internal e))))
    (hturns : turns i past' = turns i past ++ [(n, .sqlFails e)]) :
    Link cfg id s u' past' i T T₁ := by
  obtain ⟨rfl, b, r₀, start, -, -, leads⟩ := h.of_update hpc
  refine .through start hpc' ?_ (.idle (by simp))
  rw [hturns]
  exact leads.append (statement_leads (.failed (.inr (.inl ⟨_, _, rfl⟩))))

/-- A row that was live when it was written is seen again. -/
theorem readAgain_cases {b : UpdatePrompt} {r : PromptRow} {fate : Fate} {p' : PromptPc}
    (hst : Statement cfg id n fate (.refetch id) (some (written b now r)) p' T)
    (live : r.deletedAt = none) :
    ∃ resp, p' = .answered resp ∧ resp ≠ .error .notFound := by
  cases hst with
  | lost hgone => exact absurd live (hgone (written b now r) rfl)
  | seen _ | failed _ => exact ⟨_, rfl, by simp⟩

/-- The row is read again. -/
theorem Link.readAgain (h : Link cfg id s u past i T T₁)
    (hpc : u.tasks[i]? = some (.prompt (.refetch id))) {p' : PromptPc} {fate : Fate}
    (hst : Statement cfg id n fate (.refetch id) (prompt u id) p' (prompt u' id))
    (hrow : prompt u' id = prompt u id) (hpc' : u'.tasks[i]? = some (.prompt p'))
    (hturns : turns i past' = turns i past ++ [(n, fate)]) : Link cfg id s u' past' i T T₁ := by
  obtain ⟨b, r, m, rfl, rfl, live, start, cur, leads⟩ := h.of_refetch hpc
  rw [hrow, cur] at hst
  obtain ⟨resp, rfl, -⟩ := readAgain_cases hst live
  exact .through start hpc' (hturns ▸ leads.append (statement_leads hst)) (.patched rfl)

/-- The copy is written back while it is up to date. -/
theorem Link.writes (h : Link cfg id s u past i T T₁)
    (hpc : u.tasks[i]? = some (.prompt (.update id f now))) {b : UpdatePrompt}
    (hb : s.tasks[i]? = some (.prompt (.fetch id b))) {r : PromptRow} (hr : prompt u id = some r)
    (hcur : current b f r = true) (hpc' : u'.tasks[i]? = some (.prompt (.refetch id)))
    (hrow : prompt u' id = (prompt u id).map (Database.updatePrompt now id f).row)
    (hturns : turns i past' = turns i past ++ [(n, .ok)]) :
    Link cfg id s u' past' i (prompt u id) (prompt u' id) := by
  obtain ⟨-, b', r₀, start, valid, once, -⟩ := h.of_update hpc
  rw [hb] at start
  cases start
  have live : r.deletedAt = none := by
    simp only [current, decide_eq_true_eq] at hcur
    exact hcur.1
  obtain rfl : r.id = id := Table.find?_key hr
  have happ := apply_current valid hcur
  have hst : Statement cfg r.id n .ok (.update r.id f now) (prompt u r.id) (.refetch r.id)
      (prompt u' r.id) := hrow ▸ .updated
  rw [hr, Option.map_some, updatePrompt_row now happ] at hrow
  rw [hrow, hr] at hst ⊢
  refine .wrote hb hpc' live ?_ hrow
  rw [hturns, once]
  exact Leads.append (statement_leads (.read live happ)) (statement_leads hst)

end Links

/-- The requests that have begun, in an order in which each might have run alone. -/
structure Serialized (cfg : Config) (id : Int) (s : State) (past : List (State × Act)) (u : State)
    (order : List Nat) : Prop where
  nodup : order.Nodup
  still : ∀ i, i ∉ order → u.tasks[i]? = s.tasks[i]? ∧ turns i past = []
  chain : Chain (Link cfg id s u past) order (prompt s id) (prompt u id)

theorem Serialized.start (cfg : Config) (id : Int) (s : State) : Serialized cfg id s [] s [] where
  nodup := List.nodup_nil
  still _ _ := ⟨rfl, rfl⟩
  chain := rfl

theorem onPrompt_pending {cfg : Config} {id now : Int} {p p' : PromptPc} {f : Fate} {w w' : World}
    (h : OnPrompt id (.prompt p)) (hcall : perform (p.next cfg now) f w = some (w', p')) :
    (∃ b, p = .fetch id b) ∨ ∃ n, p = .delete id n := by
  rcases h with ⟨body, hp⟩ | ⟨n, hp⟩
  · cases hp
    unfold PromptPc.patch at hcall ⊢
    cases hb : UpdatePrompt.de body with
    | none =>
      rw [hb] at hcall
      cases hcall
    | some b => exact .inl ⟨b, rfl⟩
  · cases hp
    exact .inr ⟨n, rfl⟩

theorem readsBack_other {u : State} {i j : Nat} {id : Int} (h : readsBack u i = false) (hj : j ≠ i) :
    u.tasks[j]? ≠ some (.prompt (.refetch id)) := by
  intro hpc
  have hlen : j < u.tasks.length := (List.getElem?_eq_some_iff.mp hpc).1
  have hany := List.any_eq_false.mp h j (List.mem_range.mpr hlen)
  simp [hj, hpc] at hany

/-- Nobody changes the row while another request is to read it again. -/
theorem careful_row {cfg : Config} {id n : Int} {s u u' : State} {i : Nat} {p p' : PromptPc} {f : Fate}
    (hc : Careful s id u (.task i f)) (hi : u.tasks[i]? = some (.prompt p))
    (hst : Statement cfg id n f p (prompt u id) p' (prompt u' id)) {j : Nat} (hj : j ≠ i)
    (hpc : u.tasks[j]? = some (.prompt (.refetch id))) : prompt u' id = prompt u id := by
  have keeps : f = .ok → changes u id i = false := by
    rintro rfl
    by_contra hch
    exact readsBack_other ((hc i rfl).2 (Bool.eq_true_of_not_eq_false hch)) hj hpc
  generalize hT : prompt u id = T at hst
  generalize hT' : prompt u' id = T' at hst
  cases hst with
  | updated =>
    have hsame := keeps rfl
    simp only [changes, hi, hT] at hsame
    cases T with
    | none => rfl
    | some r => simpa using hsame
  | @deleted r m live =>
    have hsame := keeps rfl
    have hid : r.id = id := Table.find?_key hT
    subst hid
    simp only [changes, hi, hT, Option.any_some, deletePrompt_live m live] at hsame
    simpa using hsame
  | _ => rfl

section Step

variable {cfg : Config} {id : Int} {s u u' : State} {past : List (State × Act)} {i : Nat} {f : Fate}
  {order : List Nat} {p p' : PromptPc}

/-- A request executes its first statement. -/
theorem Serialized.begins (h : Serialized cfg id s past u order) (hout : i ∉ order)
    (hi : u.tasks[i]? = some (.prompt p)) (hp : (∃ b, p = .fetch id b) ∨ ∃ n, p = .delete id n)
    (hst : Statement cfg id u.world.now f p (prompt u id) p' (prompt u' id))
    (hpc' : u'.tasks[i]? = some (.prompt p'))
    (hothers : ∀ j, j ≠ i → ∀ T T₁, Link cfg id s u past j T T₁ →
      Link cfg id s u' (past ++ [(u, .task i f)]) j T T₁) :
    Chain (Link cfg id s u' (past ++ [(u, .task i f)])) (order ++ [i]) (prompt s id)
      (prompt u' id) := by
  obtain ⟨hsame, hnone⟩ := h.still i hout
  have start : s.tasks[i]? = some (.prompt p) := hsame.symm.trans hi
  have hturns := turns_self i past u f
  rw [hnone, List.nil_append] at hturns
  have leads := statement_leads hst
  rw [← hturns] at leads
  refine h.chain.add (fun j hj => hothers j fun he => hout (he ▸ hj)) ?_
  generalize hT : prompt u id = T at hst leads
  generalize hT' : prompt u' id = T' at hst leads
  cases hst with
  | missed hgone => exact .through start hpc' leads (.idle (by simp))
  | invalid live happ => exact .through start hpc' leads (.idle (by simp))
  | read live happ => exact .read start hpc' happ hturns leads
  | deleted live => exact .through start hpc' leads (.deleted rfl)
  | absent hgone => exact .through start hpc' leads (.idle (by simp))
  | failed hpend => exact .through start hpc' leads (.idle (by simp))
  | updated | lost _ | seen _ => simp at hp

/-- A request that has begun executes its next statement. -/
theorem Serialized.goesOn (h : Serialized cfg id s past u order) (hin : i ∈ order)
    (hc : Careful s id u (.task i f)) (hi : u.tasks[i]? = some (.prompt p))
    (hcall : perform (p.next cfg u.world.now) f u.world = some (u'.world, p'))
    (hpc' : u'.tasks[i]? = some (.prompt p'))
    (hothers : ∀ j, j ≠ i → ∀ T T₁, Link cfg id s u past j T T₁ →
      Link cfg id s u' (past ++ [(u, .task i f)]) j T T₁) :
    ∃ order', order'.Perm order ∧
      Chain (Link cfg id s u' (past ++ [(u, .task i f)])) order' (prompt s id) (prompt u' id) := by
  have hturns := turns_self i past u f
  -- what happens in place leaves the row alone
  have inPlace : prompt u' id = prompt u id →
      (∀ T T₁, Link cfg id s u past i T T₁ →
        Link cfg id s u' (past ++ [(u, .task i f)]) i T T₁) →
      ∃ order', order'.Perm order ∧
        Chain (Link cfg id s u' (past ++ [(u, .task i f)])) order' (prompt s id) (prompt u' id) := by
    intro hrow hown
    refine ⟨order, .refl order, hrow ▸ h.chain.mono fun j hj => ?_⟩
    by_cases hji : j = i
    · subst hji
      exact hown
    · exact hothers j hji
  obtain ⟨pre, post, T₁, T₂, -, -, hlink, -⟩ := h.chain.split hin
  have hl := hlink
  cases hlink with
  | @read b fields r₀ now _ start pc =>
    rw [hi] at pc
    cases pc
    have hst := statement_step (.inr (.inl ⟨fields, now, rfl⟩)) hcall
    generalize hT : u.world.db.prompts.find? id = T at hst
    generalize hT' : u'.world.db.prompts.find? id = T' at hst
    cases hst with
    | updated =>
      have hup := (hc i rfl).1
      simp only [upToDate, start, hi] at hup
      obtain ⟨r, hr, hcur⟩ := (Option.any_eq_true _ _).mp hup
      have hrow : prompt u' id = (prompt u id).map (Database.updatePrompt now id fields).row := by
        unfold prompt
        rw [hT', hT]
      exact h.chain.move_last h.nodup hin (fun _ _ hl' => (hl'.of_update hi).1)
        (fun j _ hj => hothers j hj) (hl.writes hi start hr hcur hpc' hrow hturns)
    | failed hpend =>
      refine inPlace (hT'.trans hT.symm) fun T T₁ hl => ?_
      exact hl.refused hi hpc' hturns
  | @wrote b r now start pc =>
    rw [hi] at pc
    cases pc
    have hst := statement_step (.inr (.inr (.inl rfl))) hcall
    have hrow : prompt u' id = prompt u id := by
      generalize hT : u.world.db.prompts.find? id = T at hst
      generalize hT' : u'.world.db.prompts.find? id = T' at hst
      unfold prompt
      cases hst <;> exact hT'.trans hT.symm
    exact inPlace hrow fun T T₁ hl => hl.readAgain hi hst hrow hpc' hturns
  | through start pc =>
    rw [hi] at pc
    cases pc
    cases hcall

/-- Whoever moves is a request with a statement to execute. -/
theorem Serialized.pending (h : Serialized cfg id s past u order) (hs : ∀ τ ∈ s.tasks, OnPrompt id τ)
    {τ τ' : ServerTask} (hi : u.tasks[i]? = some τ)
    (hcall : perform (τ.next cfg u.world.now) f u.world = some (u'.world, τ')) :
    ∃ p p', τ = .prompt p ∧ τ' = .prompt p' ∧ Pending id p ∧
      perform (p.next cfg u.world.now) f u.world = some (u'.world, p') := by
  by_cases hin : i ∈ order
  · obtain ⟨_, _, _, _, -, -, hlink, -⟩ := h.chain.split hin
    rcases hlink.pc_cases with ⟨fields, now, pc⟩ | pc | ⟨resp, pc⟩
    · obtain rfl := Option.some.inj (hi.symm.trans pc)
      obtain ⟨p', hcall', rfl⟩ := perform_map.mp hcall
      exact ⟨_, p', rfl, rfl, .inr (.inl ⟨_, _, rfl⟩), hcall'⟩
    · obtain rfl := Option.some.inj (hi.symm.trans pc)
      obtain ⟨p', hcall', rfl⟩ := perform_map.mp hcall
      exact ⟨_, p', rfl, rfl, .inr (.inr (.inl rfl)), hcall'⟩
    · obtain rfl := Option.some.inj (hi.symm.trans pc)
      cases hcall
  · have hp := hs τ (List.mem_of_getElem? ((h.still i hin).1.symm.trans hi))
    obtain ⟨p, rfl⟩ : ∃ p, τ = .prompt p := by
      rcases hp with ⟨_, rfl⟩ | ⟨_, rfl⟩ <;> exact ⟨_, rfl⟩
    obtain ⟨p', hcall', rfl⟩ := perform_map.mp hcall
    exact ⟨p, p', rfl, rfl, (onPrompt_pending hp hcall').elim .inl fun hd => .inr (.inr (.inr hd)),
      hcall'⟩

/-- Any request executes a statement. -/
theorem Serialized.task (h : Serialized cfg id s past u order) (hs : ∀ τ ∈ s.tasks, OnPrompt id τ)
    (hc : Careful s id u (.task i f)) {τ τ' : ServerTask} (hi : u.tasks[i]? = some τ)
    (hcall : perform (τ.next cfg u.world.now) f u.world = some (u'.world, τ'))
    (htasks : u'.tasks = u.tasks.set i τ') :
    ∃ order', Serialized cfg id s (past ++ [(u, .task i f)]) u' order' := by
  obtain ⟨p, p', rfl, rfl, hpend, hcall'⟩ := h.pending hs hi hcall
  have hst := statement_step hpend hcall'
  have hself : u'.tasks[i]? = some (.prompt p') := by
    rw [htasks, List.getElem?_set_self (List.getElem?_eq_some_iff.mp hi).1]
  have hother : ∀ j, j ≠ i → u'.tasks[j]? = u.tasks[j]? ∧
      turns j (past ++ [(u, .task i f)]) = turns j past := by
    intro j hj
    rw [htasks, List.getElem?_set_ne hj.symm]
    exact ⟨rfl, turns_other (by simp [hj.symm]) past u⟩
  have hlinks : ∀ j, j ≠ i → ∀ T T₁, Link cfg id s u past j T T₁ →
      Link cfg id s u' (past ++ [(u, .task i f)]) j T T₁ :=
    fun j hj _ _ hl => hl.stays (hother j hj).1 (hother j hj).2 (careful_row hc hi hst hj)
  by_cases hin : i ∈ order
  · obtain ⟨order', hperm, hchain⟩ := h.goesOn hin hc hi hcall' hself hlinks
    refine ⟨order', hperm.nodup_iff.mpr h.nodup, fun j hj => ?_, hchain⟩
    have hout : j ∉ order := fun hmem => hj (hperm.mem_iff.mpr hmem)
    have hne : j ≠ i := by
      rintro rfl
      exact hout hin
    rw [(hother j hne).1, (hother j hne).2]
    exact h.still j hout
  · have hp := hs _ (List.mem_of_getElem? ((h.still i hin).1.symm.trans hi))
    refine ⟨order ++ [i], ?_, fun j hj => ?_,
      h.begins hin hi (onPrompt_pending hp hcall') hst hself hlinks⟩
    · rw [← List.concat_eq_append, List.nodup_concat]
      exact ⟨hin, h.nodup⟩
    · rw [List.mem_append, List.mem_singleton, not_or] at hj
      rw [(hother j hj.2).1, (hother j hj.2).2]
      exact h.still j hj.1

theorem Serialized.step {a : Act} (h : Serialized cfg id s past u order)
    (hs : ∀ τ ∈ s.tasks, OnPrompt id τ) (ha : requestsOnly a = true) (hc : Careful s id u a)
    (hstep : Server.step cfg u a = some u') :
    ∃ order', Serialized cfg id s (past ++ [(u, a)]) u' order' := by
  cases step_moved hstep with
  | task hi hcall worker tasks => exact h.task hs hc hi hcall tasks
  | @env e he worker tasks =>
    cases e with
    | clock n =>
      have hworld := Option.some.inj he
      have hrow : prompt u' id = prompt u id := by
        unfold prompt
        rw [← hworld]
      have hturns : ∀ j, turns j (past ++ [(u, .env (.clock n))]) = turns j past :=
        fun j => turns_other (by simp) past u
      refine ⟨order, h.nodup, fun j hj => ?_, ?_⟩
      · rw [tasks, hturns]
        exact h.still j hj
      · rw [hrow]
        exact h.chain.mono fun j _ _ _ hl => hl.stays (by rw [tasks]) (hturns j) fun _ => hrow
    | _ => cases ha
  | _ => cases ha

end Step

/-- A request that has the server to itself. -/
theorem turns_server {cfg : Config} {i : Nat} {l : List (Int × Fate)} {u : State} {p p' : PromptPc}
    {w' : World} (hi : u.tasks[i]? = some (.prompt p))
    (h : Runs.run (turn cfg) l (u.world, p) = some (w', p')) :
    run cfg (l.flatMap fun x => [.env (.clock x.1), .task i x.2]) u =
      some ⟨w', u.worker, u.tasks.set i (.prompt p')⟩ := by
  induction l generalizing u p with
  | nil =>
    cases h
    obtain ⟨hlen, hget⟩ := List.getElem?_eq_some_iff.mp hi
    rw [← hget, List.set_getElem_self]
    rfl
  | cons x l ih =>
    obtain ⟨⟨w, q⟩, hturn, hrest⟩ := Runs.run_cons_some.mp h
    have hcall : perform ((ServerTask.prompt p).next cfg x.1) x.2 { u.world with now := x.1 } =
        some (w, .prompt q) := perform_map.mpr ⟨q, hturn, rfl⟩
    have hclock : step cfg u (.env (.clock x.1)) =
        some { u with world := { u.world with now := x.1 } } := rfl
    have hmove : step cfg { u with world := { u.world with now := x.1 } } (.task i x.2) =
        some ⟨w, u.worker, u.tasks.set i (.prompt q)⟩ := by
      simp only [step, hi, Option.bind_some, hcall, Option.map_some]
    have hlen : i < u.tasks.length := (List.getElem?_eq_some_iff.mp hi).1
    have hrun := ih (u := ⟨w, u.worker, u.tasks.set i (.prompt q)⟩) (List.getElem?_set_self hlen) hrest
    rw [List.set_set] at hrun
    exact Runs.run_cons_some.mpr ⟨_, hclock, Runs.run_cons_some.mpr ⟨_, hmove, hrun⟩⟩

theorem Link.leads {cfg : Config} {id : Int} {s u : State} {past : List (State × Act)} {i : Nat}
    {T T₁ : Option PromptRow} (h : Link cfg id s u past i T T₁) :
    ∃ p₀ p, s.tasks[i]? = some (.prompt p₀) ∧ u.tasks[i]? = some (.prompt p) ∧
      Leads cfg id (turns i past) p₀ T p T₁ := by
  cases h with
  | read start pc valid once leads => exact ⟨_, _, start, pc, leads⟩
  | wrote start pc live leads cur => exact ⟨_, _, start, pc, leads⟩
  | through start pc leads effect => exact ⟨_, _, start, pc, leads⟩

theorem chain_run {cfg : Config} {id : Int} {s t : State} {past : List (State × Act)} {order : List Nat}
    {T T' : Option PromptRow} (h : Chain (Link cfg id s t past) order T T') (hnd : order.Nodup)
    {u : State} (hu : prompt u id = T) (hstart : ∀ i ∈ order, u.tasks[i]? = s.tasks[i]?) :
    ∃ v, run cfg (oneByOne past order) u = some v ∧ prompt v id = T' ∧
      (∀ i ∈ order, v.tasks[i]? = t.tasks[i]?) ∧ ∀ i, i ∉ order → v.tasks[i]? = u.tasks[i]? := by
  induction order generalizing T u with
  | nil =>
    obtain rfl : T = T' := h
    exact ⟨u, rfl, hu, by simp, fun _ _ => rfl⟩
  | cons i order ih =>
    obtain ⟨T₁, hlink, hchain⟩ := h
    obtain ⟨hout, hnd⟩ := List.nodup_cons.mp hnd
    obtain ⟨p₀, p, start, pc, leads⟩ := hlink.leads
    have hi : u.tasks[i]? = some (.prompt p₀) := (hstart i (by simp)).trans start
    have hlen : i < u.tasks.length := (List.getElem?_eq_some_iff.mp hi).1
    obtain ⟨w, hturns, hw⟩ := leads u.world hu
    have hblock := turns_server hi hturns
    obtain ⟨v, hrun, hrow, hdone, hstill⟩ := ih hchain hnd
      (u := ⟨w, u.worker, u.tasks.set i (.prompt p)⟩) hw (fun j hj => by
        have hne : i ≠ j := fun he => hout (he ▸ hj)
        rw [List.getElem?_set_ne hne]
        exact hstart j (by simp [hj]))
    refine ⟨v, Runs.run_trans hblock hrun, hrow, fun j hj => ?_, fun j hj => ?_⟩
    · rcases List.mem_cons.mp hj with rfl | hj
      · rw [hstill j hout, List.getElem?_set_self hlen, pc]
      · exact hdone j hj
    · rw [List.mem_cons, not_or] at hj
      rw [hstill j hj.2, List.getElem?_set_ne (Ne.symm hj.1)]

/-- The requests that have not begun may come last. -/
theorem Serialized.serial_run {cfg : Config} {id : Int} {s t : State} {past : List (State × Act)}
    {order : List Nat} (h : Serialized cfg id s past t order) :
    ∃ all v, all.Perm (List.range s.tasks.length) ∧
      run cfg (oneByOne past all) s = some v ∧ prompt v id = prompt t id ∧
      v.tasks = t.tasks := by
  obtain ⟨v, hrun, hrow, hdone, hstill⟩ := chain_run h.chain h.nodup rfl (fun _ _ => rfl)
  let others := (List.range s.tasks.length).filter fun i => i ∉ order
  have hlen : ∀ i ∈ order, i < s.tasks.length := by
    intro i hi
    obtain ⟨_, _, _, _, -, -, hlink, -⟩ := h.chain.split hi
    obtain ⟨_, _, start, -⟩ := hlink.leads
    exact (List.getElem?_eq_some_iff.mp start).1
  have hnone : oneByOne past others = [] := by
    refine List.flatMap_eq_nil_iff.mpr fun i hi => ?_
    have hout : i ∉ order := by simpa using (List.mem_filter.mp hi).2
    rw [(h.still i hout).2]
    rfl
  refine ⟨order ++ others, v, ?_, ?_, hrow, ?_⟩
  · have hnd : (order ++ others).Nodup := by
      refine List.nodup_append.mpr ⟨h.nodup, List.nodup_range.filter _, fun i hi j hj he => ?_⟩
      subst he
      exact (by simpa using (List.mem_filter.mp hj).2 : i ∉ order) hi
    refine (List.perm_ext_iff_of_nodup hnd List.nodup_range).mpr fun i => ?_
    rw [List.mem_append, List.mem_filter, List.mem_range, decide_eq_true_iff]
    constructor
    · rintro (hi | ⟨hi, -⟩)
      · exact hlen i hi
      · exact hi
    · intro hi
      by_cases hin : i ∈ order
      · exact .inl hin
      · exact .inr ⟨hi, hin⟩
  · have hsplit : oneByOne past (order ++ others) =
        oneByOne past order ++ oneByOne past others := List.flatMap_append
    rw [hsplit, hnone, List.append_nil]
    exact hrun
  · refine List.ext_getElem? fun i => ?_
    by_cases hin : i ∈ order
    · exact hdone i hin
    · rw [hstill i hin, (h.still i hin).1]

/-- Every column that the body sets has the value it was set to. -/
structure TakesEffect (b : UpdatePrompt) (r : PromptRow) : Prop where
  label : ∀ x, b.label = some x → r.label = x
  description : ∀ x, b.description = some x → r.description = x
  text : ∀ x, b.text = some x → r.text = x
  workflow : ∀ x, b.workflow = some x → r.workflow = x
  timeoutSeconds : ∀ x, b.timeoutSeconds = some x → r.timeoutSeconds = x

/-- No column is set by both bodies. -/
structure Apart (b b' : UpdatePrompt) : Prop where
  label : b.label = none ∨ b'.label = none
  description : b.description = none ∨ b'.description = none
  text : b.text = none ∨ b'.text = none
  workflow : b.workflow = none ∨ b'.workflow = none
  timeoutSeconds : b.timeoutSeconds = none ∨ b'.timeoutSeconds = none

theorem written_takes (b : UpdatePrompt) (now : Int) (r : PromptRow) :
    TakesEffect b (written b now r) := by
  constructor <;> intro x hx <;> simp [written, hx]

theorem getD_apart {α : Type} {x x' : Option α} {old a : α} (h : x = none ∨ x' = none)
    (hset : ∀ y, x = some y → old = y) (hx : x = some a) : x'.getD old = a := by
  rcases h with rfl | rfl
  · cases hx
  · exact hset a hx

theorem TakesEffect.written {b b' : UpdatePrompt} {r : PromptRow} (h : TakesEffect b r)
    (hap : Apart b b') (now : Int) : TakesEffect b (PromptPatches.written b' now r) where
  label _ hx := getD_apart hap.label h.label hx
  description _ hx := getD_apart hap.description h.description hx
  text _ hx := getD_apart hap.text h.text hx
  workflow _ hx := getD_apart hap.workflow h.workflow hx
  timeoutSeconds _ hx := getD_apart hap.timeoutSeconds h.timeoutSeconds hx

/-- The row is there and has what the body sets. -/
def Shows (b : UpdatePrompt) (T : Option PromptRow) : Prop := ∃ r, T = some r ∧ TakesEffect b r

theorem Link.keeps {cfg : Config} {id : Int} {s u : State} {past : List (State × Act)} {j : Nat}
    {T T₁ : Option PromptRow} (h : Link cfg id s u past j T T₁) {b : UpdatePrompt}
    (hap : ∀ b', s.tasks[j]? = some (.prompt (.fetch id b')) → Apart b b') (hT : Shows b T) :
    Shows b T₁ := by
  obtain ⟨r, rfl, hr⟩ := hT
  cases h with
  | read => exact ⟨r, rfl, hr⟩
  | wrote start => exact ⟨_, rfl, hr.written (hap _ start) _⟩
  | through start pc leads effect =>
    cases effect with
    | idle => exact ⟨r, rfl, hr⟩
    | patched hp => exact ⟨_, rfl, hr.written (hap _ (hp ▸ start)) _⟩
    | deleted hp => exact ⟨_, rfl, hr.label, hr.description, hr.text, hr.workflow, hr.timeoutSeconds⟩

/-- What a patch that is answered `200` sets stays set, if no other request sets it. -/
theorem Serialized.takes_effect {cfg : Config} {id : Int} {s t : State} {past : List (State × Act)}
    {order : List Nat} (h : Serialized cfg id s past t order) {i : Nat} {b : UpdatePrompt}
    {row : CustomPromptRow} (hi : s.tasks[i]? = some (.prompt (.fetch id b)))
    (hdone : t.tasks[i]? = some (.prompt (.answered (.prompt row false))))
    (hap : ∀ j b', j ≠ i → s.tasks[j]? = some (.prompt (.fetch id b')) → Apart b b') :
    Shows b (prompt t id) := by
  have hin : i ∈ order := by
    by_contra hout
    rw [(h.still i hout).1, hi] at hdone
    cases hdone
  obtain ⟨pre, post, T₁, T₂, rfl, -, hlink, hpost⟩ := h.chain.split hin
  have hfirst : Shows b T₂ := by
    obtain ⟨p₀, start, effect⟩ := hlink.of_answered hdone
    rw [hi] at start
    cases start
    cases effect with
    | idle hne => exact absurd rfl (hne row)
    | patched hp =>
      cases hp
      exact ⟨_, rfl, written_takes b _ _⟩
  refine hpost.keeps (fun j hj T T' hl => hl.keeps (hap j · ?_)) hfirst
  rintro rfl
  exact (List.nodup_cons.mp (List.nodup_middle.mp h.nodup)).1 (by simp [hj])

/-- A request that has changed the row. -/
def Effective (u : State) (id : Int) (i : Nat) : Prop :=
  u.tasks[i]? = some (.prompt (.refetch id)) ∨
    ∃ resp, u.tasks[i]? = some (.prompt (.answered resp)) ∧ resp ≠ .error .notFound

theorem Serialized.effective {cfg : Config} {id : Int} {s u u' : State} {past : List (State × Act)}
    {order : List Nat} {i : Nat} {f : Fate} (h : Serialized cfg id s past u order)
    (hs : ∀ τ ∈ s.tasks, OnPrompt id τ) (hstep : Server.step cfg u (.task i f) = some u')
    (hrow : prompt u' id ≠ prompt u id) : Effective u' id i := by
  cases step_moved hstep with
  | task hi hcall worker tasks =>
    obtain ⟨p, p', rfl, rfl, hpend, hcall'⟩ := h.pending hs hi hcall
    have hpc : u'.tasks[i]? = some (.prompt p') := by
      rw [tasks, List.getElem?_set_self (List.getElem?_eq_some_iff.mp hi).1]
    have hst : Statement cfg id u.world.now f p (prompt u id) p' (prompt u' id) :=
      statement_step hpend hcall'
    generalize hT : prompt u id = T at hst hrow
    generalize hT' : prompt u' id = T' at hst hrow
    cases hst with
    | updated => exact .inl hpc
    | deleted live => exact .inr ⟨_, hpc, by simp⟩
    | _ => exact absurd rfl hrow

/-- It is not answered `404` then. -/
theorem Serialized.effective_stays {cfg : Config} {id : Int} {s u u' : State}
    {past : List (State × Act)} {order : List Nat} {i : Nat} {a : Act}
    (h : Serialized cfg id s past u order) (hs : ∀ τ ∈ s.tasks, OnPrompt id τ)
    (ha : requestsOnly a = true) (hstep : Server.step cfg u a = some u') (he : Effective u id i) :
    Effective u' id i := by
  cases step_moved hstep with
  | @task j f τ τ' hj hcall worker tasks =>
    by_cases hij : j = i
    · subst hij
      obtain ⟨p, p', rfl, rfl, hpend, hcall'⟩ := h.pending hs hj hcall
      have hpc : u'.tasks[j]? = some (.prompt p') := by
        rw [tasks, List.getElem?_set_self (List.getElem?_eq_some_iff.mp hj).1]
      rcases he with he | ⟨resp, he, -⟩
      · rw [hj] at he
        cases he
        have hst : Statement cfg id u.world.now f (.refetch id) (prompt u id) p' (prompt u' id) :=
          statement_step hpend hcall'
        have hin : j ∈ order := by
          by_contra hout
          rcases hs _ (List.mem_of_getElem? ((h.still j hout).1.symm.trans hj)) with ⟨body, hp⟩ | ⟨n, hp⟩
          · simp only [ServerTask.prompt.injEq, PromptPc.patch] at hp
            split at hp <;> cases hp
          · cases hp
        obtain ⟨_, _, _, _, -, -, hlink, -⟩ := h.chain.split hin
        obtain ⟨b, r, now, -, -, live, -, cur, -⟩ := hlink.of_refetch hj
        rw [cur] at hst
        obtain ⟨resp, rfl, hne⟩ := readAgain_cases hst live
        exact .inr ⟨resp, hpc, hne⟩
      · rw [hj] at he
        cases he
        cases hcall'
    · unfold Effective
      rw [tasks, List.getElem?_set_ne hij]
      exact he
  | env hw worker tasks =>
    unfold Effective
    rw [tasks]
    exact he
  | _ => cases ha

/-- Executed one after another in some order, the requests leave the same row and answers. -/
def Serializable (cfg : Config) (id : Int) (as : List Act) (s t : State) : Prop :=
  ∃ order v, order.Perm (List.range s.tasks.length) ∧
    run cfg (oneByOne (Runs.visits (step cfg) as s) order) s = some v ∧
    prompt v id = prompt t id ∧ v.tasks = t.tasks

theorem serialized_run {cfg : Config} {id : Int} {as : List Act} {s t : State}
    (hs : ∀ τ ∈ s.tasks, OnPrompt id τ) (h : run cfg as s = some t)
    (hc : Along cfg (fun u a => requestsOnly a = true ∧ Careful s id u a) as s) :
    ∃ order, Serialized cfg id s (Runs.visits (step cfg) as s) t order := by
  have hstart : ∃ order, Serialized cfg id s [] s order := ⟨[], .start cfg id s⟩
  simpa using Runs.Along.history_invariant (I := fun past u => ∃ order, Serialized cfg id s past u order)
    (fun past u a v ⟨order, hu⟩ ha hstep => hu.step hs ha.1 ha.2 hstep) hc h hstart

/-- A request that changes the row is not answered `404`. -/
theorem absent_idle {cfg : Config} {id : Int} {pre post : List Act} {i : Nat} {f : Fate}
    {s m m' t : State} (hs : ∀ τ ∈ s.tasks, OnPrompt id τ)
    (h : run cfg (pre ++ .task i f :: post) s = some t)
    (hc : Along cfg (fun u a => requestsOnly a = true ∧ Careful s id u a) (pre ++ .task i f :: post) s)
    (hpre : run cfg pre s = some m) (hstep : step cfg m (.task i f) = some m')
    (habs : t.tasks[i]? = some (.prompt (.answered (.error .notFound)))) :
    prompt m' id = prompt m id := by
  obtain ⟨hbefore, hat, hafter⟩ := (Runs.along_append hpre).mp hc
  obtain ⟨order, hm⟩ := serialized_run hs hpre hbefore
  obtain ⟨order', hm'⟩ := hm.step hs hat.1 hat.2 hstep
  by_contra hrow
  have hpost : run cfg post m' = some t := by
    obtain ⟨m₁, hm₁, hrest⟩ := Option.bind_eq_some_iff.mp
      ((Runs.run_append (step cfg) pre (.task i f :: post) s).symm.trans h)
    obtain rfl := Option.some.inj (hpre.symm.trans hm₁)
    obtain ⟨m₂, hm₂, hrest⟩ := Runs.run_cons_some.mp hrest
    obtain rfl := Option.some.inj (hstep.symm.trans hm₂)
    exact hrest
  have hend := Runs.Along.invariant
    (I := fun u => (∃ past order, Serialized cfg id s past u order) ∧ Effective u id i)
    (fun u a v ⟨⟨past, order, hu⟩, he⟩ ha hstep =>
      ⟨⟨_, hu.step hs ha.1 ha.2 hstep⟩, hu.effective_stays hs ha.1 hstep he⟩)
    (hafter m' hstep) hpost ⟨⟨_, order', hm'⟩, hm.effective hs hstep hrow⟩
  rcases hend.2 with he | ⟨resp, he, hne⟩
  · rw [habs] at he
    cases he
  · rw [habs] at he
    cases he
    exact hne rfl

/-- Any number of patches and deletes of one prompt, in any interleaving in which no copy
is written back out of date and none written back is overtaken: they might as well have
been executed one after another; what a patch answered `200` sets is set in the end if
no other request sets it; and one answered `404` has changed nothing. -/
theorem prompts_serial {cfg : Config} {id : Int} {as : List Act} {s t : State}
    (hs : ∀ τ ∈ s.tasks, OnPrompt id τ) (h : run cfg as s = some t)
    (ha : ∀ a ∈ as, requestsOnly a = true) (hc : Along cfg (Careful s id) as s) :
    Serializable cfg id as s t ∧
    (∀ (i : Nat) (b : UpdatePrompt) (row : CustomPromptRow),
      s.tasks[i]? = some (.prompt (.fetch id b)) →
      t.tasks[i]? = some (.prompt (.answered (.prompt row false))) →
      (∀ (j : Nat) b', j ≠ i → s.tasks[j]? = some (.prompt (.fetch id b')) → Apart b b') →
      ∃ r, prompt t id = some r ∧ TakesEffect b r) ∧
    (∀ pre (i : Nat) f post m m', as = pre ++ .task i f :: post → run cfg pre s = some m →
      step cfg m (.task i f) = some m' →
      t.tasks[i]? = some (.prompt (.answered (.error .notFound))) → prompt m' id = prompt m id) := by
  have hboth := (Runs.Along.of_forall ha s).and hc
  obtain ⟨order, ht⟩ := serialized_run hs h hboth
  refine ⟨ht.serial_run, fun i b row hi hdone hap => ht.takes_effect hi hdone hap, ?_⟩
  rintro pre i f post m m' rfl hpre hstep habs
  exact absent_idle hs h hboth hpre hstep habs

/-- Two patches of different columns, and a delete. -/
def racing : State := ⟨sampleWorld, .outer,
  [.prompt (.patch 1 (.object [("label", .string "anime v2")])),
    .prompt (.patch 1 (.object [("timeout_seconds", .int 60)])), .prompt (.delete 1 200)]⟩

def labelPatch : UpdatePrompt := ⟨some "anime v2", none, none, none, none⟩
def timeoutPatch : UpdatePrompt := ⟨none, none, none, none, some (some 60)⟩

theorem racing_tasks : racing.tasks =
    [.prompt (.fetch 1 labelPatch), .prompt (.fetch 1 timeoutPatch), .prompt (.delete 1 200)] := by
  have hlabel : PromptPc.patch 1 (.object [("label", .string "anime v2")]) = .fetch 1 labelPatch := by
    decide +kernel
  have htimeout : PromptPc.patch 1 (.object [("timeout_seconds", .int 60)]) =
      .fetch 1 timeoutPatch := by decide +kernel
  simp only [racing, hlabel, htimeout]

theorem racing_onPrompt : ∀ τ ∈ racing.tasks, OnPrompt 1 τ := by
  intro τ hτ
  simp only [racing, List.mem_cons, List.not_mem_nil, or_false] at hτ
  rcases hτ with rfl | rfl | rfl
  · exact .inl ⟨_, rfl⟩
  · exact .inl ⟨_, rfl⟩
  · exact .inr ⟨_, rfl⟩

/-- The response of a request that is through. -/
def answer (s : State) (i : Nat) : Option Response :=
  match s.tasks[i]? with
  | some (.prompt (.answered r)) => some r
  | _ => none

theorem answer_eq_some {s : State} {i : Nat} {r : Response} (h : answer s i = some r) :
    s.tasks[i]? = some (.prompt (.answered r)) := by
  unfold answer at h
  split at h
  · rename_i r' hr'
    rw [hr', Option.some.inj h]
  · cases h

def moves (l : List Nat) : List Act := l.map fun i => .task i .ok

/-- The second patch reads the row between the `UPDATE` of the first and its second read. -/
def carefulRun : List Act := moves [0, 0, 1, 0, 1, 1, 2]

/-- Both patches read the row before either writes it back. -/
def raceRun : List Act := moves [0, 1, 0, 0, 1, 1, 2]

def patchedLabel : CustomPromptRow :=
  ⟨1, "anime v2", some "soft light", "a portrait", "edit", some 600, 100, 200⟩

theorem prompts_serial_sample : ∃ t r, run sampleConfig carefulRun racing = some t ∧
    Serializable sampleConfig 1 carefulRun racing t ∧ prompt t 1 = some r ∧
    r.label = "anime v2" := by
  have hrun : ((run sampleConfig carefulRun racing).bind fun t =>
      if Along sampleConfig (Careful racing 1) carefulRun racing then answer t 0 else none) =
      some (.prompt patchedLabel false) := by decide +kernel
  obtain ⟨t, ht, h⟩ := Option.bind_eq_some_iff.mp hrun
  obtain ⟨hc, hans⟩ := Option.ite_none_right_eq_some.mp h
  have hmoves : ∀ a ∈ carefulRun, requestsOnly a = true := by
    intro a ha
    obtain ⟨i, -, rfl⟩ := List.mem_map.mp ha
    rfl
  obtain ⟨hser, htakes, -⟩ := prompts_serial racing_onPrompt ht hmoves hc
  obtain ⟨r, hr, heff⟩ := htakes 0 labelPatch patchedLabel (by rw [racing_tasks]; rfl)
    (answer_eq_some hans) (by
      intro j b' hj hb'
      rw [racing_tasks] at hb'
      match j with
      | 0 => exact absurd rfl hj
      | 1 =>
        cases hb'
        exact ⟨.inr rfl, .inl rfl, .inl rfl, .inl rfl, .inl rfl⟩
      | 2 => cases hb'
      | _ + 3 => cases hb')
  exact ⟨t, r, ht, hser, hr, heff.label _ rfl⟩

/-- What a client can see of the two patches. -/
def outcome (s : State) : Option String × Option Response × Option Response :=
  ((prompt s 1).map PromptRow.label, answer s 0, answer s 1)

theorem lost_update : ∃ t row row', run sampleConfig raceRun racing = some t ∧
    outcome t = (some "portrait", some (.prompt row false), some (.prompt row' false)) ∧
    row.label = "anime v2" ∧ ¬ Serializable sampleConfig 1 raceRun racing t := by
  have hrun : (run sampleConfig raceRun racing).map outcome = some (some "portrait",
      some (.prompt patchedLabel false), some (.prompt ⟨1, "portrait", some "soft light",
        "a portrait", "edit", some 60, 100, 200⟩ false)) := by decide +kernel
  have horders : ∀ order ∈ (List.range 3).permutations',
      (run sampleConfig (oneByOne (Runs.visits (step sampleConfig) raceRun racing) order)
        racing).map outcome ≠ (run sampleConfig raceRun racing).map outcome := by decide +kernel
  obtain ⟨t, ht, hout⟩ := Option.map_eq_some_iff.mp hrun
  refine ⟨t, _, _, ht, hout, rfl, ?_⟩
  rintro ⟨order, v, hperm, hv, hrow, htasks⟩
  refine horders order (List.mem_permutations'.mpr hperm) ?_
  rw [hv, ht]
  simp only [Option.map_some, outcome, answer, hrow, htasks]

end ZunServer.PromptRaces
