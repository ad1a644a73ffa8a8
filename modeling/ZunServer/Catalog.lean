import ZunServer.Server

/-!
# What a step does to the prompt catalog

Only the three writes of `custom_prompts.rs` change the table, and whoever edits
the database by hand.
-/
namespace ZunServer.Catalog

open KeyedTable
open Schema Statements Database Comfy Calls Renditions Worker Handlers CustomPrompts Purge Server

/-- Every way a statement can write the `custom_prompts` table. -/
theorem run_prompts {q : Sql} {db db' : Db} {a : q.Result} (h : q.run db = .ok (db', a)) :
    (∃ now f, q = .insertPrompt now f ∧
      db.prompts.insert? (newPrompt (nextPromptId db.prompts) now f) = some db'.prompts) ∨
    (∃ now id f, q = .updatePrompt now id f ∧
      db'.prompts = db.prompts.update (updatePrompt now id f)) ∨
    (∃ now id, q = .deletePrompt now id ∧ db'.prompts = db.prompts.update (deletePrompt now id)) ∨
    ((∀ now f, q ≠ .insertPrompt now f) ∧ (∀ now id f, q ≠ .updatePrompt now id f) ∧
      (∀ now id, q ≠ .deletePrompt now id) ∧ db'.prompts = db.prompts) := by
  cases q with
  | insertPrompt now f =>
    simp only [Sql.run] at h
    split at h
    · rename_i t ht
      cases h
      exact .inl ⟨now, f, rfl, ht⟩
    · cases h
  | updatePrompt now id f =>
    cases h
    exact .inr (.inl ⟨now, id, f, rfl, rfl⟩)
  | deletePrompt now id =>
    cases h
    exact .inr (.inr (.inl ⟨now, id, rfl, rfl⟩))
  | insertJob row =>
    simp only [Sql.run] at h
    split at h <;> cases h
    exact .inr (.inr (.inr (by simp)))
  | insertInput sha now f =>
    simp only [Sql.run] at h
    split at h
    · cases h
    · split at h <;> cases h
      exact .inr (.inr (.inr (by simp)))
  | _ =>
    cases h
    exact .inr (.inr (.inr (by simp)))

/-- Who writes the `custom_prompts` table, and how. -/
inductive PromptsStep (s t : State) : Act → Prop
  | same {a : Act} (h : t.world.db.prompts = s.world.db.prompts) : PromptsStep s t a
  | inserted {i : Nat} {f : PromptFields} {now : Int}
      (hi : s.tasks[i]? = some (.prompt (.insert f)))
      (h : s.world.db.prompts.insert? (newPrompt (nextPromptId s.world.db.prompts) now f) =
        some t.world.db.prompts) : PromptsStep s t (.task i .ok)
  | updated {i : Nat} {id now : Int} {f : PromptFields}
      (hi : s.tasks[i]? = some (.prompt (.update id f now)))
      (h : t.world.db.prompts = s.world.db.prompts.update (updatePrompt now id f)) :
      PromptsStep s t (.task i .ok)
  | deleted {i : Nat} {id now : Int} (hi : s.tasks[i]? = some (.prompt (.delete id now)))
      (h : t.world.db.prompts = s.world.db.prompts.update (deletePrompt now id)) :
      PromptsStep s t (.task i .ok)
  | edited {p : Prompts} : PromptsStep s t (.env (.prompts p))

theorem task_prompts {cfg : Config} {n : Int} {τ : ServerTask} {q : Sql}
    {k : Call.Answer (.sql q) → ServerTask} (h : τ.next cfg n = some ⟨.sql q, k⟩) :
    (∀ now f, q = .insertPrompt now f → τ = .prompt (.insert f)) ∧
    (∀ now id f, q = .updatePrompt now id f → τ = .prompt (.update id f now)) ∧
    ∀ now id, q = .deletePrompt now id → τ = .prompt (.delete id now) := by
  cases τ with
  | prompt pc =>
    obtain ⟨k₀, h, -⟩ := Proc.map_eq_some.mp h
    cases pc <;> cases h <;> simp
  | submit pc | cancel pc | hide pc | derived pc | generate pc | purge pc | get pc =>
    obtain ⟨k₀, h, -⟩ := Proc.map_eq_some.mp h
    cases pc <;> cases h <;> simp
  | dropped => cases h

theorem moved_prompts {cfg : Config} {s t : State} {a : Act} (h : Moved cfg s t a) :
    PromptsStep s t a := by
  cases h.sql with
  | none hdb => exact .same (by rw [hdb])
  | worker hc hrun =>
    rcases worker_sql hc with ⟨st, rfl⟩ | rfl | ⟨id, rfl⟩ <;>
      exact .same (by rw [← (Prod.mk.inj (Except.ok.inj hrun)).1])
  | task hi hc hrun =>
    obtain ⟨hinsert, hupdate, hdelete⟩ := task_prompts hc
    rcases run_prompts hrun with ⟨now, f, rfl, hp⟩ | ⟨now, id, f, rfl, hp⟩ | ⟨now, id, rfl, hp⟩ |
      ⟨-, -, -, hp⟩
    · rw [hinsert now f rfl] at hi
      exact .inserted hi hp
    · rw [hupdate now id f rfl] at hi
      exact .updated hi hp
    · rw [hdelete now id rfl] at hi
      exact .deleted hi hp
    · exact .same hp
  | writer hwr hp hrun => exact .same (by rw [← (Prod.mk.inj (Except.ok.inj hrun)).1])
  | env he =>
    rcases he.prompts with he | ⟨p, rfl⟩
    · exact .same he
    · exact .edited

end ZunServer.Catalog
