import ZunServer.JobFiles

/-!
# Who writes which file

A submit writes the file of its input, the worker the output of its job, and a
rendition task a file named by its job; only a purge removes a file.
-/
namespace ZunServer.FileWrites

open Schema Statements Database Comfy Calls Renditions Worker Handlers CustomPrompts Purge Server
open RenditionSteps JobFiles

/-- The file a rendition task is about to render. -/
def rendering : ServerTask → Option DataPath
  | .derived (.renderJpegFirst _ _ dst) | .derived (.renderJpeg _ _ dst)
  | .derived (.renderAvif _ _ dst) | .generate (.render _ _ dst _ _ _) => some dst
  | _ => none

/-- Who puts which bytes where. -/
inductive Writes (s : State) : Act → DataPath → Bytes → Prop
  | input {i : Nat} {fl : SubmitFields} {p : Resolved} {now : Int} {row : Option Int} {u : Upload}
      {path : DataPath} (hi : s.tasks[i]? = some (.submit (.write fl p now row u path))) :
      Writes s (.task i .ok) path u.bytes
  | output {job : QueuedJob} {out : DataPath} {b : Bytes}
      (hw : s.worker = .process job (.writeOutput out b)) : Writes s (.worker .ok) out b
  | rendered {i : Nat} {τ : ServerTask} {dst : DataPath} {b : Bytes} (hi : s.tasks[i]? = some τ)
      (hτ : rendering τ = some dst) : Writes s (.task i (.body b)) dst b

/-- What a step does to the files. -/
inductive FileStep (s t : State) : Act → Prop
  | same {a : Act} (h : t.world.files = s.world.files) : FileStep s t a
  | wrote {a : Act} {p : DataPath} {b : Bytes} (hw : Writes s a p b)
      (h : t.world.files = s.world.files.put p (some b)) : FileStep s t a
  | purged {i : Nat} {pc : PurgePc} {p : DataPath} (hi : s.tasks[i]? = some (.purge pc))
      (hp : removing pc = some p) (h : t.world.files = s.world.files.put p none) :
      FileStep s t (.task i .ok)
  | vanished {p : DataPath} (h : t.world.files = s.world.files.put p none) :
      FileStep s t (.env (.vanish p))

theorem worker_file {cfg : Config} {now : Int} {pc : WorkerPc} {q : FileCall}
    {k : Call.Answer (.file q) → WorkerPc × List GeneratePc}
    (h : pc.next cfg now = some ⟨.file q, k⟩) :
    (∃ p, q = .read p) ∨
      ∃ job out b, pc = .process job (.writeOutput out b) ∧ q = .atomicWrite out b := by
  cases pc with
  | process job stage =>
    cases stage <;> cases h
    · exact .inl ⟨_, rfl⟩
    · exact .inr ⟨_, _, _, rfl, rfl⟩
  | _ => cases h

theorem task_file {cfg : Config} {now : Int} {τ : ServerTask} {q : FileCall}
    {k : Call.Answer (.file q) → ServerTask} (h : τ.next cfg now = some ⟨.file q, k⟩) :
    (∃ p, q = .metadata p) ∨
    (∃ fl p now row u path, τ = .submit (.write fl p now row u path) ∧
      q = .atomicWrite path u.bytes) ∨
    (∃ pc p, τ = .purge pc ∧ removing pc = some p ∧ q = .removeFile p) ∨
    ∃ out dst, rendering τ = some dst ∧ q = .render out dst := by
  cases τ with
  | submit pc =>
    obtain ⟨k₀, h, -⟩ := Proc.map_eq_some.mp h
    cases pc <;> cases h
    · exact .inl ⟨_, rfl⟩
    · exact .inr (.inl ⟨_, _, _, _, _, _, rfl, rfl⟩)
  | purge pc =>
    obtain ⟨k₀, h, -⟩ := Proc.map_eq_some.mp h
    cases pc <;> cases h <;> exact .inr (.inr (.inl ⟨_, _, rfl, rfl, rfl⟩))
  | derived pc =>
    obtain ⟨k₀, h, -⟩ := Proc.map_eq_some.mp h
    cases pc <;> cases h
    · exact .inl ⟨_, rfl⟩
    · exact .inl ⟨_, rfl⟩
    · exact .inl ⟨_, rfl⟩
    · exact .inr (.inr (.inr ⟨_, _, rfl, rfl⟩))
    · exact .inr (.inr (.inr ⟨_, _, rfl, rfl⟩))
    · exact .inr (.inr (.inr ⟨_, _, rfl, rfl⟩))
    · exact .inl ⟨_, rfl⟩
  | generate pc =>
    obtain ⟨k₀, h, -⟩ := Proc.map_eq_some.mp h
    cases pc <;> cases h
    exact .inr (.inr (.inr ⟨_, _, rfl, rfl⟩))
  | cancel pc | hide pc | get pc | prompt pc =>
    obtain ⟨k₀, h, -⟩ := Proc.map_eq_some.mp h
    cases pc <;> cases h
  | dropped => cases h

/-- What one file operation does, with the fate that lets it. -/
theorem exec_file {w w' : World} {q : FileCall} {f : Fate} {x : q.Answer}
    (h : exec w (.file q) f = some (w', x)) :
    w'.files = w.files ∨ (∃ p b, q = .atomicWrite p b ∧ f = .ok ∧ w'.files = w.files.put p (some b)) ∨
      (∃ p, q = .removeFile p ∧ f = .ok ∧ w'.files = w.files.put p none) ∨
      ∃ out dst b, q = .render out dst ∧ f = .body b ∧ w'.files = w.files.put dst (some b) := by
  cases q with
  | metadata p | read p =>
    rcases (exec_change h).files with he | ⟨q, hq, he | ⟨p, b, rfl, -⟩ | ⟨p, rfl, -⟩ |
      ⟨out, dst, b, rfl, -⟩⟩
    · exact .inl he
    · exact .inl he
    all_goals cases hq
  | atomicWrite p b =>
    cases f <;> cases h
    · exact .inr (.inl ⟨p, b, rfl, rfl, rfl⟩)
    · exact .inl rfl
  | removeFile p =>
    cases f <;> cases h
    · exact .inr (.inr (.inl ⟨p, rfl, rfl, rfl⟩))
    · exact .inl rfl
  | render out dst =>
    cases f <;> simp only [exec, execFile, reduceCtorEq, Option.ite_none_right_eq_some,
      Option.some.injEq, Prod.mk.injEq] at h
    · obtain ⟨rfl, -⟩ := h
      exact .inl rfl
    · obtain ⟨-, rfl, -⟩ := h
      exact .inr (.inr (.inr ⟨out, dst, _, rfl, rfl, rfl⟩))

theorem file_step {cfg : Config} {s t : State} {a : Act} (h : Moved cfg s t a) : FileStep s t a := by
  cases h.fileCall with
  | none he => exact .same he
  | worker hc hex =>
    rcases exec_file hex with he | ⟨p, b, rfl, rfl, he⟩ | ⟨p, rfl, -⟩ | ⟨out, dst, b, rfl, -⟩
    · exact .same he
    · rcases worker_file hc with ⟨p', hq⟩ | ⟨job, out, b', hpc, hq⟩ <;> cases hq
      exact .wrote (.output hpc) he
    · exact absurd hc worker_removes
    · rcases worker_file hc with ⟨p', hq⟩ | ⟨job, out, b', hpc, hq⟩ <;> cases hq
  | task hi hc hex =>
    rcases exec_file hex with he | ⟨p, b, rfl, rfl, he⟩ | ⟨p, rfl, rfl, he⟩ |
      ⟨out, dst, b, rfl, rfl, he⟩
    · exact .same he
    all_goals rcases task_file hc with ⟨p', hq⟩ | ⟨fl, r, now, row, u, path, rfl, hq⟩ |
      ⟨pc, p', rfl, hp, hq⟩ | ⟨out', dst', hτ, hq⟩ <;> cases hq
    · exact .wrote (.input hi) he
    · exact .purged hi hp he
    · exact .wrote (.rendered hi hτ) he
  | vanished he => exact .vanished he

/-- A rendition task renders where the renditions of its job are. -/
theorem rendering_dst {s : State} (h : Filed s) {i : Nat} {τ : ServerTask} {dst : DataPath}
    (hi : s.tasks[i]? = some τ) (hτ : rendering τ = some dst) :
    ∃ col id fmt, dst = renditionOf col id fmt := by
  have hplaced := h.tasks i τ hi
  cases τ with
  | derived pc =>
    cases pc <;> cases hτ
    · exact ⟨_, _, _, hplaced⟩
    · exact ⟨_, _, _, hplaced⟩
    · exact ⟨_, _, _, hplaced⟩
  | generate pc =>
    cases pc <;> cases hτ
    exact ⟨_, _, _, hplaced⟩
  | _ => cases hτ

/-- An input file is written by a submit. -/
theorem Writes.of_input {s : State} (h : Filed s) {a : Act} {p : DataPath} {b : Bytes}
    (hw : Writes s a p b) (hp : p.sub = .cacheInputs) :
    ∃ (i : Nat) (fl : SubmitFields) (q : Resolved) (now : Int) (row : Option Int) (u : Upload),
      a = .task i .ok ∧ s.tasks[i]? = some (.submit (.write fl q now row u p)) ∧ b = u.bytes := by
  cases hw with
  | input hi => exact ⟨_, _, _, _, _, _, rfl, hi, rfl⟩
  | output hw =>
    have hplaced := h.worker
    rw [hw] at hplaced
    exact absurd (hplaced.sub.symm.trans hp) Subdir.noConfusion
  | rendered hi hτ =>
    obtain ⟨col, id, fmt, rfl⟩ := rendering_dst h hi hτ
    cases col <;> exact absurd hp Subdir.noConfusion

/-- An output file is written by the worker. -/
theorem Writes.of_output {s : State} (h : Filed s) {a : Act} {p : DataPath} {b : Bytes}
    (hw : Writes s a p b) (hp : p.sub = .outputs) :
    ∃ job, a = .worker .ok ∧ s.worker = .process job (.writeOutput p b) := by
  cases hw with
  | input hi =>
    have hplaced : p.sub = .cacheInputs := h.tasks _ _ hi
    exact absurd (hplaced.symm.trans hp) Subdir.noConfusion
  | output hw => exact ⟨_, rfl, hw⟩
  | rendered hi hτ =>
    obtain ⟨col, id, fmt, rfl⟩ := rendering_dst h hi hτ
    cases col <;> exact absurd hp Subdir.noConfusion

end ZunServer.FileWrites
