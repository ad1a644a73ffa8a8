import ZunServer.Provenance
import ZunServer.RenditionFiles

/-!
# What a rendition is made of

The file of a rendition is named by its job, and whoever renders it was told the output
of the job: by the row, when the job was done, or by the worker that had just finished it.
What comes out is made of the image that ComfyUI served for this job.
-/
namespace ZunServer.RenditionSources

open KeyedTable
open Schema Statements Database Comfy Calls Renditions Worker Handlers CustomPrompts Purge Server
open Rows RenditionSteps WorkerSteps RowInvariant JobFiles FileWrites RenditionFiles Provenance
open scoped List

/-- The job that a rendition is made for, and the output to make it of. -/
def source : ServerTask → Option (String × DataPath)
  | .derived (.statCached c _) | .derived (.statAvif c _) => c.output.map fun out => (c.jobId, out)
  | .derived (.existsJpeg c out _) | .derived (.renderJpegFirst c out _)
  | .derived (.persistJpegFirst c out _) | .derived (.renderJpeg c out _)
  | .derived (.renderAvif c out _) => some (c.jobId, out)
  | .generate (.render id out _ _ _ _) | .generate (.persist id out _ _ _) => some (id, out)
  | _ => none

/-- A file was rendered: for which job, of which file, into which one, and what came out. -/
def rendered : State × Act → Option (String × DataPath × DataPath × Bytes)
  | (s, .task i (.body b)) => (s.tasks[i]?).bind fun τ => (rendering τ).bind fun dst =>
    (source τ).map fun x => (x.1, x.2, dst, b)
  | _ => none

/-- The output of the job is that of an attempt at it, and is to stay so. -/
structure Result (cfg : Config) (past : List (State × Act)) (id : String) (out : DataPath)
    (a : Attempt) (s : State) : Prop where
  output : IsOutput id out
  final : ∃ r x, r.outputPath = some out ∧ (∀ b, x = some b → b = a.result) ∧ Final id r out x s
  events : ∃ job : QueuedJob, job.id = id ∧ a.events job <:+: trail past

theorem Result.step {cfg : Config} {past : List (State × Act)} {id : String} {out : DataPath}
    {a : Attempt} {s t : State} {act : Act} (h : Result cfg past id out a s)
    (hm : Moved cfg s t act) : Result cfg (past ++ [(s, act)]) id out a t where
  output := h.output
  final := by
    obtain ⟨r, x, hr, hx, hfinal⟩ := h.final
    exact ⟨r, x, hr, hx, hfinal.step h.output hm⟩
  events := by
    obtain ⟨job, hid, hevents⟩ := h.events
    exact ⟨job, hid, trail_mono hevents _⟩

/-- The file holds the result, or is gone. -/
theorem Result.bytes {cfg : Config} {past : List (State × Act)} {id : String} {out : DataPath}
    {a : Attempt} {s : State} (h : Result cfg past id out a s) : HasOnly s.world out a.result := by
  obtain ⟨r, x, -, hx, hfinal⟩ := h.final
  intro b hb
  rcases hfinal.file with hfile | hfile
  · exact hx b (hfile.symm.trans hb)
  · rw [hfile] at hb
    cases hb

theorem Result.row {cfg : Config} {past : List (State × Act)} {id : String} {out : DataPath}
    {a : Attempt} {s : State} (h : Result cfg past id out a s) :
    OnRow s id fun r => r.status = .done ∧ r.outputPath = some out := by
  obtain ⟨r, x, hr, -, hfinal⟩ := h.final
  exact hfinal.row.mono fun q hq => ⟨hq.1, hq.2.1.trans hr⟩

theorem Result.of_row {cfg : Config} {past : List (State × Act)} {s : State}
    (h : Traced cfg past s) {id : String} {r : JobRow} (hr : row? s id = some r)
    (hdone : r.status = .done) {out : DataPath} (hout : r.outputPath = some out) :
    ∃ a, Result cfg past id out a s := by
  obtain ⟨hmem, rfl⟩ := row_mem hr
  obtain ⟨a, out', hfin⟩ := h.done r hmem hdone
  obtain rfl : out' = out := Option.some.inj (hfin.output.symm.trans hout)
  refine ⟨a, (h.addressed.filed.rows r hmem).output _ hout, ⟨r, s.world.files _, hout, hfin.bytes, ?_⟩,
    .of r, rfl, hfin.events⟩
  refine ⟨h.inv, h.addressed.filed, h.inv.ids.settled hr, fun r' hr' => ?_,
    h.elsewhere hmem hdone, .inl rfl⟩
  obtain rfl := Option.some.inj (hr.symm.trans hr')
  exact ⟨hdone, rfl, rfl⟩

theorem source_ensure {c : DerivedCtx} {out : DataPath} {x : String × DataPath}
    (h : source (.derived (.ensure c out)) = some x) : x = (c.jobId, out) := by
  unfold DerivedPc.ensure at h
  split at h
  · cases h
  · split at h <;> exact (Option.some.inj h).symm

theorem source_ensureJpegFirst {c : DerivedCtx} {out : DataPath} {x : String × DataPath}
    (h : source (.derived (.ensureJpegFirst c out)) = some x) : x = (c.jobId, out) := by
  unfold DerivedPc.ensureJpegFirst at h
  split at h
  · cases h
  · exact (Option.some.inj h).symm

theorem source_generate {c : DerivedCtx} {x : String × DataPath}
    (h : source (.derived (.generate c)) = some x) : c.output.map (fun out => (c.jobId, out)) = some x := by
  unfold DerivedPc.generate at h
  split at h
  · cases h
  · rename_i out hout
    rw [hout]
    refine congrArg some (Eq.symm ?_)
    split at h
    · exact source_ensure h
    · split at h
      · exact source_ensureJpegFirst h
      · exact (Option.some.inj h).symm

theorem source_afterCached {c : DerivedCtx} {x : String × DataPath}
    (h : source (.derived (.afterCached c)) = some x) :
    c.output.map (fun out => (c.jobId, out)) = some x := by
  unfold DerivedPc.afterCached at h
  split at h
  · exact source_generate h
  · split at h
    · cases h
    · exact h

theorem source_go {id : String} {out : DataPath} {l : List (Column × DerivedFormat)}
    {x : String × DataPath} (h : source (.generate (.go id out l)) = some x) : x = (id, out) := by
  induction l with
  | nil => cases h
  | cons cf rest ih =>
    obtain ⟨col, fmt⟩ := cf
    unfold GeneratePc.go at h
    split at h
    · exact (Option.some.inj h).symm
    · exact ih h

/-- A request for a rendition is told the output by the row of its job. -/
theorem source_derived {w w' : World} {f : Fate} {pc pc' : DerivedPc} {x : String × DataPath}
    (h : perform pc.next f w = some (w', pc')) (hx : source (.derived pc') = some x) :
    source (.derived pc) = some x ∨ ∃ r, w.db.jobs.find? x.1 = some r ∧ r.status = .done ∧
      r.outputPath = some x.2 := by
  obtain ⟨c, k, y, hc, hex, rfl⟩ := perform_eq_some.mp h
  cases pc with
  | selectRow c =>
    cases hc
    rcases execSql_eq_some hex with ⟨db, a, -, hrun, rfl, rfl⟩ | ⟨rfl, e, rfl⟩
    · cases hrun
      cases hr : (w.db.jobs.find? c.jobId).filter (fun r => r.deletedAt = none) with
      | none =>
        rw [hr] at hx
        cases hx
      | some r =>
        obtain ⟨hfind, -⟩ := Option.filter_eq_some_iff.mp hr
        simp only [hr, Option.map_some] at hx
        split at hx
        · cases hx
        · rename_i hdone
          have hout : r.outputPath.map (fun out => (c.jobId, out)) = some x := by
            split at hx
            · exact hx
            · exact source_afterCached hx
          obtain ⟨out, hpath, rfl⟩ := Option.map_eq_some_iff.mp hout
          exact .inr ⟨r, hfind, not_not.mp hdone, hpath⟩
    · cases hx
  | statCached c p =>
    cases hc
    cases y
    · exact .inl (source_afterCached hx)
    · cases hx
  | statAvif c p =>
    cases hc
    cases y
    · exact .inl (source_generate hx)
    · cases hx
  | existsJpeg c out rel =>
    cases hc
    cases y
    · exact .inl (congrArg some (source_ensureJpegFirst hx).symm)
    · exact .inl (congrArg some (source_ensure hx).symm)
  | renderJpegFirst c out dst =>
    cases hc
    rcases y with e | ⟨⟩
    · cases hx
    · exact .inl hx
  | renderJpeg c out dst =>
    cases hc
    rcases y with e | ⟨⟩ <;> cases hx
  | persistJpegFirst c out dst =>
    cases hc
    rcases y with e | n
    · cases hx
    · exact .inl (congrArg some (source_ensure hx).symm)
  | persistJpeg c dst =>
    cases hc
    rcases y with e | n <;> cases hx
  | renderAvif c out dst =>
    cases hc
    rcases y with e | ⟨⟩
    · dsimp only at hx
      split at hx <;> cases hx
    · cases hx
  | statFallback c rel e =>
    cases hc
    cases y <;> cases hx
  | answered r => cases hc

theorem source_generated {w w' : World} {f : Fate} {pc pc' : GeneratePc} {x : String × DataPath}
    (h : perform pc.next f w = some (w', pc')) (hx : source (.generate pc') = some x) :
    source (.generate pc) = some x := by
  obtain ⟨c, k, y, hc, hex, rfl⟩ := perform_eq_some.mp h
  cases pc with
  | render id out dst col fmt rest =>
    cases hc
    rcases y with e | ⟨⟩
    · exact congrArg some (source_go hx).symm
    · cases fmt
      · exact hx
      · exact congrArg some (source_go hx).symm
  | persist id out dst col rest =>
    cases hc
    exact congrArg some (source_go hx).symm
  | finished => cases hc

/-- The file holds what came out when a rendition was made of the result of its job. -/
def MadeOf (cfg : Config) (past : List (State × Act)) (id : String) (dst : DataPath) (b : Bytes)
    (s : State) : Prop :=
  ∃ x ∈ past, ∃ out a, rendered x = some (id, out, dst, b) ∧
    x.1.world.files out = some a.result ∧ Result cfg past id out a s

structure Drawn (cfg : Config) (past : List (State × Act)) (s : State) : Prop where
  traced : Traced cfg past s
  tasks : ∀ (i : Nat) τ id out, s.tasks[i]? = some τ → source τ = some (id, out) →
    ∃ a, Result cfg past id out a s
  files : ∀ col id fmt b, isUuid id → s.world.files (renditionOf col id fmt) = some b →
    MadeOf cfg past id (renditionOf col id fmt) b s

theorem MadeOf.step {cfg : Config} {past : List (State × Act)} {id : String} {dst : DataPath}
    {b : Bytes} {s t : State} {act : Act} (h : MadeOf cfg past id dst b s) (hm : Moved cfg s t act) :
    MadeOf cfg (past ++ [(s, act)]) id dst b t := by
  obtain ⟨x, hx, out, a, hrendered, hfile, hres⟩ := h
  exact ⟨x, List.mem_append_left _ hx, out, a, hrendered, hfile, hres.step hm⟩

theorem source_step {cfg : Config} {past : List (State × Act)} {s t : State} {act : Act}
    (h : Drawn cfg past s) (hm : Moved cfg s t act) {i : Nat} {τ : ServerTask} {id : String}
    {out : DataPath} (hi : t.tasks[i]? = some τ) (hτ : source τ = some (id, out)) :
    ∃ a, Result cfg (past ++ [(s, act)]) id out a t := by
  have stays : (∃ a, Result cfg past id out a s) → ∃ a, Result cfg (past ++ [(s, act)]) id out a t :=
    fun ⟨a, ha⟩ => ⟨a, ha.step hm⟩
  cases hm.origin hi with
  | kept hi₀ _ => exact stays (h.tasks i τ id out hi₀ hτ)
  | moved hi₀ hcall =>
    cases task_moved hcall with
    | derived hp =>
      rcases source_derived hp hτ with hold | ⟨r, hr, hdone, hout⟩
      · exact stays (h.tasks i _ id out hi₀ hold)
      · exact stays (Result.of_row h.traced hr hdone hout)
    | generate hp => exact stays (h.tasks i _ id out hi₀ (source_generated hp hτ))
    | _ => cases hτ
  | arrived hlen hτ' =>
    rename_i r
    subst hτ'
    cases r <;> cases hτ
  | spawned _ hp hg hτ' =>
    -- the worker has just stored this output in the row
    subst hτ'
    obtain ⟨job, out', wd, ht, r, -, rfl, -, hr'⟩ := spawned_done (worker_step hp) hg
    obtain ⟨rfl, rfl⟩ := Prod.mk.inj (source_go hτ)
    exact Result.of_row (h.traced.step hm) hr' rfl rfl
  | dropped hτ' =>
    subst hτ'
    cases hτ

/-- A task that renders knows of which job, and of what. -/
theorem rendering_source {τ : ServerTask} {dst : DataPath} (h : rendering τ = some dst)
    (hplaced : PlacedTask τ) :
    ∃ col id fmt out, dst = renditionOf col id fmt ∧ source τ = some (id, out) ∧
      ∀ cfg now, ∃ k, τ.next cfg now = some ⟨.file (.render out dst), k⟩ := by
  cases τ with
  | derived pc =>
    cases pc <;> cases h
    · exact ⟨_, _, _, _, hplaced, rfl, fun _ _ => ⟨_, rfl⟩⟩
    · exact ⟨_, _, _, _, hplaced, rfl, fun _ _ => ⟨_, rfl⟩⟩
    · exact ⟨_, _, _, _, hplaced, rfl, fun _ _ => ⟨_, rfl⟩⟩
  | generate pc =>
    cases pc <;> cases h
    exact ⟨_, _, _, _, hplaced, rfl, fun _ _ => ⟨_, rfl⟩⟩
  | _ => cases h

theorem made_step {cfg : Config} {past : List (State × Act)} {s t : State} {act : Act}
    (h : Drawn cfg past s) (hm : Moved cfg s t act) {col : Column} {id : String}
    {fmt : DerivedFormat} {b : Bytes} (hid : isUuid id)
    (hb : t.world.files (renditionOf col id fmt) = some b) :
    MadeOf cfg (past ++ [(s, act)]) id (renditionOf col id fmt) b t := by
  have hfiled := h.traced.addressed.filed
  have stays : s.world.files (renditionOf col id fmt) = some b →
      MadeOf cfg (past ++ [(s, act)]) id (renditionOf col id fmt) b t := fun hb =>
    (h.files col id fmt b hid hb).step hm
  have removed : ∀ p, t.world.files = s.world.files.put p none →
      s.world.files (renditionOf col id fmt) = some b := by
    intro p he
    rw [he] at hb
    by_cases hp : renditionOf col id fmt = p
    · rw [hp, Files.put_same] at hb
      cases hb
    · rwa [Files.put_other _ _ _ _ hp] at hb
  cases file_step hm with
  | same he => exact stays (by rwa [he] at hb)
  | purged hi hp he => exact stays (removed _ he)
  | vanished he => exact stays (removed _ he)
  | @wrote _ p b' hw he =>
    by_cases hp : renditionOf col id fmt = p
    · subst hp
      rw [he, Files.put_same] at hb
      obtain rfl := Option.some.inj hb
      cases hw with
      | input hi =>
        have hplaced : (renditionOf col id fmt).sub = .cacheInputs := hfiled.tasks _ _ hi
        cases col <;> exact absurd hplaced Subdir.noConfusion
      | output hw =>
        have hplaced := hfiled.worker
        rw [hw] at hplaced
        exact absurd rfl (IsOutput.not_rendition hplaced col fmt)
      | @rendered i τ dst _ hi hτ =>
        obtain ⟨col', id', fmt', out, hdst, hsrc, hnext⟩ :=
          rendering_source hτ (hfiled.tasks i τ hi)
        obtain ⟨a, ha⟩ := h.tasks i τ id' out hi hsrc
        obtain ⟨r, x, hr, hx, hfinal⟩ := ha.final
        have hid' := h.traced.inv.ids.uuid _ hfinal.settled.1
        obtain ⟨rfl, -⟩ := rendition_inj hid hid' hdst
        have hout : (s.world.files out).isSome = true := by
          cases hm with
          | task hi' hp =>
            obtain rfl := Option.some.inj (hi.symm.trans hi')
            obtain ⟨k, hk⟩ := hnext cfg s.world.now
            obtain ⟨c, k', y, hc, hex, -⟩ := perform_eq_some.mp hp
            cases hk.symm.trans hc
            exact (Option.ite_none_right_eq_some.mp hex).1
        obtain ⟨b₀, hb₀⟩ := Option.isSome_iff_exists.mp hout
        refine ⟨(s, .task i (.body b')), by simp, out, a, ?_, ?_, ha.step hm⟩
        · simp only [rendered, hi, Option.bind_some, hτ, hsrc, Option.map_some]
        · rw [hb₀, ha.bytes b₀ hb₀]
    · rw [he, Files.put_other _ _ _ _ hp] at hb
      exact stays hb

theorem Drawn.step {cfg : Config} {past : List (State × Act)} {s t : State} {act : Act}
    (h : Drawn cfg past s) (hm : Moved cfg s t act) : Drawn cfg (past ++ [(s, act)]) t where
  traced := h.traced.step hm
  tasks _ _ _ _ hi hτ := source_step h hm hi hτ
  files _ _ _ _ hid hb := made_step h hm hid hb

theorem run_drawn {cfg : Config} {as : List Act} {s : State}
    (h : run cfg as State.init = some s) : Drawn cfg (Runs.visits (step cfg) as State.init) s := by
  have hend := Runs.history_invariant (I := Drawn cfg)
    (fun past u a v hu hs => hu.step (step_moved hs)) h
    ⟨Traced.init cfg, fun i τ id out hi => by simp [State.init] at hi,
      fun col id fmt b _ hb => by cases hb⟩
  simpa using hend

/-- In every run: the file of a rendition of a job, as long as it is there, holds what came
out when the rendition was made of the image that ComfyUI had served in one attempt at
that job, and not at any other; the job, as long as its row is there, is done with the
file that held the image as its output, and that file holds it still or is gone. -/
theorem renditions_own {cfg : Config} {as : List Act} {s : State}
    (h : run cfg as State.init = some s) {col : Column} {id : String} {fmt : DerivedFormat}
    {b : Bytes} (hid : isUuid id) (hb : s.world.files (renditionOf col id fmt) = some b) :
    ∃ x ∈ Runs.visits (step cfg) as State.init, ∃ (out : DataPath) (a : Attempt),
      rendered x = some (id, out, renditionOf col id fmt, b) ∧
      x.1.world.files out = some a.result ∧ HasOnly s.world out a.result ∧
      (OnRow s id fun r => r.status = .done ∧ r.outputPath = some out) ∧
      ∃ job : QueuedJob, job.id = id ∧
        a.events job <:+: trail (Runs.visits (step cfg) as State.init) := by
  obtain ⟨x, hx, out, a, hrendered, hfile, hres⟩ := (run_drawn h).files col id fmt b hid hb
  exact ⟨x, hx, out, a, hrendered, hfile, hres.bytes, hres.row, hres.events⟩

theorem renditions_own_sample : ∃ s out a, run sampleConfig renderedRun State.init = some s ∧
    s.world.files (renditionOf .thumb jobA .jpeg) = some [4] ∧ s.world.files out = some [1, 2, 3] ∧
    Attempt.result a = [1, 2, 3] ∧ ∃ x ∈ Runs.visits (step sampleConfig) renderedRun State.init,
      rendered x = some (jobA, out, renditionOf .thumb jobA .jpeg, [4]) := by
  have hrun : (run sampleConfig renderedRun State.init).bind (fun s => (row? s jobA).bind fun r =>
      r.outputPath.map fun out =>
        (s.world.files (renditionOf .thumb jobA .jpeg), s.world.files out)) =
      some (some [4], some [1, 2, 3]) := by
    simp only [renderedRun, doneRun, List.append_assoc, run_first]
    decide +kernel
  obtain ⟨s, hs, h⟩ := Option.bind_eq_some_iff.mp hrun
  obtain ⟨r, hr, h⟩ := Option.bind_eq_some_iff.mp h
  obtain ⟨out, hout, h⟩ := Option.map_eq_some_iff.mp h
  obtain ⟨hthumb, hfile⟩ := Prod.mk.inj h
  obtain ⟨x, hx, out', a, hrendered, -, hbytes, hrow, -⟩ :=
    renditions_own hs (by decide) hthumb
  obtain rfl : out' = out := Option.some.inj ((hrow r hr).2.symm.trans hout)
  exact ⟨s, out', a, hs, hthumb, hfile, (hbytes _ hfile).symm, x, hx, hrendered⟩

end ZunServer.RenditionSources
