import ZunServer.FileWrites

/-!
# Rendition files and the columns that record them

Only the JPEG of a rendition is recorded, in a statement of its own after the
file; its AVIF is found beside it. `serve_derived` makes no AVIF before the JPEG
is recorded, `generate_for_job` makes it whatever became of the JPEG.
-/
namespace ZunServer.RenditionFiles

open KeyedTable
open Schema Statements Database Comfy Calls Renditions Worker Handlers CustomPrompts Purge Server
open Rows Lifecycle WorkerSteps RenditionSteps FileWrites JobFiles RowInvariant

/-- The rendition that a task has made and is about to record, by its column and job. -/
def recording : ServerTask → Option (Column × String)
  | .derived (.persistJpegFirst c _ _) | .derived (.persistJpeg c _) => some (c.col, c.jobId)
  | .generate (.persist id _ _ col _) => some (col, id)
  | _ => none

/-- The renditions of which a step leaves a file that no task goes on to record:
the `UPDATE` fails, the task ends before it, or `generate_for_job` makes an AVIF. -/
def unrecorded (s : State) : Act → List (Column × String)
  | .task i (.sqlFails _) | .drop i => ((s.tasks[i]?).bind recording).toList
  | .task i (.body _) => match s.tasks[i]? with
    | some (.generate (.render id _ _ col .avif _)) => [(col, id)]
    | _ => []
  | .crash => s.tasks.filterMap recording
  | _ => []

/-- That happens to a rendition only whose JPEG the row records already. -/
def Recorded (s : State) (a : Act) : Prop :=
  ∀ x ∈ unrecorded s a, ∀ r ∈ row? s x.2, x.1.get r ≠ none

instance (s : State) (a : Act) : Decidable (Recorded s a) :=
  inferInstanceAs (Decidable (∀ x ∈ unrecorded s a, ∀ r ∈ row? s x.2, x.1.get r ≠ none))

/-- What a request has read of its row. -/
def context : DerivedPc → Option DerivedCtx
  | .selectRow _ | .answered _ => none
  | .statCached c _ | .statAvif c _ | .existsJpeg c _ _ | .renderJpegFirst c _ _
  | .persistJpegFirst c _ _ | .renderJpeg c _ _ | .persistJpeg c _ | .renderAvif c _ _
  | .statFallback c _ _ => some c

/-- An AVIF is made beside a recorded JPEG only. -/
def Beside : DerivedPc → Prop
  | .existsJpeg c _ _ | .renderAvif c _ _ => c.derived ≠ none
  | _ => True

structure Linked (s : State) : Prop where
  inv : Inv s
  filed : Filed s
  beside : ∀ (i : Nat) pc, s.tasks[i]? = some (.derived pc) → Beside pc
  known : ∀ (i : Nat) pc c, s.tasks[i]? = some (.derived pc) → context pc = some c →
    c.derived ≠ none → OnRow s c.jobId fun r => c.col.get r ≠ none
  linked : ∀ col id fmt, isUuid id → (s.world.files (renditionOf col id fmt)).isSome = true →
    Settled s id ∧ ((OnRow s id fun r => col.get r ≠ none) ∨
      ∃ (i : Nat) (τ : ServerTask), s.tasks[i]? = some τ ∧ recording τ = some (col, id))

theorem rendition_col {col col' : Column} {id id' : String} {fmt fmt' : DerivedFormat}
    (h : renditionOf col id fmt = renditionOf col' id' fmt') : col = col' := by
  have hsub := congrArg DataPath.sub h
  cases col <;> cases col' <;> first | rfl | cases hsub

/-- No statement takes a recorded rendition back. -/
theorem stmt_column (st : JobStmt) (col : Column) {r : JobRow} (h : col.get r ≠ none) :
    col.get (st.update.row r) ≠ none := by
  refine row_cases (P := fun r' => col.get r' ≠ none) _ r (fun _ => ?_) h
  cases st with
  | setDerivedPath col' id rel =>
    cases col <;> cases col' <;> first | exact h | exact Option.some_ne_none rel
  | _ => cases col <;> exact h

theorem column_step {cfg : Config} {s t : State} {a : Act} (hm : Moved cfg s t a) {id : String}
    (hset : Settled s id) {col : Column} (h : OnRow s id fun r => col.get r ≠ none) :
    OnRow t id fun r => col.get r ≠ none :=
  h.step hm hset fun st _ _ _ hr => stmt_column st col hr

/-- A purge removes both files of a recorded rendition. -/
theorem recorded_files {r : JobRow} (h : Placed (.of r)) (hid : isUuid r.id) {col : Column}
    (hcol : col.get r ≠ none) (fmt : DerivedFormat) :
    renditionOf col r.id fmt ∈ Purge.files (.of r) := by
  obtain ⟨p, hp⟩ := Option.ne_none_iff_exists'.mp hcol
  have hplace : p = renditionOf col r.id .jpeg := by
    cases col with
    | thumb => exact h.thumb p hp
    | preview => exact h.preview p hp
  subst hplace
  have hmem : (StaleJob.of r).thumbPath = some (renditionOf col r.id .jpeg) ∨
      (StaleJob.of r).previewPath = some (renditionOf col r.id .jpeg) := by
    cases col with
    | thumb => exact .inl hp
    | preview => exact .inr hp
  cases fmt with
  | jpeg => exact mem_files.mpr (.inl (mem_recorded.mpr (.inr hmem)))
  | avif => exact mem_files.mpr (.inr ⟨_, hmem, avifSibling_rendition (toList_ne_nil hid) col⟩)

theorem column_recorded {s t : State} {col : Column} {id : String} {dst : DataPath}
    (h : t.world.db.jobs = s.world.db.jobs.update (JobStmt.setDerivedPath col id dst).update) :
    OnRow t id fun r => col.get r ≠ none := by
  intro r' hr'
  unfold row? at hr'
  rw [h, Table.find?_update, Option.map_eq_some_iff] at hr'
  obtain ⟨r, hr, rfl⟩ := hr'
  have hcond : (setDerivedPath col id dst).cond r = true := decide_eq_true (Table.find?_key hr)
  simp only [JobStmt.update, Update.row_of_cond _ hcond]
  cases col <;> exact Option.some_ne_none dst

/-- A task that is about to record a rendition does so, or its `UPDATE` fails. -/
theorem recording_call {cfg : Config} {now : Int} {τ τ' : ServerTask} {f : Fate} {w w' : World}
    {col : Column} {id : String} (hτ : recording τ = some (col, id))
    (h : perform (τ.next cfg now) f w = some (w', τ')) :
    (∃ dst, w'.db.jobs = w.db.jobs.update (JobStmt.setDerivedPath col id dst).update) ∨
      ∃ e, f = .sqlFails e := by
  obtain ⟨c, k, x, hc, hex, -⟩ := perform_eq_some.mp h
  cases τ with
  | derived pc =>
    obtain ⟨k₀, hc, -⟩ := Proc.map_eq_some.mp hc
    cases pc <;> cases hτ
    all_goals
      cases hc
      rcases exec_job hex with ⟨-, -, rfl⟩ | ⟨e, hf, -⟩
      · exact .inl ⟨_, rfl⟩
      · exact .inr ⟨e, hf⟩
  | generate pc =>
    obtain ⟨k₀, hc, -⟩ := Proc.map_eq_some.mp hc
    cases pc <;> cases hτ
    cases hc
    rcases exec_job hex with ⟨-, -, rfl⟩ | ⟨e, hf, -⟩
    · exact .inl ⟨_, rfl⟩
    · exact .inr ⟨e, hf⟩
  | _ => cases hτ

theorem context_attempting {pc : DerivedPc} {c : DerivedCtx} (h : context pc = some c) :
    attempting pc = some (c.col, c.jobId) := by
  cases pc <;> cases h <;> rfl

/-- A request goes on under one context. -/
structure Under (c : DerivedCtx) (pc : DerivedPc) : Prop where
  context : ∀ c', context pc = some c' → c' = c
  beside : Beside pc

theorem under_answered (c : DerivedCtx) (r : Response) : Under c (.answered r) where
  context c' h := by cases h
  beside := trivial

theorem under_ensure {c : DerivedCtx} (out : DataPath) (h : c.format = .jpeg ∨ c.derived ≠ none) :
    Under c (.ensure c out) := by
  unfold DerivedPc.ensure
  split
  · exact under_answered c _
  · split
    · exact ⟨fun c' hc => (Option.some.inj hc).symm, trivial⟩
    · rename_i hfmt
      refine ⟨fun c' hc => (Option.some.inj hc).symm, h.resolve_left ?_⟩
      rw [hfmt]
      exact DerivedFormat.noConfusion

theorem under_ensureJpegFirst (c : DerivedCtx) (out : DataPath) :
    Under c (.ensureJpegFirst c out) := by
  unfold DerivedPc.ensureJpegFirst
  split
  · exact under_answered c _
  · exact ⟨fun c' hc => (Option.some.inj hc).symm, trivial⟩

theorem under_generate (c : DerivedCtx) : Under c (.generate c) := by
  unfold DerivedPc.generate
  split
  · exact under_answered c _
  · split
    · rename_i hfmt
      exact under_ensure _ (.inl hfmt)
    · split
      · exact under_ensureJpegFirst c _
      · rename_i hrel
        refine ⟨fun c' hc => (Option.some.inj hc).symm, ?_⟩
        rw [Beside, hrel]
        exact Option.some_ne_none _

theorem under_afterCached (c : DerivedCtx) : Under c (.afterCached c) := by
  unfold DerivedPc.afterCached
  split
  · exact under_generate c
  · split
    · exact under_answered c _
    · exact ⟨fun c' hc => (Option.some.inj hc).symm, trivial⟩

/-- A request has its context from before, from its row, or from the JPEG it has
just recorded. -/
theorem derived_under {w w' : World} {f : Fate} {pc pc' : DerivedPc} (hb : Beside pc)
    (h : perform pc.next f w = some (w', pc')) : ∃ c, Under c pc' ∧
      (context pc = some c ∨
        (∃ r, w.db.jobs.find? c.jobId = some r ∧ c.derived = c.col.get r) ∨
        (∃ dst, w'.db.jobs = w.db.jobs.update
          (JobStmt.setDerivedPath c.col c.jobId dst).update) ∨ ∃ r, pc' = .answered r) := by
  obtain ⟨c, k, x, hc, hex, rfl⟩ := perform_eq_some.mp h
  have ends : ∀ (c : DerivedCtx) r, Under c (.answered r) := under_answered
  cases pc with
  | selectRow c =>
    cases hc
    rcases execSql_eq_some hex with ⟨db, a, -, hrun, rfl, rfl⟩ | ⟨rfl, e, rfl⟩
    · cases hrun
      cases hr : (w.db.jobs.find? c.jobId).filter (fun r => r.deletedAt = none) with
      | none => exact ⟨c, ends c _, .inr (.inr (.inr ⟨_, rfl⟩))⟩
      | some r =>
        obtain ⟨hr, -⟩ := Option.filter_eq_some_iff.mp hr
        simp only [Option.map_some]
        split
        · exact ⟨c, ends c _, .inr (.inr (.inr ⟨_, rfl⟩))⟩
        · refine ⟨{ c with output := r.outputPath, derived := c.col.get r }, ?_,
            .inr (.inl ⟨r, hr, rfl⟩)⟩
          split
          · exact ⟨fun c' hc => (Option.some.inj hc).symm, trivial⟩
          · exact under_afterCached _
    · exact ⟨c, ends c _, .inr (.inr (.inr ⟨_, rfl⟩))⟩
  | statCached c p =>
    cases hc
    cases x
    · exact ⟨c, under_afterCached c, .inl rfl⟩
    · exact ⟨c, ends c _, .inl rfl⟩
  | statAvif c p =>
    cases hc
    cases x
    · exact ⟨c, under_generate c, .inl rfl⟩
    · exact ⟨c, ends c _, .inl rfl⟩
  | existsJpeg c out rel =>
    cases hc
    cases x
    · exact ⟨c, under_ensureJpegFirst c out, .inl rfl⟩
    · exact ⟨c, under_ensure out (.inr hb), .inl rfl⟩
  | renderJpegFirst c out dst | renderJpeg c out dst =>
    cases hc
    rcases x with e | ⟨⟩
    · exact ⟨c, ends c _, .inl rfl⟩
    · exact ⟨c, ⟨fun c' hc => (Option.some.inj hc).symm, trivial⟩, .inl rfl⟩
  | persistJpegFirst c out dst =>
    cases hc
    rcases exec_job hex with ⟨-, rfl, rfl⟩ | ⟨e, -, rfl, -⟩
    · exact ⟨{ c with derived := some dst }, under_ensure out (.inr (Option.some_ne_none dst)),
        .inr (.inr (.inl ⟨dst, rfl⟩))⟩
    · exact ⟨c, ends c _, .inl rfl⟩
  | persistJpeg c dst =>
    cases hc
    rcases x with e | n <;> exact ⟨c, ends c _, .inl rfl⟩
  | renderAvif c out dst =>
    cases hc
    rcases x with e | ⟨⟩
    · dsimp only
      split
      · exact ⟨c, ends c _, .inl rfl⟩
      · exact ⟨c, ⟨fun c' hc => (Option.some.inj hc).symm, trivial⟩, .inl rfl⟩
    · exact ⟨c, ends c _, .inl rfl⟩
  | statFallback c rel e =>
    cases hc
    cases x <;> exact ⟨c, ends c _, .inl rfl⟩
  | answered r => cases hc

theorem beside_step {cfg : Config} {s t : State} {a : Act} (h : Linked s) (hm : Moved cfg s t a)
    {i : Nat} {pc : DerivedPc} (hi : t.tasks[i]? = some (.derived pc)) : Beside pc := by
  cases hm.origin hi with
  | kept hi₀ _ => exact h.beside i pc hi₀
  | moved hi₀ hp =>
    cases task_moved hp with
    | derived hp =>
      obtain ⟨c, hunder, -⟩ := derived_under (h.beside i _ hi₀) hp
      exact hunder.beside
  | arrived hlen hτ =>
    rename_i r
    cases r <;> cases hτ
    trivial
  | spawned _ _ _ hτ => cases hτ
  | dropped hτ => cases hτ

theorem known_step {cfg : Config} {s t : State} {a : Act} (h : Linked s) (hm : Moved cfg s t a)
    {i : Nat} {pc : DerivedPc} {c : DerivedCtx} (hi : t.tasks[i]? = some (.derived pc))
    (hc : context pc = some c) (hd : c.derived ≠ none) :
    OnRow t c.jobId fun r => c.col.get r ≠ none := by
  have stays : ∀ pc₀, s.tasks[i]? = some (.derived pc₀) → context pc₀ = some c →
      OnRow t c.jobId fun r => c.col.get r ≠ none := by
    intro pc₀ hi₀ hc₀
    have hτ : renders (.derived pc₀) = some c.jobId :=
      congrArg (Option.map Prod.snd) (context_attempting hc₀)
    exact column_step hm (h.inv.tasks i _ c.jobId hi₀ hτ).1 (h.known i pc₀ c hi₀ hc₀ hd)
  cases hm.origin hi with
  | kept hi₀ _ => exact stays pc hi₀ hc
  | moved hi₀ hp =>
    cases task_moved hp with
    | derived hp =>
      obtain ⟨c', hunder, hfrom⟩ := derived_under (h.beside i _ hi₀) hp
      obtain rfl := hunder.context c hc
      rcases hfrom with hc₀ | ⟨r, hr, hcol⟩ | ⟨dst, hw⟩ | ⟨r, rfl⟩
      · exact stays _ hi₀ hc₀
      · refine column_step hm (h.inv.ids.settled hr) fun r' hr' => ?_
        obtain rfl := Option.some.inj (hr.symm.trans hr')
        rw [← hcol]
        exact hd
      · exact column_recorded hw
      · cases hc
  | arrived hlen hτ =>
    rename_i r
    cases r <;> cases hτ
    cases hc
  | spawned _ _ _ hτ => cases hτ
  | dropped hτ => cases hτ

/-- The three ways a rendition file comes about. -/
inductive Rendered (τ τ' : ServerTask) (col : Column) (id : String) : DerivedFormat → Prop
  | toRecord {fmt : DerivedFormat} (h : recording τ' = some (col, id)) : Rendered τ τ' col id fmt
  | beside {c : DerivedCtx} {out dst : DataPath} (h : τ = .derived (.renderAvif c out dst))
      (hcol : c.col = col) (hid : c.jobId = id) : Rendered τ τ' col id .avif
  | generated {out dst : DataPath} {rest : List (Column × DerivedFormat)}
      (h : τ = .generate (.render id out dst col .avif rest)) : Rendered τ τ' col id .avif

theorem rendering_call {cfg : Config} {now : Int} {τ τ' : ServerTask} {b : Bytes} {w w' : World}
    {dst : DataPath} (hτ : rendering τ = some dst) (hplaced : PlacedTask τ)
    (h : perform (τ.next cfg now) (.body b) w = some (w', τ')) :
    ∃ col id fmt, dst = renditionOf col id fmt ∧ renders τ = some id ∧ Rendered τ τ' col id fmt := by
  have answer : ∀ {out dst : DataPath} {x : Except String Unit},
      exec w (.file (.render out dst)) (.body b) = some (w', x) → x = .ok () := by
    intro out dst x hex
    obtain ⟨-, he⟩ := Option.ite_none_right_eq_some.mp hex
    cases he
    rfl
  cases task_moved h with
  | derived hp =>
    obtain ⟨c, k, x, hc, hex, rfl⟩ := perform_eq_some.mp hp
    rename_i pc
    cases pc <;> cases hτ
    all_goals
      cases hc
      obtain rfl := answer hex
    · exact ⟨_, _, _, hplaced, rfl, .toRecord rfl⟩
    · exact ⟨_, _, _, hplaced, rfl, .toRecord rfl⟩
    · exact ⟨_, _, _, hplaced, rfl, .beside rfl rfl rfl⟩
  | generate hp =>
    obtain ⟨c, k, x, hc, hex, rfl⟩ := perform_eq_some.mp hp
    rename_i pc
    cases pc with
    | render id out dst' col fmt rest =>
      cases hτ
      cases hc
      obtain rfl := answer hex
      cases fmt with
      | jpeg => exact ⟨_, _, _, hplaced, rfl, .toRecord rfl⟩
      | avif => exact ⟨_, _, _, hplaced, rfl, .generated rfl⟩
    | _ => cases hτ
  | _ => cases hτ

/-- A rendition that was there is recorded, or about to be, after the step as well. -/
theorem linked_stays {cfg : Config} {s t : State} {a : Act} (h : Linked s) (hm : Moved cfg s t a)
    (hrec : Recorded s a) {col : Column} {id : String} {fmt : DerivedFormat} (hid : isUuid id)
    (hfile : (s.world.files (renditionOf col id fmt)).isSome = true) :
    Settled t id ∧ ((OnRow t id fun r => col.get r ≠ none) ∨
      ∃ (i : Nat) (τ : ServerTask), t.tasks[i]? = some τ ∧ recording τ = some (col, id)) := by
  obtain ⟨hset, hcase⟩ := h.linked col id fmt hid hfile
  refine ⟨hset.step hm, ?_⟩
  have safe : (col, id) ∈ unrecorded s a → OnRow t id fun r => col.get r ≠ none :=
    fun hmem => column_step hm hset (hrec _ hmem)
  rcases hcase with hrow | ⟨i, τ, hi, hτ⟩
  · exact .inl (column_step hm hset hrow)
  · by_cases hup : staysUp a = true
    · rcases hm.task_at hup hi with ⟨hi', -⟩ | ⟨f, τ', rfl, -, hp⟩ | ⟨rfl, -⟩
      · exact .inr ⟨i, τ, hi', hτ⟩
      · rcases recording_call hτ hp with ⟨dst, hw⟩ | ⟨e, rfl⟩
        · exact .inl (column_recorded hw)
        · refine .inl (safe ?_)
          simp [unrecorded, hi, hτ]
      · refine .inl (safe ?_)
        simp [unrecorded, hi, hτ]
    · cases a with
      | crash => exact .inl (safe (List.mem_filterMap.mpr ⟨τ, List.mem_of_getElem? hi, hτ⟩))
      | _ => exact absurd rfl hup

/-- A rendition just made is recorded, or about to be. -/
theorem linked_made {cfg : Config} {s t : State} {i : Nat} {b : Bytes} (h : Linked s)
    (hm : Moved cfg s t (.task i (.body b))) (hrec : Recorded s (.task i (.body b)))
    {τ : ServerTask} (hi : s.tasks[i]? = some τ) {col : Column} {id : String} {fmt : DerivedFormat}
    (hid : isUuid id) (hτ : rendering τ = some (renditionOf col id fmt)) :
    Settled t id ∧ ((OnRow t id fun r => col.get r ≠ none) ∨
      ∃ (i : Nat) (τ : ServerTask), t.tasks[i]? = some τ ∧ recording τ = some (col, id)) := by
  rcases hm.task_at rfl hi with ⟨-, hne⟩ | ⟨f, τ', hf, hi', hp⟩ | ⟨hd, -⟩
  · exact absurd rfl (hne _)
  · cases hf
    obtain ⟨col', id', fmt', he, hrenders, hmade⟩ := rendering_call hτ (h.filed.tasks i τ hi) hp
    obtain ⟨hset, -⟩ := h.inv.tasks i τ id' hi hrenders
    obtain rfl := rendition_col he
    obtain ⟨rfl, rfl⟩ := rendition_inj hid (h.inv.ids.uuid _ hset.1) he
    refine ⟨hset.step hm, ?_⟩
    cases hmade with
    | toRecord hτ' => exact .inr ⟨i, τ', hi', hτ'⟩
    | beside hpc hcol hjob =>
      subst hpc hcol hjob
      exact .inl (column_step hm hset (h.known i _ _ hi rfl (h.beside i _ hi)))
    | generated hpc =>
      subst hpc
      refine .inl (column_step hm hset (hrec (col, id) ?_))
      simp [unrecorded, hi]
  · cases hd

theorem linked_step {cfg : Config} {s t : State} {a : Act} (h : Linked s) (hm : Moved cfg s t a)
    (hrec : Recorded s a) {col : Column} {id : String} {fmt : DerivedFormat} (hid : isUuid id)
    (hfile : (t.world.files (renditionOf col id fmt)).isSome = true) :
    Settled t id ∧ ((OnRow t id fun r => col.get r ≠ none) ∨
      ∃ (i : Nat) (τ : ServerTask), t.tasks[i]? = some τ ∧ recording τ = some (col, id)) := by
  cases file_step hm with
  | same he => exact linked_stays h hm hrec hid (he ▸ hfile)
  | wrote hw he =>
    rename_i q b
    by_cases hq : renditionOf col id fmt = q
    · subst hq
      cases hw with
      | input hi =>
        have hplaced : (renditionOf col id fmt).sub = .cacheInputs := h.filed.tasks _ _ hi
        cases col <;> cases hplaced
      | output hw =>
        have hplaced := h.filed.worker
        rw [hw] at hplaced
        exact absurd rfl (hplaced.not_rendition col fmt)
      | rendered hi hτ => exact linked_made h hm hrec hi hid hτ
    · rw [he, Files.put_other _ _ _ _ hq] at hfile
      exact linked_stays h hm hrec hid hfile
  | purged hi hp he | vanished he =>
    rename_i q
    rw [he] at hfile
    by_cases hq : renditionOf col id fmt = q
    · subst hq
      simp at hfile
    · rw [Files.put_other _ _ _ _ hq] at hfile
      exact linked_stays h hm hrec hid hfile

theorem Linked.step {cfg : Config} {s t : State} {a : Act} (h : Linked s) (hm : Moved cfg s t a)
    (hrec : Recorded s a) : Linked t where
  inv := h.inv.step hm
  filed := h.filed.step hm
  beside _ _ hi := beside_step h hm hi
  known _ _ _ hi hc hd := known_step h hm hi hc hd
  linked _ _ _ hid hfile := linked_step h hm hrec hid hfile

theorem Linked.init : Linked State.init where
  inv := Inv.init
  filed := Filed.init
  beside i pc hi := by simp [State.init] at hi
  known i pc c hi := by simp [State.init] at hi
  linked col id fmt hid hfile := by cases hfile

/-- In every run that leaves no rendition behind unless its JPEG is recorded
already: once no task is about to record a rendition of the job, each of its
rendition files that is there is one that a purge of the job removes, since its
column is recorded. To be left behind counts from the start of the render on, which goes on
by itself and writes its file also when the request has been dropped. -/
theorem renditions_recorded {cfg : Config} {as : List Act} {s : State}
    (hs : run cfg as State.init = some s) (hrec : Along cfg Recorded as State.init) {r : JobRow}
    (hr : r ∈ s.world.db.jobs.rows) {col : Column}
    (hquiet : ∀ τ ∈ s.tasks, recording τ ≠ some (col, r.id)) {fmt : DerivedFormat}
    (hfile : (s.world.files (renditionOf col r.id fmt)).isSome = true) :
    col.get r ≠ none ∧ renditionOf col r.id fmt ∈ Purge.files (.of r) := by
  have hlink : Linked s := Runs.Along.invariant
    (fun u a v hu ha hstep => hu.step (step_moved hstep) ha) hrec hs Linked.init
  have hid : isUuid r.id := hlink.inv.ids.uuid _ (hlink.inv.ids.rows r hr).1
  obtain ⟨-, hrow | ⟨i, τ, hi, hτ⟩⟩ := hlink.linked col r.id fmt hid hfile
  · exact ⟨hrow r (mem_row hr), recorded_files (hlink.filed.rows r hr) hid
      (hrow r (mem_row hr)) fmt⟩
  · exact absurd hτ (hquiet τ (List.mem_of_getElem? hi))

/-- The worker's job is done and its four renditions are made. -/
def renderedRun : List Act :=
  doneRun ++ [.task 1 (.body [4]), .task 1 .ok, .task 1 (.body [5]), .task 1 (.body [6]),
    .task 1 .ok, .task 1 (.body [7])]

theorem renditions_recorded_sample : ∃ s r, run sampleConfig renderedRun State.init = some s ∧
    row? s jobA = some r ∧ Column.thumb.get r ≠ none ∧
    renditionOf .thumb r.id .avif ∈ Purge.files (.of r) := by
  have hrun : (run sampleConfig renderedRun State.init).bind (fun s =>
      if s.tasks.filterMap recording = [] ∧
          (s.world.files (renditionOf .thumb jobA .avif)).isSome = true then
        (row? s jobA).map JobRow.id else none) = some jobA := by
    simp only [renderedRun, doneRun, List.append_assoc, run_first]
    decide +kernel
  obtain ⟨s, hs, h⟩ := Option.bind_eq_some_iff.mp hrun
  obtain ⟨⟨hquiet, hfile⟩, h⟩ := Option.ite_none_right_eq_some.mp h
  obtain ⟨r, hr, hid⟩ := Option.map_eq_some_iff.mp h
  rw [List.filterMap_eq_nil_iff] at hquiet
  have hrec : Along sampleConfig Recorded renderedRun State.init := by
    simp only [renderedRun, doneRun, List.append_assoc, along_first]
    decide +kernel
  refine ⟨s, r, hs, hr, renditions_recorded hs hrec (row_mem hr).1
    (fun τ hτ => ?_) (by rw [hid]; exact hfile)⟩
  rw [hquiet τ hτ]
  exact (Option.some_ne_none _).symm

/-- The JPEG thumbnail finds no room on the disk, the AVIF does. -/
def halfRendered : List Act :=
  doneRun ++ [.task 1 (.ioFails "No space left on device (os error 28)"), .task 1 (.body [5]),
    .task 1 (.body [6]), .task 1 .ok, .task 1 (.body [7])]

/-- Every task is over, the AVIF is there, and its column is NULL. -/
theorem rendition_orphaned : ∃ s r, run sampleConfig halfRendered State.init = some s ∧
    (∀ τ ∈ s.tasks, (τ.next sampleConfig s.world.now).isNone = true) ∧
    r ∈ s.world.db.jobs.rows ∧ r.status = .done ∧
    (s.world.files (renditionOf .thumb r.id .avif)).isSome = true ∧ Column.thumb.get r = none := by
  have hrun : (run sampleConfig halfRendered State.init).bind (fun s =>
      if (∀ τ ∈ s.tasks, (τ.next sampleConfig s.world.now).isNone = true) ∧
          (s.world.files (renditionOf .thumb jobA .avif)).isSome = true then
        (row? s jobA).map fun r => (r.id, r.status, r.thumbPath)
      else none) = some (jobA, .done, none) := by
    simp only [halfRendered, doneRun, List.append_assoc, run_first]
    decide +kernel
  obtain ⟨s, hs, h⟩ := Option.bind_eq_some_iff.mp hrun
  obtain ⟨⟨hover, hfile⟩, h⟩ := Option.ite_none_right_eq_some.mp h
  obtain ⟨r, hr, he⟩ := Option.map_eq_some_iff.mp h
  obtain ⟨hid, hdone, hthumb⟩ : r.id = jobA ∧ r.status = .done ∧ r.thumbPath = none := by
    simpa using he
  exact ⟨s, r, hs, hover, (row_mem hr).1, hdone, hid ▸ hfile, hthumb⟩

end ZunServer.RenditionFiles
