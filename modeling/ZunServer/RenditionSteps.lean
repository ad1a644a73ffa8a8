import ZunServer.WorkerSteps

/-!
# One call of a rendition task

What each call of `serve_derived` and of `generate_for_job` leads to, said once:
a request reads the row, tries a few files, renders one of them and records it,
all under the column and the job it was made for.
-/
namespace ZunServer.RenditionSteps

open KeyedTable
open Schema Statements Database Comfy Calls Renditions Server WorkerSteps

def renditionOf (col : Column) (id : String) (fmt : DerivedFormat) : DataPath :=
  ⟨col.subdir, id ++ "." ++ fmt.extension⟩

theorem renditionPath_ok {col : Column} {id : String} {fmt : DerivedFormat} {p : DataPath}
    (h : renditionPath col id fmt = .ok p) : p = renditionOf col id fmt := dataPath_ok h

/-- The column and the job of a request that has read its row. -/
def attempting : DerivedPc → Option (Column × String)
  | .selectRow _ | .answered _ => none
  | .statCached c _ | .statAvif c _ | .existsJpeg c _ _ | .renderJpegFirst c _ _
  | .persistJpegFirst c _ _ | .renderJpeg c _ _ | .persistJpeg c _ | .renderAvif c _ _
  | .statFallback c _ _ => some (c.col, c.jobId)

/-- About to look at a file or to render one, or answered. -/
inductive Trying (col : Column) (id : String) : DerivedPc → Prop
  | answered (r : Response) : Trying col id (.answered r)
  | statCached {c : DerivedCtx} {p : DataPath} (hcol : c.col = col) (hid : c.jobId = id) :
      Trying col id (.statCached c p)
  | statAvif {c : DerivedCtx} {p : DataPath} (hcol : c.col = col) (hid : c.jobId = id) :
      Trying col id (.statAvif c p)
  | existsJpeg {c : DerivedCtx} {out rel : DataPath} (hcol : c.col = col) (hid : c.jobId = id) :
      Trying col id (.existsJpeg c out rel)
  | renderJpegFirst {c : DerivedCtx} {out : DataPath} (hcol : c.col = col) (hid : c.jobId = id) :
      Trying col id (.renderJpegFirst c out (renditionOf col id .jpeg))
  | renderJpeg {c : DerivedCtx} {out : DataPath} (hcol : c.col = col) (hid : c.jobId = id) :
      Trying col id (.renderJpeg c out (renditionOf col id .jpeg))
  | renderAvif {c : DerivedCtx} {out : DataPath} (hcol : c.col = col) (hid : c.jobId = id) :
      Trying col id (.renderAvif c out (renditionOf col id .avif))
  | statFallback {c : DerivedCtx} {rel : DataPath} {e : String} (hcol : c.col = col)
      (hid : c.jobId = id) : Trying col id (.statFallback c rel e)

theorem Trying.attempting {col : Column} {id : String} {pc : DerivedPc} (h : Trying col id pc)
    {x : Column × String} (hx : attempting pc = some x) : x = (col, id) := by
  cases h with
  | answered r => cases hx
  | _ hcol hid =>
    obtain rfl := Option.some.inj hx
    rw [hcol, hid]

theorem trying_ensure (c : DerivedCtx) (out : DataPath) : Trying c.col c.jobId (.ensure c out) := by
  unfold DerivedPc.ensure
  split
  · exact .answered _
  · rename_i hdst
    split
    · rename_i hfmt
      rw [hfmt] at hdst
      rw [renditionPath_ok hdst]
      exact .renderJpeg rfl rfl
    · rename_i hfmt
      rw [hfmt] at hdst
      rw [renditionPath_ok hdst]
      exact .renderAvif rfl rfl

theorem trying_ensureJpegFirst (c : DerivedCtx) (out : DataPath) :
    Trying c.col c.jobId (.ensureJpegFirst c out) := by
  unfold DerivedPc.ensureJpegFirst
  split
  · exact .answered _
  · rename_i hdst
    rw [renditionPath_ok hdst]
    exact .renderJpegFirst rfl rfl

theorem trying_generate (c : DerivedCtx) : Trying c.col c.jobId (.generate c) := by
  unfold DerivedPc.generate
  split
  · exact .answered _
  · split
    · exact trying_ensure _ _
    · split
      · exact trying_ensureJpegFirst _ _
      · exact .existsJpeg rfl rfl

theorem trying_afterCached (c : DerivedCtx) : Trying c.col c.jobId (.afterCached c) := by
  unfold DerivedPc.afterCached
  split
  · exact trying_generate c
  · split
    · exact .answered _
    · exact .statAvif rfl rfl

/-- What a call of `serve_derived` leads to. -/
inductive DerivedStep (w w' : World) : DerivedPc → DerivedPc → Prop
  | selected {c : DerivedCtx} {pc : DerivedPc} {r : JobRow}
      (hr : w.db.jobs.find? c.jobId = some r) (hdone : r.status = .done)
      (h : Trying c.col c.jobId pc) : DerivedStep w w' (.selectRow c) pc
  | goes {pc pc' : DerivedPc} {col : Column} {id : String} (h : attempting pc = some (col, id))
      (h' : Trying col id pc') : DerivedStep w w' pc pc'
  | ended {pc : DerivedPc} (r : Response) : DerivedStep w w' pc (.answered r)
  | renderedFirst {c : DerivedCtx} {out dst : DataPath} (h : (w'.files dst).isSome = true) :
      DerivedStep w w' (.renderJpegFirst c out dst) (.persistJpegFirst c out dst)
  | rendered {c : DerivedCtx} {out dst : DataPath} (h : (w'.files dst).isSome = true) :
      DerivedStep w w' (.renderJpeg c out dst) (.persistJpeg c dst)

theorem exec_render {w w' : World} {out dst : DataPath} {f : Fate}
    (h : exec w (.file (.render out dst)) f = some (w', .ok ())) : (w'.files dst).isSome = true := by
  cases f <;> simp only [exec, execFile, reduceCtorEq, Option.ite_none_right_eq_some,
    Option.some.injEq, Prod.mk.injEq, and_false] at h
  rw [← h.2.1]
  simp

theorem derived_step {w w' : World} {f : Fate} {pc pc' : DerivedPc}
    (h : perform pc.next f w = some (w', pc')) : DerivedStep w w' pc pc' := by
  obtain ⟨c, k, x, hc, hex, rfl⟩ := perform_eq_some.mp h
  cases pc with
  | selectRow c =>
    cases hc
    rcases execSql_eq_some hex with ⟨db, a, -, hrun, rfl, rfl⟩ | ⟨rfl, e, rfl⟩
    · cases hrun
      cases hr : (w.db.jobs.find? c.jobId).filter (fun r => r.deletedAt = none) with
      | none => exact .ended _
      | some r =>
        obtain ⟨hr, -⟩ := Option.filter_eq_some_iff.mp hr
        simp only [Option.map_some]
        split
        · exact .ended _
        · rename_i hdone
          refine .selected hr (Classical.not_not.mp hdone) ?_
          split
          · exact .statCached rfl rfl
          · exact trying_afterCached { c with output := r.outputPath, derived := c.col.get r }
    · exact .ended _
  | statCached c p =>
    cases hc
    cases x
    · exact .goes rfl (trying_afterCached c)
    · exact .ended _
  | statAvif c p =>
    cases hc
    cases x
    · exact .goes rfl (trying_generate c)
    · exact .ended _
  | existsJpeg c out rel =>
    cases hc
    cases x
    · exact .goes rfl (trying_ensureJpegFirst c out)
    · exact .goes rfl (trying_ensure c out)
  | renderJpegFirst c out dst =>
    cases hc
    rcases x with e | ⟨⟩
    · exact .ended _
    · exact .renderedFirst (exec_render hex)
  | persistJpegFirst c out dst =>
    cases hc
    rcases x with e | n
    · exact .ended _
    · exact .goes rfl (trying_ensure { c with derived := some dst } out)
  | renderJpeg c out dst =>
    cases hc
    rcases x with e | ⟨⟩
    · exact .ended _
    · exact .rendered (exec_render hex)
  | persistJpeg c dst =>
    cases hc
    rcases x with e | n <;> exact .ended _
  | renderAvif c out dst =>
    cases hc
    rcases x with e | ⟨⟩
    · dsimp only
      split
      · exact .ended _
      · exact .goes rfl (.statFallback rfl rfl)
    · exact .ended _
  | statFallback c rel e =>
    cases hc
    cases x <;> exact .ended _
  | answered r => cases hc

/-- The job whose renditions are being made. -/
def generating : GeneratePc → Option String
  | .render id _ _ _ _ _ | .persist id _ _ _ _ => some id
  | .finished => none

/-- About to render the next file, or finished. -/
inductive Rendering (id : String) : GeneratePc → Prop
  | render {out : DataPath} {col : Column} {fmt : DerivedFormat}
      {rest : List (Column × DerivedFormat)} :
      Rendering id (.render id out (renditionOf col id fmt) col fmt rest)
  | finished : Rendering id .finished

theorem Rendering.generating {id : String} {pc : GeneratePc} (h : Rendering id pc) {id' : String}
    (hid : generating pc = some id') : id' = id := by
  cases h with
  | render => exact (Option.some.inj hid).symm
  | finished => cases hid

theorem rendering_go (id : String) (out : DataPath) (l : List (Column × DerivedFormat)) :
    Rendering id (.go id out l) := by
  induction l with
  | nil => exact .finished
  | cons cf rest ih =>
    obtain ⟨col, fmt⟩ := cf
    unfold GeneratePc.go
    split
    · rename_i hdst
      rw [renditionPath_ok hdst]
      exact .render
    · exact ih

/-- What a call of `generate_for_job` leads to. -/
inductive GenerateStep (w' : World) : GeneratePc → GeneratePc → Prop
  | goes {pc pc' : GeneratePc} {id : String} (h : generating pc = some id)
      (h' : Rendering id pc') : GenerateStep w' pc pc'
  | rendered {id : String} {out dst : DataPath} {col : Column}
      {rest : List (Column × DerivedFormat)} (h : (w'.files dst).isSome = true) :
      GenerateStep w' (.render id out dst col .jpeg rest) (.persist id out dst col rest)

theorem generate_step {w w' : World} {f : Fate} {pc pc' : GeneratePc}
    (h : perform pc.next f w = some (w', pc')) : GenerateStep w' pc pc' := by
  obtain ⟨c, k, x, hc, hex, rfl⟩ := perform_eq_some.mp h
  cases pc with
  | render id out dst col fmt rest =>
    cases hc
    rcases x with e | ⟨⟩
    · exact .goes rfl (rendering_go id out rest)
    · cases fmt
      · exact .rendered (exec_render hex)
      · exact .goes rfl (rendering_go id out rest)
  | persist id out dst col rest =>
    cases hc
    exact .goes rfl (rendering_go id out rest)
  | finished => cases hc

end ZunServer.RenditionSteps
