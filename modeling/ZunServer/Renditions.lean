import ZunServer.Calls

/-!
# Thumbnails and previews

`derived_images::generate_for_job`, which the worker leaves behind after a job
is done, and `images::serve_derived`, the handler behind `get_thumb` and
`get_preview`.
-/
namespace ZunServer.Renditions

open Schema Statements Database Calls

/-- The file of a rendition: `<job id>.<extension>` in the directory of its column. -/
def renditionPath (col : Column) (jobId : String) (fmt : DerivedFormat) : Except String DataPath :=
  dataPath col.subdir (jobId ++ "." ++ fmt.extension)

inductive GeneratePc where
  | render (jobId : String) (output dst : DataPath) (col : Column) (fmt : DerivedFormat)
      (rest : List (Column × DerivedFormat))
  | persist (jobId : String) (output dst : DataPath) (col : Column)
      (rest : List (Column × DerivedFormat))
  | finished
  deriving DecidableEq, Repr

/-- Go on with the renditions still to make; an error is logged and skips to the next. -/
def GeneratePc.go (jobId : String) (output : DataPath) :
    List (Column × DerivedFormat) → GeneratePc
  | [] => .finished
  | (col, fmt) :: rest => match renditionPath col jobId fmt with
    | .ok dst => .render jobId output dst col fmt rest
    | .error _ => go jobId output rest

def GeneratePc.start (jobId : String) (output : DataPath) : GeneratePc :=
  go jobId output [(.thumb, .jpeg), (.thumb, .avif), (.preview, .jpeg), (.preview, .avif)]

def GeneratePc.next : GeneratePc → Proc GeneratePc
  | .render id out dst col fmt rest => some ⟨.file (.render out dst), fun
    | .ok () => match fmt with
      | .jpeg => .persist id out dst col rest
      | .avif => go id out rest
    | .error _ => go id out rest⟩
  | .persist id out dst col rest => some ⟨.sql (.job (.setDerivedPath col id dst)), fun _ =>
    go id out rest⟩
  | .finished => none

/-- A request for a rendition: the column, the job, the negotiated format, and
what the row held (`output_path` and the column) when it was read. -/
structure DerivedCtx where
  col : Column
  jobId : String
  format : DerivedFormat
  output : Option DataPath
  derived : Option DataPath
  deriving DecidableEq, Repr

/-- Where the request stands; once `answered` with a file, it is in `serve_negotiated_file` with it,
which only reads. -/
inductive DerivedPc where
  | selectRow (c : DerivedCtx)
  | statCached (c : DerivedCtx) (p : DataPath)
  | statAvif (c : DerivedCtx) (p : DataPath)
  | existsJpeg (c : DerivedCtx) (out rel : DataPath)
  | renderJpegFirst (c : DerivedCtx) (out dst : DataPath)
  | persistJpegFirst (c : DerivedCtx) (out dst : DataPath)
  | renderJpeg (c : DerivedCtx) (out dst : DataPath)
  | persistJpeg (c : DerivedCtx) (dst : DataPath)
  | renderAvif (c : DerivedCtx) (out dst : DataPath)
  | statFallback (c : DerivedCtx) (rel : DataPath) (e : String)
  | answered (r : Response)
  deriving DecidableEq, Repr

namespace DerivedPc

def fail (e : String) : DerivedPc := .answered (.error (.internal e))

/-- The file the row points to, in the negotiated format (`cached_derived_path`). -/
def cachedPath (c : DerivedCtx) : Option DataPath :=
  c.derived.map fun rel => match c.format with
    | .jpeg => rel
    | .avif => avifSibling rel

/-- `ensure_one` for the negotiated format. -/
def ensure (c : DerivedCtx) (out : DataPath) : DerivedPc :=
  match renditionPath c.col c.jobId c.format with
  | .error e => fail e
  | .ok dst => match c.format with
    | .jpeg => .renderJpeg c out dst
    | .avif => .renderAvif c out dst

/-- `ensure_one` for the JPEG that an AVIF needs beside it. -/
def ensureJpegFirst (c : DerivedCtx) (out : DataPath) : DerivedPc :=
  match renditionPath c.col c.jobId .jpeg with
  | .error e => fail e
  | .ok dst => .renderJpegFirst c out dst

/-- The lazy fallback of `serve_derived`. -/
def generate (c : DerivedCtx) : DerivedPc :=
  match c.output with
  | none => fail s!"done job {c.jobId} missing output_path"
  | some out => match c.format with
    | .jpeg => ensure c out
    | .avif => match c.derived with
      | none => ensureJpegFirst c out
      | some rel => .existsJpeg c out rel

/-- Past the fast path: an AVIF may be there without being recorded. -/
def afterCached (c : DerivedCtx) : DerivedPc :=
  match c.format with
  | .jpeg => generate c
  | .avif => match renditionPath c.col c.jobId .avif with
    | .error e => fail e
    | .ok p => .statAvif c p

def next : DerivedPc → Proc DerivedPc
  | .selectRow c => some ⟨.sql (.selectDerived c.col c.jobId), fun
    | .error e => fail e
    | .ok none => .answered (.error .notFound)
    | .ok (some (status, output, derived)) =>
      if status ≠ .done then .answered (.error .notReady)
      else
        let c := { c with output := output, derived := derived }
        match cachedPath c with
        | some p => .statCached c p
        | none => afterCached c⟩
  | .statCached c p => some ⟨.file (.metadata p), fun
    | true => .answered (.file p c.format)
    | false => afterCached c⟩
  | .statAvif c p => some ⟨.file (.metadata p), fun
    | true => .answered (.file p .avif)
    | false => generate c⟩
  | .existsJpeg c out rel => some ⟨.file (.metadata rel), fun
    | true => ensure c out
    | false => ensureJpegFirst c out⟩
  | .renderJpegFirst c out dst => some ⟨.file (.render out dst), fun
    | .ok () => .persistJpegFirst c out dst
    | .error e => fail e⟩
  | .persistJpegFirst c out dst => some ⟨.sql (.job (.setDerivedPath c.col c.jobId dst)), fun
    | .ok _ => ensure { c with derived := some dst } out
    | .error e => fail e⟩
  | .renderJpeg c out dst => some ⟨.file (.render out dst), fun
    | .ok () => .persistJpeg c dst
    | .error e => fail e⟩
  | .persistJpeg c dst => some ⟨.sql (.job (.setDerivedPath c.col c.jobId dst)), fun
    | .ok _ => .answered (.file dst .jpeg)
    | .error e => fail e⟩
  | .renderAvif c out dst => some ⟨.file (.render out dst), fun
    | .ok () => .answered (.file dst .avif)
    | .error e => match c.derived with
      | none => fail e
      | some rel => .statFallback c rel e⟩
  | .statFallback _ rel e => some ⟨.file (.metadata rel), fun
    | true => .answered (.file rel .jpeg)
    | false => fail e⟩
  | .answered _ => none

end DerivedPc

end ZunServer.Renditions
