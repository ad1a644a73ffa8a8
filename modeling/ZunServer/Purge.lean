import ZunServer.Calls

/-!
# Retention

`purge::run` over `data_dir`, with `comfy_data_dir` unset.
-/
namespace ZunServer.Purge

open Schema Statements Database Calls

structure PurgeOpts where
  nowSeconds : Int
  deleteGraceSeconds : Int
  cacheTtlSeconds : Int
  dryRun : Bool
  deriving DecidableEq, Repr

structure PurgeReport where
  jobsHardDeleted : Nat
  jobFilesRemoved : Nat
  inputsPurged : Nat
  inputFilesRemoved : Nat
  comfyFilesRemoved : Nat
  deriving DecidableEq, Repr

def PurgeOpts.jobCutoff (o : PurgeOpts) : Int := o.nowSeconds - o.deleteGraceSeconds
def PurgeOpts.inputCutoff (o : PurgeOpts) : Int := o.nowSeconds - o.cacheTtlSeconds

/-- The files a stale job owns: what its row records, and the AVIF beside each
recorded rendition. -/
def files (j : StaleJob) : List DataPath :=
  [j.outputPath, j.thumbPath, j.previewPath].reduceOption ++
    ([j.thumbPath, j.previewPath].reduceOption).map avifSibling

inductive PurgePc where
  | selectStaleJobs (o : PurgeOpts)
  | removeFile (o : PurgeOpts) (r : PurgeReport) (j : StaleJob) (p : DataPath)
      (rest : List DataPath) (todo : List StaleJob)
  | deleteRow (o : PurgeOpts) (r : PurgeReport) (j : StaleJob) (todo : List StaleJob)
  | selectStaleInputs (o : PurgeOpts) (r : PurgeReport)
  | removeInput (r : PurgeReport) (id : Int) (p : DataPath) (todo : List (Int × DataPath))
  | clearPath (r : PurgeReport) (id : Int) (todo : List (Int × DataPath))
  | finished (r : Except String PurgeReport)

namespace PurgePc

/-- The next file of a stale job, or its row once no file is left. -/
def nextFile (o : PurgeOpts) (r : PurgeReport) (j : StaleJob) (todo : List StaleJob) :
    List DataPath → PurgePc
  | [] => .deleteRow o r j todo
  | p :: rest => .removeFile o r j p rest todo

/-- The loop over the stale jobs; a dry run only counts. -/
def nextJob (o : PurgeOpts) (r : PurgeReport) : List StaleJob → PurgePc
  | [] => .selectStaleInputs o r
  | j :: todo =>
    if o.dryRun then
      nextJob o { r with jobFilesRemoved := r.jobFilesRemoved + (files j).length,
                         jobsHardDeleted := r.jobsHardDeleted + 1 } todo
    else nextFile o r j todo (files j)

/-- The loop over the stale inputs. -/
def nextInput (r : PurgeReport) : List (Int × DataPath) → PurgePc
  | [] => .finished (.ok r)
  | (id, p) :: todo => .removeInput r id p todo

def dryInputs (r : PurgeReport) (todo : List (Int × DataPath)) : PurgeReport :=
  { r with inputFilesRemoved := r.inputFilesRemoved + todo.length,
           inputsPurged := r.inputsPurged + todo.length }

def next : PurgePc → Proc PurgePc
  | .selectStaleJobs o => some ⟨.sql (.selectStaleJobs o.jobCutoff), fun
    | .error e => .finished (.error e)
    | .ok todo => nextJob o ⟨0, 0, 0, 0, 0⟩ todo⟩
  | .removeFile o r j p rest todo => some ⟨.file (.removeFile p), fun
    | .removed => nextFile o { r with jobFilesRemoved := r.jobFilesRemoved + 1 } j todo rest
    | .notFound | .failed _ => nextFile o r j todo rest⟩
  | .deleteRow o r j todo => some ⟨.sql (.deleteJobRow j.id), fun
    | .error e => .finished (.error e)
    | .ok () => nextJob o { r with jobsHardDeleted := r.jobsHardDeleted + 1 } todo⟩
  | .selectStaleInputs o r => some ⟨.sql (.selectStaleInputs o.inputCutoff), fun
    | .error e => .finished (.error e)
    | .ok todo => if o.dryRun then .finished (.ok (dryInputs r todo)) else nextInput r todo⟩
  | .removeInput r id p todo => some ⟨.file (.removeFile p), fun
    | .removed => .clearPath { r with inputFilesRemoved := r.inputFilesRemoved + 1 } id todo
    | .notFound | .failed _ => .clearPath r id todo⟩
  | .clearPath r id todo => some ⟨.sql (.clearInputPath id), fun
    | .error e => .finished (.error e)
    | .ok () => nextInput { r with inputsPurged := r.inputsPurged + 1 } todo⟩
  | .finished _ => none

end PurgePc

end ZunServer.Purge
