import ZunServer.RenditionSources
import ZunServer.Serving

/-!
# Which rendition a request gets

What `serve_derived` chooses is about the job and the column it was asked for, in the
negotiated format or as a JPEG, and for a reason that held while it ran. With the file
it has chosen it goes through `serve_file_with_ct`, where it only reads; the client is an
observer that waits for the choice and then takes these looks. The bytes it gets have
been made of the image of that very job.
-/
namespace ZunServer.RenditionAnswers

open KeyedTable
open Schema Statements Database Comfy Calls Renditions Worker Handlers Server
open Rows RenditionSteps RowInvariant JobFiles RenditionFiles RenditionSources Provenance
open Serving (Look Reply ReaderPc serveFile afterMetadata etagFor lists)
open scoped List

/-- At some step the job was there, not deleted, and in a status like this. -/
def Seen (past : List (State × Act)) (id : String) (P : Status → Prop) : Prop :=
  ∃ x ∈ past, ∃ r, row? x.1 id = some r ∧ r.deletedAt = none ∧ P r.status

/-- What must have been so for this choice. -/
def Why (past : List (State × Act)) (id : String) : Response → Prop
  | .file _ _ => Seen past id (· = .done)
  | .error .notReady => Seen past id (· ≠ .done)
  | .error .notFound => ∃ x ∈ past, OnRow x.1 id fun r => r.deletedAt ≠ none
  | .error (.internal _) => True
  | _ => False

/-- The row was read when the job was done, and what it said about the rendition is right. -/
structure Known (past : List (State × Act)) (col : Column) (id : String) (fmt : DerivedFormat)
    (c : DerivedCtx) : Prop where
  column : c.col = col
  jobId : c.jobId = id
  format : c.format = fmt
  derived : ∀ rel, c.derived = some rel → rel = renditionOf col id .jpeg
  seen : Seen past id (· = .done)

/-- The request keeps to the rendition it was made for. -/
inductive Keeps (past : List (State × Act)) (col : Column) (id : String) (fmt : DerivedFormat) :
    DerivedPc → Prop
  | selectRow : Keeps past col id fmt (.selectRow ⟨col, id, fmt, none, none⟩)
  | statCached {c : DerivedCtx} (h : Known past col id fmt c) :
      Keeps past col id fmt (.statCached c (renditionOf col id fmt))
  | statAvif {c : DerivedCtx} (h : Known past col id .avif c) (hfmt : fmt = .avif) :
      Keeps past col id fmt (.statAvif c (renditionOf col id .avif))
  | existsJpeg {c : DerivedCtx} {out rel : DataPath} (h : Known past col id fmt c) :
      Keeps past col id fmt (.existsJpeg c out rel)
  | renderJpegFirst {c : DerivedCtx} {out : DataPath} (h : Known past col id fmt c) :
      Keeps past col id fmt (.renderJpegFirst c out (renditionOf col id .jpeg))
  | persistJpegFirst {c : DerivedCtx} {out : DataPath} (h : Known past col id fmt c) :
      Keeps past col id fmt (.persistJpegFirst c out (renditionOf col id .jpeg))
  | renderJpeg {c : DerivedCtx} {out : DataPath} (h : Known past col id fmt c) :
      Keeps past col id fmt (.renderJpeg c out (renditionOf col id .jpeg))
  | persistJpeg {c : DerivedCtx} (h : Known past col id fmt c) :
      Keeps past col id fmt (.persistJpeg c (renditionOf col id .jpeg))
  | renderAvif {c : DerivedCtx} {out : DataPath} (h : Known past col id .avif c)
      (hfmt : fmt = .avif) : Keeps past col id fmt (.renderAvif c out (renditionOf col id .avif))
  | statFallback {c : DerivedCtx} {e : String} (h : Known past col id fmt c) :
      Keeps past col id fmt (.statFallback c (renditionOf col id .jpeg) e)
  | file {f : DerivedFormat} (h : f = fmt ∨ f = .jpeg) (seen : Seen past id (· = .done)) :
      Keeps past col id fmt (.answered (.file (renditionOf col id f) f))
  | error {e : AppError} (h : Why past id (.error e)) :
      Keeps past col id fmt (.answered (.error e))

theorem Seen.grow {past : List (State × Act)} {id : String} {P : Status → Prop} (h : Seen past id P)
    (y : State × Act) : Seen (past ++ [y]) id P := by
  obtain ⟨x, hx, hrow⟩ := h
  exact ⟨x, List.mem_append_left _ hx, hrow⟩

theorem Why.grow {past : List (State × Act)} {id : String} {r : Response} (h : Why past id r)
    (y : State × Act) : Why (past ++ [y]) id r := by
  cases r with
  | file p f => exact Seen.grow (P := (· = .done)) h y
  | error e =>
    cases e with
    | notFound =>
      obtain ⟨x, hx, hrow⟩ := h
      exact ⟨x, List.mem_append_left _ hx, hrow⟩
    | notReady => exact Seen.grow (P := (· ≠ .done)) h y
    | internal => trivial
    | _ => cases h
  | _ => cases h

theorem Known.grow {past : List (State × Act)} {col : Column} {id : String} {fmt : DerivedFormat}
    {c : DerivedCtx} (h : Known past col id fmt c) (y : State × Act) :
    Known (past ++ [y]) col id fmt c :=
  { h with seen := h.seen.grow y }

theorem Keeps.grow {past : List (State × Act)} {col : Column} {id : String} {fmt : DerivedFormat}
    {pc : DerivedPc} (h : Keeps past col id fmt pc) (y : State × Act) :
    Keeps (past ++ [y]) col id fmt pc := by
  cases h with
  | selectRow => exact .selectRow
  | statCached h => exact .statCached (h.grow y)
  | statAvif h hfmt => exact .statAvif (h.grow y) hfmt
  | existsJpeg h => exact .existsJpeg (h.grow y)
  | renderJpegFirst h => exact .renderJpegFirst (h.grow y)
  | persistJpegFirst h => exact .persistJpegFirst (h.grow y)
  | renderJpeg h => exact .renderJpeg (h.grow y)
  | persistJpeg h => exact .persistJpeg (h.grow y)
  | renderAvif h hfmt => exact .renderAvif (h.grow y) hfmt
  | statFallback h => exact .statFallback (h.grow y)
  | file h seen => exact .file h (seen.grow y)
  | error h => exact .error (h.grow y)

section
variable {past : List (State × Act)} {col : Column} {id : String} {fmt : DerivedFormat}
  {c : DerivedCtx}

theorem keeps_fail (e : String) : Keeps past col id fmt (.fail e) := .error trivial

theorem keeps_ensure (h : Known past col id fmt c) (out : DataPath) :
    Keeps past col id fmt (.ensure c out) := by
  unfold DerivedPc.ensure
  split
  · exact keeps_fail _
  · rename_i dst hdst
    obtain rfl := renditionPath_ok hdst
    rw [h.column, h.jobId]
    split
    · rename_i hfmt
      rw [hfmt]
      exact .renderJpeg h
    · rename_i hfmt
      obtain rfl : fmt = .avif := h.format.symm.trans hfmt
      rw [hfmt]
      exact .renderAvif h rfl

theorem keeps_ensureJpegFirst (h : Known past col id fmt c) (out : DataPath) :
    Keeps past col id fmt (.ensureJpegFirst c out) := by
  unfold DerivedPc.ensureJpegFirst
  split
  · exact keeps_fail _
  · rename_i dst hdst
    obtain rfl := renditionPath_ok hdst
    rw [h.column, h.jobId]
    exact .renderJpegFirst h

theorem keeps_generate (h : Known past col id fmt c) : Keeps past col id fmt (.generate c) := by
  unfold DerivedPc.generate
  split
  · exact keeps_fail _
  · split
    · exact keeps_ensure h _
    · split
      · exact keeps_ensureJpegFirst h _
      · exact .existsJpeg h

theorem keeps_afterCached (h : Known past col id fmt c) :
    Keeps past col id fmt (.afterCached c) := by
  unfold DerivedPc.afterCached
  split
  · exact keeps_generate h
  · rename_i hfmt
    obtain rfl : fmt = .avif := h.format.symm.trans hfmt
    split
    · exact keeps_fail _
    · rename_i p hp
      obtain rfl := renditionPath_ok hp
      rw [h.column, h.jobId]
      exact .statAvif h rfl

end

/-- What the row of a job that is done says about a rendition. -/
theorem known_row {past : List (State × Act)} {s : State} {a : Act} (hfiled : Filed s)
    {col : Column} {id : String} {fmt : DerivedFormat} {r : JobRow} (hr : row? s id = some r)
    (hlive : r.deletedAt = none) (hdone : r.status = .done) :
    Known (past ++ [(s, a)]) col id fmt ⟨col, id, fmt, r.outputPath, col.get r⟩ where
  column := rfl
  jobId := rfl
  format := rfl
  derived rel hrel := by
    obtain ⟨hmem, rfl⟩ := row_mem hr
    cases col with
    | thumb => exact (hfiled.rows r hmem).thumb rel hrel
    | preview => exact (hfiled.rows r hmem).preview rel hrel
  seen := ⟨(s, a), by simp, r, hr, hlive, hdone⟩

theorem keeps_selected {past : List (State × Act)} {s : State} {a : Act} (hids : IdsOk s)
    (hfiled : Filed s) {w' : World} {φ : Fate} {col : Column} {id : String} {fmt : DerivedFormat}
    {pc : DerivedPc}
    (h : perform (DerivedPc.selectRow ⟨col, id, fmt, none, none⟩).next φ s.world = some (w', pc)) :
    Keeps (past ++ [(s, a)]) col id fmt pc := by
  obtain ⟨c, k, x, hc, hex, rfl⟩ := perform_eq_some.mp h
  cases hc
  rcases execSql_eq_some hex with ⟨db, y, -, hrun, rfl, rfl⟩ | ⟨rfl, e, rfl⟩
  · cases hrun
    cases hr : (s.world.db.jobs.find? id).filter (fun r => r.deletedAt = none) with
    | none =>
      refine .error ⟨(s, a), by simp, fun r hfind hlive => ?_⟩
      have hnone := Option.filter_eq_none_iff.mp hr r hfind
      exact hnone (decide_eq_true hlive)
    | some r =>
      obtain ⟨hfind, hlive⟩ := Option.filter_eq_some_iff.mp hr
      have hlive : r.deletedAt = none := of_decide_eq_true hlive
      simp only [Option.map_some]
      split
      · rename_i hne
        exact .error ⟨(s, a), by simp, r, hfind, hlive, hne⟩
      · rename_i hdone
        have hknown : Known (past ++ [(s, a)]) col id fmt ⟨col, id, fmt, r.outputPath, col.get r⟩ :=
          known_row hfiled hfind hlive (Classical.not_not.mp hdone)
        split
        · rename_i p hp
          obtain ⟨rel, hrel, rfl⟩ := Option.map_eq_some_iff.mp hp
          obtain rfl := hknown.derived rel hrel
          have hid : isUuid id := hids.uuid _ (hids.settled hfind).1
          cases fmt with
          | jpeg => exact .statCached hknown
          | avif =>
            dsimp only
            rw [avifSibling_rendition (toList_ne_nil hid)]
            exact .statCached hknown
        · exact keeps_afterCached hknown
  · exact keeps_fail e

/-- One call of the request. -/
theorem keeps_moved {past : List (State × Act)} {s : State} {a : Act} (hids : IdsOk s)
    (hfiled : Filed s) {w' : World} {φ : Fate} {col : Column} {id : String} {fmt : DerivedFormat}
    {pc pc' : DerivedPc} (h : perform pc.next φ s.world = some (w', pc'))
    (hpc : Keeps past col id fmt pc) : Keeps (past ++ [(s, a)]) col id fmt pc' := by
  have hgrow := hpc.grow (s, a)
  obtain ⟨q, k, x, hq, -, rfl⟩ := perform_eq_some.mp h
  cases hgrow with
  | selectRow => exact keeps_selected hids hfiled h
  | statCached hc =>
    cases hq
    cases x
    · exact keeps_afterCached hc
    · dsimp only
      rw [hc.format]
      exact .file (.inl rfl) hc.seen
  | statAvif hc hfmt =>
    subst hfmt
    cases hq
    cases x
    · exact keeps_generate hc
    · exact .file (.inl rfl) hc.seen
  | existsJpeg hc =>
    cases hq
    cases x
    · exact keeps_ensureJpegFirst hc _
    · exact keeps_ensure hc _
  | renderJpegFirst hc =>
    cases hq
    rcases x with e | ⟨⟩
    · exact keeps_fail e
    · exact .persistJpegFirst hc
  | @persistJpegFirst c out hc =>
    cases hq
    rcases x with e | n
    · exact keeps_fail e
    · have hrecorded : Known (past ++ [(s, a)]) col id fmt
          { c with derived := some (renditionOf col id .jpeg) } :=
        { hc with derived := fun rel hrel => (Option.some.inj hrel).symm }
      exact keeps_ensure hrecorded out
  | renderJpeg hc =>
    cases hq
    rcases x with e | ⟨⟩
    · exact keeps_fail e
    · exact .persistJpeg hc
  | persistJpeg hc =>
    cases hq
    rcases x with e | n
    · exact keeps_fail e
    · exact .file (.inr rfl) hc.seen
  | renderAvif hc hfmt =>
    subst hfmt
    cases hq
    rcases x with e | ⟨⟩
    · dsimp only
      split
      · exact keeps_fail e
      · rename_i rel hrel
        obtain rfl := hc.derived rel hrel
        exact .statFallback hc
    · exact .file (.inl rfl) hc.seen
  | statFallback hc =>
    cases hq
    cases x
    · exact keeps_fail _
    · exact .file (.inr rfl) hc.seen
  | file | error => cases hq

/-- The file that is chosen for a request, or its error. -/
def derivedAnswer (s : State) (i : Nat) : Option Response :=
  match s.tasks[i]? with
  | some (.derived (.answered r)) => some r
  | _ => none

theorem derivedAnswer_eq {s : State} {i : Nat} {r : Response} (h : derivedAnswer s i = some r) :
    s.tasks[i]? = some (.derived (.answered r)) := by
  unfold derivedAnswer at h
  split at h
  · rename_i hi
    rw [hi, Option.some.inj h]
  · cases h

/-- The `i`-th task is the request, or is gone. -/
structure Asking (past : List (State × Act)) (col : Column) (id : String) (fmt : DerivedFormat)
    (i : Nat) (s : State) : Prop where
  ids : IdsOk s
  filed : Filed s
  task : ∃ τ, s.tasks[i]? = some τ ∧ ∀ pc, τ = .derived pc → Keeps past col id fmt pc

theorem Asking.step {cfg : Config} {past : List (State × Act)} {col : Column} {id : String}
    {fmt : DerivedFormat} {i : Nat} {s t : State} {a : Act} (h : Asking past col id fmt i s)
    (hm : Moved cfg s t a) (hup : staysUp a = true) :
    Asking (past ++ [(s, a)]) col id fmt i t where
  ids := h.ids.step hm
  filed := h.filed.step hm
  task := by
    obtain ⟨τ, hi, hτ⟩ := h.task
    rcases hm.task_at hup hi with ⟨hi', -⟩ | ⟨φ, τ', rfl, hi', hp⟩ | ⟨-, hi', -⟩
    · exact ⟨τ, hi', fun pc hpc => (hτ pc hpc).grow _⟩
    · refine ⟨τ', hi', fun pc' hpc' => ?_⟩
      subst hpc'
      cases task_moved hp with
      | derived hp => exact keeps_moved h.ids h.filed hp (hτ _ rfl)
    · exact ⟨_, hi', fun pc hpc => by cases hpc⟩

theorem asking_arrive {cfg : Config} {col : Column} {id : String} {fmt : DerivedFormat}
    {s t : State} (hs : Reachable cfg s) (h : step cfg s (.arrive (.derived col id fmt)) = some t) :
    Asking [(s, .arrive (.derived col id fmt))] col id fmt s.tasks.length t where
  ids := (reachable_ids hs).step (step_moved h)
  filed := (reachable_filed hs).step (step_moved h)
  task := by
    obtain rfl := Option.some.inj h
    refine ⟨_, List.getElem?_concat_length, fun pc hpc => ?_⟩
    cases hpc
    exact .selectRow

def DerivedFormat.contentType : DerivedFormat → String
  | .jpeg => "image/jpeg"
  | .avif => "image/avif"

/-- `serve_negotiated_file`, at its start. -/
def serveNegotiatedFile (abs : DataPath) (format : DerivedFormat) : ReaderPc :=
  .metadata abs (DerivedFormat.contentType format)

inductive ClientPc where
  | choosing
  | serving (pc : ReaderPc)
  deriving DecidableEq, Repr

/-- A request, with the number of the task that chooses for it. -/
structure Client where
  task : Nat
  ifNoneMatch : Option String
  pc : ClientPc
  deriving DecidableEq, Repr

abbrev Ask := Nat × Option String

def Client.start (q : Ask) : Client := ⟨q.1, q.2, .choosing⟩

def chosen : Response → Option ReaderPc
  | .file p format => some (serveNegotiatedFile p format)
  | .error e => some (Serving.fail e)
  | _ => none

def look (s : State) (f : Look) (x : Client) : Option Client :=
  match x.pc, f with
  | .choosing, .ok => ((derivedAnswer s x.task).bind chosen).map fun pc =>
      { x with pc := .serving pc }
  | .serving pc, f => (serveFile s.world.files x.ifNoneMatch pc f).map fun pc =>
      { x with pc := .serving pc }
  | _, _ => none

abbrev CAct := Observers.Act Act Look Ask

/-- The server with the clients of its renditions. -/
abbrev clients (cfg : Config) : List CAct → State × List Client → Option (State × List Client) :=
  Observers.run (step cfg) Client.start look

/-- These bytes came out when the rendition was made of the image of the job. -/
def Made (past : List (State × Act)) (id : String) (p : DataPath) (b : Bytes) : Prop :=
  ∃ x ∈ past, ∃ out a, rendered x = some (id, out, p, b) ∧
    x.1.world.files out = some (Attempt.result a) ∧
    ∃ job : QueuedJob, job.id = id ∧ a.events job <:+: trail past

/-- What the client is told, by what the server has done in its life (`before`, and `past` since the
request arrived). -/
inductive Told (before past : List (State × Act)) (col : Column) (id : String)
    (fmt : DerivedFormat) (tag : Option String) : Reply → Prop
  | file {f : DerivedFormat} {b body : Bytes} {etag : Option String} (hf : f = fmt ∨ f = .jpeg)
      (seen : Seen past id (· = .done)) (made : Made (before ++ past) id (renditionOf col id f) body)
      (measured : Made (before ++ past) id (renditionOf col id f) b)
      (tagged : ∀ e ∈ etag, ∃ m, e = etagFor b.length m) : Told before past col id fmt tag
        (.file (DerivedFormat.contentType f) b.length etag body)
  | notModified {f : DerivedFormat} {b : Bytes} {m : Nat} {h : String} (hf : f = fmt ∨ f = .jpeg)
      (seen : Seen past id (· = .done)) (measured : Made (before ++ past) id (renditionOf col id f) b)
      (hh : h ∈ tag) (listed : lists h (etagFor b.length m) = true) :
      Told before past col id fmt tag (.notModified (etagFor b.length m))
  | notReady (seen : Seen past id (· ≠ .done)) : Told before past col id fmt tag (.error .notReady)
  | notFound : Told before past col id fmt tag (.error .notFound)
  | internal (e : String) : Told before past col id fmt tag (.error (.internal e))

/-- The request goes on with the file that was chosen for it. -/
inductive Kept (before past : List (State × Act)) (col : Column) (id : String)
    (fmt : DerivedFormat) (tag : Option String) : ClientPc → Prop
  | choosing : Kept before past col id fmt tag .choosing
  | metadata {f : DerivedFormat} (hf : f = fmt ∨ f = .jpeg) (seen : Seen past id (· = .done)) :
      Kept before past col id fmt tag (.serving (serveNegotiatedFile (renditionOf col id f) f))
  | openFile {f : DerivedFormat} {b : Bytes} {etag : Option String} (hf : f = fmt ∨ f = .jpeg)
      (seen : Seen past id (· = .done)) (measured : Made (before ++ past) id (renditionOf col id f) b)
      (tagged : ∀ e ∈ etag, ∃ m, e = etagFor b.length m) : Kept before past col id fmt tag
        (.serving (.openFile (renditionOf col id f) (DerivedFormat.contentType f) b.length etag))
  | answered {r : Reply} (h : Told before past col id fmt tag r) :
      Kept before past col id fmt tag (.serving (.answered r))

theorem Made.grow {before past : List (State × Act)} {id : String} {p : DataPath} {b : Bytes}
    (h : Made (before ++ past) id p b) (y : State × Act) : Made (before ++ (past ++ [y])) id p b := by
  obtain ⟨x, hx, out, a, hrendered, hfile, job, hid, hevents⟩ := h
  rw [← List.append_assoc]
  exact ⟨x, List.mem_append_left _ hx, out, a, hrendered, hfile, job, hid, trail_mono hevents y⟩

section
variable {before past : List (State × Act)} {col : Column} {id : String} {fmt : DerivedFormat}
  {tag : Option String}

theorem Told.grow {r : Reply} (h : Told before past col id fmt tag r) (y : State × Act) :
    Told before (past ++ [y]) col id fmt tag r := by
  cases h with
  | file hf seen made measured tagged =>
    exact .file hf (seen.grow y) (made.grow y) (measured.grow y) tagged
  | notModified hf seen measured hh listed =>
    exact .notModified hf (seen.grow y) (measured.grow y) hh listed
  | notReady seen => exact .notReady (seen.grow y)
  | notFound => exact .notFound
  | internal e => exact .internal e

theorem Kept.grow {pc : ClientPc} (h : Kept before past col id fmt tag pc) (y : State × Act) :
    Kept before (past ++ [y]) col id fmt tag pc := by
  cases h with
  | choosing => exact .choosing
  | metadata hf seen => exact .metadata hf (seen.grow y)
  | openFile hf seen measured tagged => exact .openFile hf (seen.grow y) (measured.grow y) tagged
  | answered h => exact .answered (h.grow y)

end

/-- What is read of a rendition was made of the image of the job. -/
theorem drawn_made {cfg : Config} {past : List (State × Act)} {s : State} (h : Drawn cfg past s)
    {col : Column} {id : String} {fmt : DerivedFormat} {b : Bytes} (hid : isUuid id)
    (hb : s.world.files (renditionOf col id fmt) = some b) :
    Made past id (renditionOf col id fmt) b := by
  obtain ⟨x, hx, out, a, hrendered, hfile, hres⟩ := h.files col id fmt b hid hb
  exact ⟨x, hx, out, a, hrendered, hfile, hres.events⟩

theorem chosen_keeps {past : List (State × Act)} {col : Column} {id : String} {fmt : DerivedFormat}
    {i : Nat} {s : State} (h : Asking past col id fmt i s) {r : Response}
    (hr : derivedAnswer s i = some r) : Keeps past col id fmt (.answered r) := by
  obtain ⟨τ, hi, hτ⟩ := h.task
  obtain rfl := Option.some.inj (hi.symm.trans (derivedAnswer_eq hr))
  exact hτ _ rfl

/-- The choice that the client picks up. -/
theorem kept_chosen {before past : List (State × Act)} {col : Column} {id : String}
    {fmt : DerivedFormat} {tag : Option String} {i : Nat} {s : State}
    (h : Asking past col id fmt i s) {r : Response} (hr : derivedAnswer s i = some r) {pc : ReaderPc}
    (hpc : chosen r = some pc) : Kept before past col id fmt tag (.serving pc) := by
  cases chosen_keeps h hr with
  | file hf hseen =>
    obtain rfl := Option.some.inj hpc
    exact .metadata hf hseen
  | @error e hwhy =>
    obtain rfl := Option.some.inj hpc
    refine .answered ?_
    cases e with
    | notFound => exact .notFound
    | notReady => exact .notReady hwhy
    | internal e => exact .internal e
    | _ => cases hwhy

/-- What a look does. -/
inductive ClientStep (s : State) (x : Client) (f : Look) : ClientPc → Prop
  | chosen {r : Response} {pc : ReaderPc} (hpc : x.pc = .choosing)
      (hr : derivedAnswer s x.task = some r) (h : chosen r = some pc) : ClientStep s x f (.serving pc)
  | file {pc pc' : ReaderPc} (hpc : x.pc = .serving pc)
      (h : Serving.FileStep s.world.files x.ifNoneMatch pc f pc') : ClientStep s x f (.serving pc')

theorem client_step {s : State} {f : Look} {x x' : Client} (h : look s f x = some x') :
    ∃ pc, x' = { x with pc := pc } ∧ ClientStep s x f pc := by
  obtain ⟨task, tag, pc⟩ := x
  cases pc with
  | choosing =>
    cases f with
    | ok =>
      obtain ⟨pc, hpc, rfl⟩ := Option.map_eq_some_iff.mp h
      obtain ⟨r, hr, hpc⟩ := Option.bind_eq_some_iff.mp hpc
      exact ⟨_, rfl, .chosen rfl hr hpc⟩
    | _ => cases h
  | serving pc =>
    obtain ⟨pc', hpc, rfl⟩ := Option.map_eq_some_iff.mp h
    exact ⟨_, rfl, .file rfl (Serving.file_step hpc)⟩

/-- One look of the client. -/
theorem kept_look {cfg : Config} {before past : List (State × Act)} {col : Column} {id : String}
    {fmt : DerivedFormat} {i : Nat} {s : State} (hask : Asking past col id fmt i s)
    (hdrawn : Drawn cfg (before ++ past) s) (huuid : ∀ P, Seen past id P → isUuid id) {f : Look}
    {x : Client} (hi : x.task = i) {pc : ClientPc} (hstep : ClientStep s x f pc)
    (hx : Kept before past col id fmt x.ifNoneMatch x.pc) :
    Kept before past col id fmt x.ifNoneMatch pc := by
  cases hstep with
  | chosen _ hr hpc => exact kept_chosen hask (hi ▸ hr) hpc
  | file hpc hfile =>
    rw [hpc] at hx
    cases hfile with
    | gone => exact .answered .notFound
    | found m hb =>
      cases hx with
      | metadata hf hseen =>
        have hmade := drawn_made hdrawn (huuid _ hseen) hb
        rcases Serving.afterMetadata_cases x.ifNoneMatch _ _ _ _ with
          ⟨e, he, h, hh, hlist, hpc⟩ | hpc
        · rw [hpc]
          obtain ⟨m', rfl⟩ := Serving.etag_tagged e he
          exact .answered (.notModified hf hseen hmade hh hlist)
        · rw [hpc]
          exact .openFile hf hseen hmade Serving.etag_tagged
    | opened hb =>
      cases hx with
      | openFile hf hseen hmeasured htagged =>
        exact .answered (.file hf hseen (drawn_made hdrawn (huuid _ hseen) hb) hmeasured htagged)

/-- What stands of the request, while the server takes these steps and its client looks on. -/
structure Watching (cfg : Config) (before : List (State × Act)) (col : Column) (id : String)
    (fmt : DerivedFormat) (tag : Option String) (i : Nat) (past : List (State × Act)) (s : State)
    (pool : List Client) : Prop where
  asking : Asking past col id fmt i s
  drawn : Drawn cfg (before ++ past) s
  uuid : ∀ P, Seen past id P → isUuid id
  client : ∃ x, pool[0]? = some x ∧ x.task = i ∧ x.ifNoneMatch = tag ∧
    Kept before past col id fmt tag x.pc

section
variable {cfg : Config} {before past : List (State × Act)} {col : Column} {id : String}
  {fmt : DerivedFormat} {tag : Option String} {i : Nat} {s : State} {pool : List Client}

theorem Watching.system (h : Watching cfg before col id fmt tag i past s pool) {t : State} {a : Act}
    (hm : Moved cfg s t a) (hup : staysUp a = true) :
    Watching cfg before col id fmt tag i (past ++ [(s, a)]) t pool where
  asking := h.asking.step hm hup
  drawn := by
    rw [← List.append_assoc]
    exact h.drawn.step hm
  uuid P hseen := by
    obtain ⟨x, hx, r, hr, hlive, hP⟩ := hseen
    rcases List.mem_append.mp hx with hx | hx
    · exact h.uuid P ⟨x, hx, r, hr, hlive, hP⟩
    · obtain rfl := List.mem_singleton.mp hx
      exact h.asking.ids.uuid _ (h.asking.ids.settled hr).1
  client := by
    obtain ⟨x, hx, hi, htag, hkept⟩ := h.client
    exact ⟨x, hx, hi, htag, hkept.grow _⟩

theorem Watching.arrive (h : Watching cfg before col id fmt tag i past s pool) (q : Ask) :
    Watching cfg before col id fmt tag i past s (pool ++ [Client.start q]) :=
  { h with
    client := by
      obtain ⟨x, hx, hrest⟩ := h.client
      obtain ⟨hlt, -⟩ := List.getElem?_eq_some_iff.mp hx
      exact ⟨x, (List.getElem?_append_left hlt).trans hx, hrest⟩ }

theorem Watching.look (h : Watching cfg before col id fmt tag i past s pool) {j : Nat} {f : Look}
    {x x' : Client} (hx : pool[j]? = some x) (hlook : RenditionAnswers.look s f x = some x') :
    Watching cfg before col id fmt tag i past s (pool.set j x') :=
  { h with
    client := by
      obtain ⟨y, hy, hi, htag, hkept⟩ := h.client
      by_cases hj : j = 0
      · subst hj
        obtain rfl := Option.some.inj (hy.symm.trans hx)
        obtain ⟨hlt, -⟩ := List.getElem?_eq_some_iff.mp hx
        obtain ⟨pc, rfl, hstep⟩ := client_step hlook
        refine ⟨_, List.getElem?_set_self hlt, hi, htag, ?_⟩
        subst htag
        exact kept_look h.asking h.drawn h.uuid hi hstep hkept
      · exact ⟨y, (List.getElem?_set_ne hj).trans hy, hi, htag, hkept⟩ }

/-- A client is told that there is nothing for it when that was chosen, or when its file was
not there to be read. -/
theorem Watching.notFound (h : Watching cfg before col id fmt tag i past s pool) {f : Look}
    {x x' : Client} (hx : pool[0]? = some x) (hlook : RenditionAnswers.look s f x = some x')
    (hpc : x.pc ≠ .serving (Serving.fail .notFound))
    (hafter : x'.pc = .serving (Serving.fail .notFound)) :
    (∃ y ∈ past, OnRow y.1 id fun r => r.deletedAt ≠ none) ∨
    Seen past id (· = .done) ∧ ∃ g pc, (g = fmt ∨ g = .jpeg) ∧ x.pc = .serving pc ∧
      Serving.opening pc = some (renditionOf col id g) ∧
      (s.world.files (renditionOf col id g) = none ∨ f = .ioFails) := by
  obtain ⟨y, hy, rfl, rfl, hkept⟩ := h.client
  obtain rfl := Option.some.inj (hy.symm.trans hx)
  obtain ⟨pc, rfl, hstep⟩ := client_step hlook
  cases hstep with
  | @chosen r pc _ hr hchosen =>
    cases chosen_keeps h.asking hr with
    | file =>
      obtain rfl := Option.some.inj hchosen
      cases hafter
    | error hwhy =>
      obtain rfl := Option.some.inj hchosen
      cases hafter
      exact .inl hwhy
  | file hserving hfile =>
    rw [hserving] at hkept
    cases hfile with
    | gone hopening hgone =>
      cases hkept with
      | @metadata g hg hseen =>
        obtain rfl := Option.some.inj hopening
        exact .inr ⟨hseen, g, _, hg, hserving, rfl, hgone⟩
      | @openFile g b etag hg hseen hmeasured htagged =>
        obtain rfl := Option.some.inj hopening
        exact .inr ⟨hseen, g, _, hg, hserving, rfl, hgone⟩
      | answered => cases hopening
    | found m hb =>
      have hpc := ClientPc.serving.inj hafter
      exact absurd hpc (Serving.afterMetadata_ne_fail y.ifNoneMatch _ _ _ _ _)
    | opened hb => cases hafter

end

/-- At a look of the first client its rendition was not there, or could not be read. -/
def Lost (cfg : Config) (as : List CAct) (s : State) (col : Column) (id : String)
    (fmt : DerivedFormat) : Prop :=
  ∃ pre f post u pool x g pc, as = pre ++ .look 0 f :: post ∧
    clients cfg pre (s, []) = some (u, pool) ∧ pool[0]? = some x ∧ (g = fmt ∨ g = .jpeg) ∧
    x.pc = .serving pc ∧ Serving.opening pc = some (renditionOf col id g) ∧
    (u.world.files (renditionOf col id g) = none ∨ f = .ioFails)

/-- A request for a rendition, and what goes on after it has arrived. -/
def request (s : State) (col : Column) (id : String) (fmt : DerivedFormat) (tag : Option String)
    (bs : List CAct) : List CAct :=
  .system (.arrive (.derived col id fmt)) :: .arrive (s.tasks.length, tag) :: bs

theorem run_watching {cfg : Config} {as : List Act} {s : State}
    (h₀ : run cfg as State.init = some s) {col : Column} {id : String} {fmt : DerivedFormat}
    {tag : Option String} {bs : List CAct} {t : State} {pool : List Client}
    (h : clients cfg (request s col id fmt tag bs) (s, []) = some (t, pool))
    (hup : ∀ a ∈ Observers.acts bs, staysUp a = true) :
    Watching cfg (Runs.visits (step cfg) as State.init) col id fmt tag s.tasks.length
      (Runs.visits (step cfg) (.arrive (.derived col id fmt) :: Observers.acts bs) s) t pool := by
  obtain ⟨x, harrive, hrun⟩ := Runs.run_cons_some.mp h
  obtain ⟨m, hm, rfl⟩ := Option.map_eq_some_iff.mp (show (step cfg s
    (.arrive (.derived col id fmt))).map (fun m => (m, ([] : List Client))) = some x from harrive)
  obtain ⟨y, hclient, hrun⟩ := Runs.run_cons_some.mp hrun
  obtain rfl := Option.some.inj hclient
  have hstart : Watching cfg (Runs.visits (step cfg) as State.init) col id fmt tag s.tasks.length
      [(s, .arrive (.derived col id fmt))] m [Client.start (s.tasks.length, tag)] := by
    refine ⟨asking_arrive ⟨as, h₀⟩ hm, (run_drawn h₀).step (step_moved hm), fun P hseen => ?_,
      ⟨_, rfl, rfl, rfl, .choosing⟩⟩
    obtain ⟨x, hx, r, hr, -⟩ := hseen
    obtain rfl := List.mem_singleton.mp hx
    have hids : IdsOk s := reachable_ids ⟨as, h₀⟩
    exact hids.uuid _ (hids.settled hr).1
  have hend := Observers.history_invariant_of_forall
    (J := Watching cfg (Runs.visits (step cfg) as State.init) col id fmt tag s.tasks.length)
    (fun past u a v pool hu ha hs => hu.system (step_moved hs) ha)
    (fun past u pool q hu => hu.arrive q)
    (fun past u pool j f x x' hu hx hlook => hu.look hx hlook) hup hrun hstart
  simpa [Runs.visits, hm] using hend

/-- A look of the first client comes after it has arrived. -/
theorem request_split {s : State} {col : Column} {id : String} {fmt : DerivedFormat}
    {tag : Option String} {bs pre post : List CAct} {f : Look}
    (has : request s col id fmt tag bs = pre ++ .look 0 f :: post) :
    ∃ pre', pre = request s col id fmt tag pre' ∧ bs = pre' ++ .look 0 f :: post := by
  unfold request at has
  cases pre with
  | nil => cases has
  | cons a pre =>
    obtain ⟨ha, has⟩ := List.cons.inj has
    cases pre with
    | nil => cases has
    | cons b pre =>
      obtain ⟨hb, hbs⟩ := List.cons.inj has
      exact ⟨pre, by rw [← ha, ← hb]; rfl, hbs⟩

/-- In every run: a client that asks for a rendition, and is answered while the server stays up,
is told by what has been so since it arrived. It gets bytes only if its job was there,
not deleted and done; they came out when the rendition of this job, in the format that
was negotiated or as a JPEG, was made of the image of this very job. It is told that it
has them already only on its own tag, of such bytes; that they are not ready only if
the job was there and not done; and that they are not found only if the job was
deleted or not there, or if the rendition was not there at one of its own looks. -/
theorem renditions_answered {cfg : Config} {as : List Act} {s : State}
    (h₀ : run cfg as State.init = some s) {col : Column} {id : String} {fmt : DerivedFormat}
    {tag : Option String} {bs : List CAct} {t : State} {pool : List Client}
    (h : clients cfg (request s col id fmt tag bs) (s, []) = some (t, pool))
    (hup : ∀ a ∈ Observers.acts bs, staysUp a = true) {x : Client} (hx : pool[0]? = some x)
    {r : Reply} (hr : x.pc = .serving (.answered r)) :
    let past := Runs.visits (step cfg) (.arrive (.derived col id fmt) :: Observers.acts bs) s
    Told (Runs.visits (step cfg) as State.init) past col id fmt tag r ∧
    (r = .error .notFound → (∃ y ∈ past, OnRow y.1 id fun q => q.deletedAt ≠ none) ∨
      Seen past id (· = .done) ∧ Lost cfg (request s col id fmt tag bs) s col id fmt) := by
  intro past
  constructor
  · obtain ⟨y, hy, -, -, hkept⟩ := (run_watching h₀ h hup).client
    obtain rfl := Option.some.inj (hy.symm.trans hx)
    rw [hr] at hkept
    cases hkept with
    | answered htold => exact htold
  · rintro rfl
    obtain ⟨pre, f, post, u, pool₀, y, has, hpre, hy, hpc, y', hlook, hafter⟩ :=
      Observers.turned (P := fun x : Client => x.pc = .serving (Serving.fail .notFound))
        (fun _ hp => by cases hp) h hx hr
    obtain ⟨pre, rfl, rfl⟩ := request_split has
    have hup' : ∀ a ∈ Observers.acts pre, staysUp a = true := by
      intro a ha
      refine hup a ?_
      rw [Observers.acts_append]
      exact List.mem_append_left _ ha
    have hpast : past = Runs.visits (step cfg) (.arrive (.derived col id fmt) ::
        Observers.acts pre) s ++ Runs.visits (step cfg) (Observers.acts (.look 0 f :: post)) u := by
      calc past = Runs.visits (step cfg) (Observers.acts (request s col id fmt tag pre ++
              .look 0 f :: post)) s := by rw [← has]; rfl
        _ = Runs.visits (step cfg) (Observers.acts (request s col id fmt tag pre) ++
              Observers.acts (.look 0 f :: post)) s := by rw [Observers.acts_append]
        _ = _ := Runs.visits_append (Observers.run_acts hpre) _
    rw [hpast]
    rcases (run_watching h₀ hpre hup').notFound hy hlook hpc hafter with
      ⟨z, hz, hrow⟩ | ⟨⟨z, hz, hrow⟩, g, pc, hg, hserving, hopening, hgone⟩
    · exact .inl ⟨z, List.mem_append_left _ hz, hrow⟩
    · exact .inr ⟨⟨z, List.mem_append_left _ hz, hrow⟩, _, f, post, u, pool₀, y, g, pc, rfl, hpre, hy,
        hg, hserving, hopening, hgone⟩

/-- A client that takes AVIF asks for the thumbnail. -/
def readAvif : List CAct :=
  [.system (.task 2 .ok), .system (.task 2 .ok), .look 0 .ok, .look 0 (.mtime (some 5)), .look 0 .ok]

theorem renditions_answered_sample : ∃ s t pool,
    run sampleConfig renderedRun State.init = some s ∧
    clients sampleConfig (request s .thumb jobA .avif none readAvif) (s, []) = some (t, pool) ∧
    pool.map Client.pc = [.serving (.answered (.file "image/avif" 1 (some "\"1-5\"") [5]))] ∧
    Told (Runs.visits (step sampleConfig) renderedRun State.init)
      (Runs.visits (step sampleConfig)
        [.arrive (.derived .thumb jobA .avif), .task 2 .ok, .task 2 .ok] s) .thumb jobA .avif none
      (.file "image/avif" 1 (some "\"1-5\"") [5]) := by
  have hrun : (run sampleConfig renderedRun State.init).bind (fun s =>
      (clients sampleConfig (request s .thumb jobA .avif none readAvif) (s, [])).map Prod.snd) =
      some [⟨2, none, .serving (.answered (.file "image/avif" 1 (some "\"1-5\"") [5]))⟩] := by
    simp only [renderedRun, doneRun, List.append_assoc, run_first]
    decide +kernel
  obtain ⟨s, hs, h⟩ := Option.bind_eq_some_iff.mp hrun
  obtain ⟨⟨t, pool⟩, ht, hpool⟩ := Option.map_eq_some_iff.mp h
  obtain rfl : pool = _ := hpool
  obtain ⟨htold, -⟩ := renditions_answered hs ht (by decide) rfl rfl
  exact ⟨s, t, _, hs, ht, rfl, htold⟩

end ZunServer.RenditionAnswers
