import ZunServer.Observers
import ZunServer.Provenance

/-!
# Serving files

`images::get_result`, `inputs::get_input` and `inputs::get_input_file`. Each reads a row
and then, for a file, its metadata and its bytes, with anything in between; none of
them writes. They are observers of the server. An observer here outlives a crash
of the process, which a client never sees.
-/
namespace ZunServer.Serving

open KeyedTable
open Schema Statements Database Comfy Calls Worker Handlers Server Rows
open RowInvariant JobFiles FirstUpload ContentAddressed Provenance

/-- `images::etag_for`, of the length and the modification time in nanoseconds. -/
def etagFor (len mtime : Nat) : String :=
  "\"" ++ toString len ++ "-" ++ toString mtime ++ "\""

/-- `str::trim`. -/
def trim (s : List Char) : List Char :=
  ((s.dropWhile Redact.isWhitespace).reverse.dropWhile Redact.isWhitespace).reverse

/-- One of the values of `If-None-Match` is the tag. -/
def lists (ifNoneMatch etag : String) : Bool :=
  (ifNoneMatch.toList.splitOn ',').any fun v => trim v = etag.toList

/-- `images::content_type_for`. -/
def contentTypeFor (rel : DataPath) : String :=
  match (extension rel.filename.toList).map fun ext => String.ofList (ext.map Char.toLower) with
  | some "jpg" | some "jpeg" => "image/jpeg"
  | some "png" => "image/png"
  | _ => "application/octet-stream"

/-- `inputs::safe_content_type`. -/
def safeContentType : Option String → String
  | some "image/jpeg" => "image/jpeg"
  | some "image/png" => "image/png"
  | _ => "application/octet-stream"

/-- The body of `get_input`. -/
structure InputView where
  id : Int
  sha256 : String
  available : Bool
  originalName : Option String
  contentType : Option String
  sizeBytes : Option Int
  width : Option Int
  height : Option Int
  createdAt : Int
  lastUsedAt : Int
  deriving DecidableEq, Repr

def InputView.of (row : InputRow) : InputView where
  id := row.id
  sha256 := row.sha256
  available := row.path.isSome
  originalName := row.originalName
  contentType := row.contentType
  sizeBytes := row.sizeBytes
  width := row.width
  height := row.height
  createdAt := row.createdAt
  lastUsedAt := row.lastUsedAt

inductive Reply where
  | input (v : InputView)
  | notModified (etag : String)
  | file (contentType : String) (len : Nat) (etag : Option String) (body : Bytes)
  | error (e : AppError)
  deriving DecidableEq, Repr

inductive Target where
  | result (jobId : String)
  | input (id : Int)
  | inputFile (id : Int)
  deriving DecidableEq, Repr

/-- A request is about to read its row, is in `serve_file_with_ct`, or is answered. -/
inductive ReaderPc where
  | selectRow
  | metadata (abs : DataPath) (contentType : String)
  | openFile (abs : DataPath) (contentType : String) (len : Nat) (etag : Option String)
  | answered (r : Reply)
  deriving DecidableEq, Repr

structure Reader where
  target : Target
  ifNoneMatch : Option String
  pc : ReaderPc
  deriving DecidableEq, Repr

/-- A request that arrives: what it asks for, and its `If-None-Match`. -/
abbrev Ask := Target × Option String

def Reader.start (q : Ask) : Reader := ⟨q.1, q.2, .selectRow⟩

/-- What the world answers to a look; `mtime` is absent when the file system keeps none. -/
inductive Look where
  | ok
  | sqlFails (e : String)
  | ioFails
  | mtime (m : Option Nat)
  deriving DecidableEq, Repr

def fail (e : AppError) : ReaderPc := .answered (.error e)

def selectRow (w : World) : Target → ReaderPc
  | .result jobId => match (w.db.jobs.find? jobId).filter fun r => r.deletedAt = none with
    | none => fail .notFound
    | some row =>
      if row.status ≠ .done then fail .notReady
      else match row.outputPath with
        | none => fail .notReady
        | some rel => .metadata rel (contentTypeFor rel)
  | .input id => match w.db.inputs.find? id with
    | none => fail .notFound
    | some row => .answered (.input (.of row))
  | .inputFile id => match w.db.inputs.find? id with
    | none => fail .notFound
    | some row => match row.path with
      | none => fail .notFound
      | some path => .metadata path (safeContentType row.contentType)

/-- `serve_file_with_ct` up to the answer that needs no bytes. -/
def afterMetadata (ifNoneMatch : Option String) (abs : DataPath) (ct : String) (len : Nat)
    (etag : Option String) : ReaderPc :=
  match etag, ifNoneMatch with
  | some e, some s => if lists s e then .answered (.notModified e) else .openFile abs ct len etag
  | _, _ => .openFile abs ct len etag

/-- `serve_file_with_ct`, one look at the files. One that has been opened keeps its bytes for the
reader. -/
def serveFile (files : Files) (ifNoneMatch : Option String) : ReaderPc → Look → Option ReaderPc
  | .metadata abs ct, .mtime m => match files abs with
    | none => some (fail .notFound)
    | some b => some (afterMetadata ifNoneMatch abs ct b.length (m.map (etagFor b.length)))
  | .metadata _ _, .ioFails => some (fail .notFound)
  | .openFile abs ct len etag, .ok => match files abs with
    | none => some (fail .notFound)
    | some b => some (.answered (.file ct len etag b))
  | .openFile _ _ _ _, .ioFails => some (fail .notFound)
  | _, _ => none

/-- One look at the world. -/
def look (s : State) (f : Look) (x : Reader) : Option Reader :=
  match x.pc, f with
  | .selectRow, .ok => some { x with pc := selectRow s.world x.target }
  | .selectRow, .sqlFails e => some { x with pc := fail (.internal e) }
  | pc, f => (serveFile s.world.files x.ifNoneMatch pc f).map fun pc => { x with pc := pc }

/-- The file that a request is about to look at. -/
def opening : ReaderPc → Option DataPath
  | .metadata abs _ | .openFile abs _ _ _ => some abs
  | _ => none

/-- What a look of `serve_file_with_ct` does. -/
inductive FileStep (files : Files) (ifNoneMatch : Option String) : ReaderPc → Look → ReaderPc → Prop
  | gone {pc : ReaderPc} {f : Look} {abs : DataPath} (hpc : opening pc = some abs)
      (h : files abs = none ∨ f = .ioFails) : FileStep files ifNoneMatch pc f (fail .notFound)
  | found {abs : DataPath} {ct : String} {b : Bytes} (m : Option Nat) (hb : files abs = some b) :
      FileStep files ifNoneMatch (.metadata abs ct) (.mtime m)
        (afterMetadata ifNoneMatch abs ct b.length (m.map (etagFor b.length)))
  | opened {abs : DataPath} {ct : String} {len : Nat} {etag : Option String} {b : Bytes}
      (hb : files abs = some b) : FileStep files ifNoneMatch (.openFile abs ct len etag) .ok
        (.answered (.file ct len etag b))

theorem file_step {files : Files} {ifNoneMatch : Option String} {pc pc' : ReaderPc} {f : Look}
    (h : serveFile files ifNoneMatch pc f = some pc') : FileStep files ifNoneMatch pc f pc' := by
  cases pc with
  | metadata abs ct =>
    cases f with
    | mtime m =>
      simp only [serveFile] at h
      cases hb : files abs with
      | none =>
        rw [hb] at h
        obtain rfl := Option.some.inj h
        exact .gone rfl (.inl hb)
      | some b =>
        rw [hb] at h
        obtain rfl := Option.some.inj h
        exact .found m hb
    | ioFails =>
      obtain rfl := Option.some.inj h
      exact .gone rfl (.inr rfl)
    | _ => cases h
  | openFile abs ct len etag =>
    cases f with
    | ok =>
      simp only [serveFile] at h
      cases hb : files abs with
      | none =>
        rw [hb] at h
        obtain rfl := Option.some.inj h
        exact .gone rfl (.inl hb)
      | some b =>
        rw [hb] at h
        obtain rfl := Option.some.inj h
        exact .opened hb
    | ioFails =>
      obtain rfl := Option.some.inj h
      exact .gone rfl (.inr rfl)
    | _ => cases h
  | _ => cases h

/-- The client has the file, or is going to get it. -/
theorem afterMetadata_cases (ifNoneMatch : Option String) (abs : DataPath) (ct : String) (len : Nat)
    (etag : Option String) :
    (∃ e ∈ etag, ∃ s ∈ ifNoneMatch, lists s e = true ∧
      afterMetadata ifNoneMatch abs ct len etag = .answered (.notModified e)) ∨
    afterMetadata ifNoneMatch abs ct len etag = .openFile abs ct len etag := by
  unfold afterMetadata
  split
  · split
    · rename_i hlist
      exact .inl ⟨_, rfl, _, rfl, hlist, rfl⟩
    · exact .inr rfl
  · exact .inr rfl

/-- Metadata lead to an error only where they cannot be had. -/
theorem afterMetadata_ne_fail (ifNoneMatch : Option String) (abs : DataPath) (ct : String) (len : Nat)
    (etag : Option String) (e : AppError) : afterMetadata ifNoneMatch abs ct len etag ≠ fail e := by
  rcases afterMetadata_cases ifNoneMatch abs ct len etag with ⟨_, -, _, -, -, h⟩ | h <;>
    (rw [h]; exact nofun)

theorem etag_tagged {len : Nat} {m : Option Nat} :
    ∀ e ∈ m.map (etagFor len), ∃ m, e = etagFor len m := by
  intro e he
  obtain ⟨m', -, rfl⟩ := Option.map_eq_some_iff.mp he
  exact ⟨m', rfl⟩

/-- What a look does. -/
inductive LookStep (s : State) (x : Reader) (f : Look) : ReaderPc → Prop
  | row (hpc : x.pc = .selectRow) : LookStep s x f (selectRow s.world x.target)
  | failed (hpc : x.pc = .selectRow) (e : String) : LookStep s x f (fail (.internal e))
  | file {pc : ReaderPc} (h : FileStep s.world.files x.ifNoneMatch x.pc f pc) : LookStep s x f pc

theorem look_step {s : State} {f : Look} {x x' : Reader} (h : look s f x = some x') :
    ∃ pc, x' = { x with pc := pc } ∧ LookStep s x f pc := by
  obtain ⟨target, tag, pc⟩ := x
  have served : (serveFile s.world.files tag pc f).map (fun pc => (⟨target, tag, pc⟩ : Reader)) =
      some x' → ∃ pc', x' = ⟨target, tag, pc'⟩ ∧ LookStep s ⟨target, tag, pc⟩ f pc' := by
    intro h
    obtain ⟨pc', hpc, rfl⟩ := Option.map_eq_some_iff.mp h
    exact ⟨pc', rfl, .file (file_step hpc)⟩
  cases pc with
  | selectRow =>
    cases f with
    | ok => exact ⟨_, (Option.some.inj h).symm, .row rfl⟩
    | sqlFails e => exact ⟨_, (Option.some.inj h).symm, .failed rfl e⟩
    | _ => cases h
  | _ => exact served h

abbrev RAct := Observers.Act Act Look Ask

/-- The server with its readers. -/
abbrev serve (cfg : Config) : List RAct → State × List Reader → Option (State × List Reader) :=
  Observers.run (step cfg) Reader.start look

/-- A request for a result is on the way to these bytes, or is answered by them. -/
def Follows (out : DataPath) (b : Bytes) (x : Reader) : Prop :=
  match x.pc with
  | .metadata abs ct => abs = out ∧ ct = contentTypeFor out
  | .openFile abs ct len etag => abs = out ∧ ct = contentTypeFor out ∧ len = b.length ∧
    ∀ e ∈ etag, ∃ m, e = etagFor b.length m
  | .answered (.file ct len etag body) => body = b ∧ ct = contentTypeFor out ∧ len = b.length ∧
    ∀ e ∈ etag, ∃ m, e = etagFor b.length m
  | .answered (.notModified e) => (∃ m, e = etagFor b.length m) ∧ ∃ h ∈ x.ifNoneMatch, lists h e = true
  | .answered (.input _) => False
  | _ => True

/-- A request that has not come to a result. -/
def Fruitless (x : Reader) : Prop :=
  match x.pc with
  | .selectRow | .answered (.error _) => True
  | _ => False

theorem Fruitless.follows {out : DataPath} {b : Bytes} {x : Reader} (h : Fruitless x) :
    Follows out b x := by
  obtain ⟨target, tag, pc⟩ := x
  cases pc with
  | answered r => cases r <;> trivial
  | selectRow => trivial
  | _ => cases h

theorem follows_metadata {out : DataPath} {b : Bytes} {t : Target} {tag m} :
    Follows out b ⟨t, tag, afterMetadata tag out (contentTypeFor out) b.length
      (Option.map (etagFor b.length) m)⟩ := by
  rcases afterMetadata_cases tag out (contentTypeFor out) b.length (m.map (etagFor b.length)) with
    ⟨e, he, h, hh, hlist, hpc⟩ | hpc <;> rw [hpc]
  · exact ⟨etag_tagged e he, h, hh, hlist⟩
  · exact ⟨rfl, rfl, rfl, etag_tagged⟩

/-- The finished attempt at the job, and its output file as long as it is there. -/
structure Stands (past : List (State × Act)) (s : State) (id : String) (out : DataPath)
    (a : Attempt) : Prop where
  events : ∃ job : QueuedJob, job.id = id ∧ a.events job <:+: trail past
  placed : IsOutput id out
  path : dataPath .outputs a.img.filename = .ok out
  final : ∃ r, r.outputPath = some out ∧ Final id r out (some a.result) s

theorem Stands.step {cfg : Config} {past : List (State × Act)} {s t : State} {a : Act} {id : String}
    {out : DataPath} {att : Attempt} (h : Stands past s id out att) (hm : Moved cfg s t a) :
    Stands (past ++ [(s, a)]) t id out att := by
  obtain ⟨⟨job, hid, hevents⟩, hplaced, hpath, r, hout, hfinal⟩ := h
  exact ⟨⟨job, hid, trail_mono hevents _⟩, hplaced, hpath, r, hout, hfinal.step hplaced hm⟩

theorem Stands.of_done {cfg : Config} {past : List (State × Act)} {s : State} (h : Traced cfg past s)
    {id : String} {r : JobRow} (hr : row? s id = some r) (hdone : r.status = .done) {out : DataPath}
    (hout : r.outputPath = some out) : ∃ a, Stands past s id out a := by
  obtain ⟨hmem, rfl⟩ := row_mem hr
  obtain ⟨a, out', hf⟩ := h.done r hmem hdone
  obtain rfl := Option.some.inj (hf.output.symm.trans hout)
  have hfiled := h.addressed.filed
  refine ⟨a, ⟨_, rfl, hf.events⟩, (hfiled.rows r hmem).output _ hf.output, hf.path, r, hf.output,
    h.inv, hfiled, h.inv.ids.settled hr, fun r' hr' => ?_, h.elsewhere hmem hdone, ?_⟩
  · obtain rfl := Option.some.inj (hr.symm.trans hr')
    exact ⟨hdone, rfl, rfl⟩
  · cases hfile : s.world.files out' with
    | none => exact .inr rfl
    | some b => exact .inl (congrArg some (hf.bytes b hfile))

/-- What is read of the output file is the result of the attempt. -/
theorem Stands.bytes {past : List (State × Act)} {s : State} {id : String} {out : DataPath}
    {a : Attempt} (h : Stands past s id out a) {b : Bytes} (hb : s.world.files out = some b) :
    b = a.result := by
  obtain ⟨r, -, hfinal⟩ := h.final
  rcases hfinal.file with hfile | hfile
  · exact Option.some.inj (hb.symm.trans hfile)
  · rw [hfile] at hb
    cases hb

/-- The row of the job says where the output is, as long as it is there. -/
theorem Stands.row {past : List (State × Act)} {s : State} {id : String} {out : DataPath}
    {a : Attempt} (h : Stands past s id out a) {r : JobRow} (hr : row? s id = some r) :
    r.outputPath = some out := by
  obtain ⟨r₀, hout, hfinal⟩ := h.final
  exact (hfinal.row r hr).2.1.trans hout

/-- What the first look of a request for a result finds. -/
theorem selectRow_result (w : World) (jobId : String) :
    (∃ e, selectRow w (.result jobId) = fail e ∧ (e = .notReady → ∃ r, w.db.jobs.find? jobId = some r ∧
      r.deletedAt = none ∧ (r.status ≠ .done ∨ r.outputPath = none))) ∨
    ∃ r rel, w.db.jobs.find? jobId = some r ∧ r.status = .done ∧ r.outputPath = some rel ∧
      selectRow w (.result jobId) = .metadata rel (contentTypeFor rel) := by
  simp only [selectRow]
  split
  · exact .inl ⟨_, rfl, by simp⟩
  · rename_i row hrow
    obtain ⟨hfind, hlive⟩ := Option.filter_eq_some_iff.mp hrow
    have hlive : row.deletedAt = none := of_decide_eq_true hlive
    split
    · rename_i hne
      exact .inl ⟨_, rfl, fun _ => ⟨row, hfind, hlive, .inl hne⟩⟩
    · rename_i hdone
      split
      · rename_i hnone
        exact .inl ⟨_, rfl, fun _ => ⟨row, hfind, hlive, .inr hnone⟩⟩
      · rename_i rel hout
        exact .inr ⟨row, rel, hfind, Classical.not_not.mp hdone, hout, rfl⟩

theorem look_keeps {s : State} {f : Look} {x x' : Reader} (h : look s f x = some x') :
    x'.target = x.target ∧ x'.ifNoneMatch = x.ifNoneMatch := by
  obtain ⟨pc, rfl, -⟩ := look_step h
  exact ⟨rfl, rfl⟩

/-- A look on the way to the result stays on it. -/
theorem Follows.look {past : List (State × Act)} {s : State} {id : String} {out : DataPath}
    {a : Attempt} (hs : Stands past s id out a) {f : Look} {x x' : Reader}
    (ht : x.target = .result id) (hx : Follows out a.result x) (h : Serving.look s f x = some x') :
    Follows out a.result x' := by
  obtain ⟨target, tag, pc⟩ := x
  obtain rfl : target = .result id := ht
  obtain ⟨pc', rfl, hstep⟩ := look_step h
  cases hstep with
  | row hpc =>
    rcases selectRow_result s.world id with ⟨e, he, -⟩ | ⟨r, rel, hr, -, hout, he⟩ <;>
      simp only [he]
    · trivial
    · obtain rfl := Option.some.inj ((hs.row hr).symm.trans hout)
      exact ⟨rfl, rfl⟩
  | failed hpc e => trivial
  | file hfile =>
    cases hfile with
    | gone hpc hgone => trivial
    | found m hb =>
      obtain ⟨rfl, rfl⟩ := hx
      rw [hs.bytes hb]
      exact follows_metadata
    | opened hb =>
      obtain ⟨rfl, hct, hlen, hetag⟩ := hx
      exact ⟨hs.bytes hb, hct, hlen, hetag⟩

/-- A request comes to a result when its row is found done. -/
theorem Fruitless.look {cfg : Config} {past : List (State × Act)} {s : State}
    (htraced : Traced cfg past s) {id : String} {f : Look} {x x' : Reader}
    (ht : x.target = .result id) (hx : Fruitless x) (h : Serving.look s f x = some x') :
    Fruitless x' ∨ ∃ out a, Stands past s id out a ∧ Follows out a.result x' := by
  obtain ⟨target, tag, pc⟩ := x
  obtain rfl : target = .result id := ht
  obtain ⟨pc', rfl, hstep⟩ := look_step h
  cases hstep with
  | row hpc =>
    rcases selectRow_result s.world id with ⟨e, he, -⟩ | ⟨r, rel, hr, hdone, hout, he⟩ <;>
      simp only [he]
    · exact .inl trivial
    · obtain ⟨a, ha⟩ := Stands.of_done htraced hr hdone hout
      exact .inr ⟨rel, a, ha, rfl, rfl⟩
  | failed hpc e => exact .inl trivial
  | file hfile =>
    cases hfile with
    | gone hpc hgone => exact .inl trivial
    | found m hb => cases hx
    | opened hb => cases hx

/-- Every request for the job's result is fruitless, or they all get the bytes of one
attempt of the trail. -/
def Agreed (past : List (State × Act)) (s : State) (pool : List Reader) (id : String) : Prop :=
  (∀ x ∈ pool, x.target = .result id → Fruitless x) ∨
    ∃ out a, Stands past s id out a ∧ ∀ x ∈ pool, x.target = .result id → Follows out a.result x

theorem Agreed.look {cfg : Config} {past : List (State × Act)} {s : State} {pool : List Reader}
    {id : String} (h : Agreed past s pool id) (htraced : Traced cfg past s) {i : Nat} {f : Look}
    {x x' : Reader} (hx : pool[i]? = some x) (hlook : Serving.look s f x = some x') :
    Agreed past s (pool.set i x') id := by
  have hmem := List.mem_of_getElem? hx
  have htarget : x'.target = .result id → x.target = .result id :=
    fun he => (look_keeps hlook).1.symm.trans he
  rcases h with hnone | ⟨out, a, hs, hall⟩
  · by_cases ht : x.target = .result id
    · rcases (hnone x hmem ht).look htraced ht hlook with hstill | ⟨out, a, hs, hfollows⟩
      · exact .inl (Observers.pool_look hnone fun _ => hstill)
      · refine .inr ⟨out, a, hs, Observers.pool_look (fun y hy hty => ?_) fun _ => hfollows⟩
        exact (hnone y hy hty).follows
    · exact .inl (Observers.pool_look hnone fun he => absurd (htarget he) ht)
  · refine .inr ⟨out, a, hs, Observers.pool_look hall fun he => ?_⟩
    exact Follows.look hs (htarget he) (hall x hmem (htarget he)) hlook

/-- The job is there, not deleted and not done. -/
def Unready (s : State) (id : String) : Prop :=
  ∃ r, row? s id = some r ∧ r.deletedAt = none ∧ r.status ≠ .done

/-- The first look of the request with this number was at a state in which the job was so. -/
def FoundUnready (cfg : Config) (as : List RAct) (i : Nat) (id : String) : Prop :=
  ∃ pre f post u pool x, as = pre ++ .look i f :: post ∧
    serve cfg pre (State.init, []) = some (u, pool) ∧ pool[i]? = some x ∧ x.pc = .selectRow ∧
    Unready u id

/-- Only a first look is answered 409. -/
theorem look_notReady {s : State} {f : Look} {x x' : Reader} (h : Serving.look s f x = some x')
    (hafter : x'.pc = fail .notReady) :
    x.pc = .selectRow ∧ selectRow s.world x.target = fail .notReady := by
  obtain ⟨pc, rfl, hstep⟩ := look_step h
  cases hstep with
  | row hpc => exact ⟨hpc, hafter⟩
  | failed hpc e => cases hafter
  | file hfile =>
    generalize x.pc = pc₀ at hfile
    cases hfile with
    | gone hpc hgone => cases hafter
    | found m hb => exact absurd hafter (afterMetadata_ne_fail x.ifNoneMatch _ _ _ _ _)
    | opened hb => cases hafter

/-- What the first look finds when it answers 409. -/
theorem unready_of_notReady {cfg : Config} {past : List (State × Act)} {s : State}
    (htraced : Traced cfg past s) {id : String}
    (h : selectRow s.world (.result id) = fail .notReady) : Unready s id := by
  rcases selectRow_result s.world id with ⟨e, he, hready⟩ | ⟨r, rel, -, -, -, he⟩ <;> rw [he] at h
  · obtain ⟨r, hr, hlive, hne | hnone⟩ := hready (by simpa [fail] using h)
    · exact ⟨r, hr, hlive, hne⟩
    · refine ⟨r, hr, hlive, fun hdone => ?_⟩
      obtain ⟨a, out, hf⟩ := htraced.done r (row_mem hr).1 hdone
      rw [hf.output] at hnone
      cases hnone
  · cases h

theorem serve_traced {cfg : Config} {as : List RAct} {t : State} {pool : List Reader}
    (h : serve cfg as (State.init, []) = some (t, pool)) :
    Traced cfg (Runs.visits (step cfg) (Observers.acts as) State.init) t :=
  Observers.history_invariant (J := fun past s _ => Traced cfg past s)
    (fun _ _ _ _ _ hs hstep => hs.step (step_moved hstep)) (fun _ _ _ _ hs => hs)
    (fun _ _ _ _ _ _ _ hs _ _ => hs) h (Traced.init cfg)

/-- A request that is answered 409 has seen the job there and not done. -/
theorem refused_found {cfg : Config} {as : List RAct} {t : State} {pool : List Reader}
    (h : serve cfg as (State.init, []) = some (t, pool)) {i : Nat} {x : Reader}
    (hx : pool[i]? = some x) {id : String} (ht : x.target = .result id)
    (hpc : x.pc = fail .notReady) : FoundUnready cfg as i id := by
  obtain ⟨pre, f, post, u, pool₀, y, has, hpre, hy, -, y', hlook, hty, hafter⟩ :=
    Observers.turned (P := fun x : Reader => x.target = .result id ∧ x.pc = fail .notReady)
      (fun _ hp => by cases hp.2) h hx ⟨ht, hpc⟩
  have htarget : y.target = .result id := (look_keeps hlook).1.symm.trans hty
  obtain ⟨hsel, hrow⟩ := look_notReady hlook hafter
  rw [htarget] at hrow
  exact ⟨pre, f, post, u, pool₀, y, has, hpre, hy, hsel, unready_of_notReady (serve_traced hpre) hrow⟩

structure Served (cfg : Config) (past : List (State × Act)) (s : State) (pool : List Reader) :
    Prop where
  traced : Traced cfg past s
  agreed : ∀ id, Agreed past s pool id

/-- In every run of the server with any number of readers: either no request for the result of
a job has found it, or there is one attempt at the job in the trail of ComfyUI's answers
whose bytes every such request gets, whole and with the length and the tag of these
bytes, or is told it already has. A request is answered 409 only if the job was
there and not done when it looked. -/
theorem results_served {cfg : Config} {as : List RAct} {t : State} {pool : List Reader}
    (h : serve cfg as (State.init, []) = some (t, pool)) (id : String) :
    ((∀ x ∈ pool, x.target = .result id → Fruitless x) ∨
      ∃ out a, Stands (Runs.visits (step cfg) (Observers.acts as) State.init) t id out a ∧
        ∀ x ∈ pool, x.target = .result id → Follows out a.result x) ∧
    ∀ i x, pool[i]? = some x → x.target = .result id → x.pc = fail .notReady →
      FoundUnready cfg as i id := by
  have hend := Observers.history_invariant (J := Served cfg)
    (fun past s a u pool hs hstep => ?_) (fun past s pool q hs => ?_)
    (fun past s pool i f x x' hs hx hlook => ?_) h ⟨Traced.init cfg, fun _ => .inl (by simp)⟩
  · exact ⟨hend.agreed id, fun i x hx ht hpc => refused_found h hx ht hpc⟩
  · have hm := step_moved hstep
    refine ⟨hs.traced.step hm, fun id => ?_⟩
    exact (hs.agreed id).imp_right fun ⟨out, att, hst, hall⟩ => ⟨out, att, hst.step hm, hall⟩
  · refine ⟨hs.traced, fun id => ?_⟩
    exact (hs.agreed id).imp (fun hall => Observers.pool_arrive hall fun _ => trivial)
      fun ⟨out, att, hst, hall⟩ => ⟨out, att, hst, Observers.pool_arrive hall fun _ => trivial⟩
  · exact ⟨hs.traced, fun id => (hs.agreed id).look hs.traced hx hlook⟩

/-- One request takes the result of the finished job, the next one has its tag. -/
def readResult : List RAct :=
  [.arrive (.result jobA, none), .look 0 .ok, .look 0 (.mtime (some 5)), .look 0 .ok,
    .arrive (.result jobA, some "\"2-5\", \"3-5\""), .look 1 .ok, .look 1 (.mtime (some 5))]

theorem results_served_done : ∃ t pool a out,
    serve sampleConfig (doneRun.map .system ++ readResult) (State.init, []) = some (t, pool) ∧
    pool.map Reader.pc = [.answered (.file "image/png" 3 (some "\"3-5\"") [1, 2, 3]),
      .answered (.notModified "\"3-5\"")] ∧
    Stands (Runs.visits (step sampleConfig) doneRun State.init) t jobA out a ∧
    a.result = [1, 2, 3] := by
  have hrun : (serve sampleConfig (doneRun.map .system ++ readResult) (State.init, [])).map
      (fun x => x.2) = some [⟨.result jobA, none, .answered (.file "image/png" 3 (some "\"3-5\"")
        [1, 2, 3])⟩, ⟨.result jobA, some "\"2-5\", \"3-5\"", .answered (.notModified "\"3-5\"")⟩] := by
    rw [serve, Observers.run_lift]
    simp only [doneRun, List.append_assoc, run_first]
    decide +kernel
  obtain ⟨⟨t, pool⟩, h, rfl⟩ := Option.map_eq_some_iff.mp hrun
  obtain ⟨hserved, -⟩ := results_served h jobA
  have hacts : Observers.acts (doneRun.map Observers.Act.system ++ readResult) = doneRun :=
    (Observers.acts_lift doneRun readResult).trans (List.append_nil doneRun)
  rw [hacts] at hserved
  rcases hserved with hnone | ⟨out, a, hst, hall⟩
  · exact absurd (hnone _ List.mem_cons_self rfl) id
  · obtain ⟨hbody, -⟩ := hall _ List.mem_cons_self rfl
    exact ⟨t, _, a, out, h, rfl, hst, hbody.symm⟩

/-- What a request for an input holds is about the row of its id. -/
def Sourced (cfg : Config) (w : World) (x : Reader) : Prop :=
  match x.target, x.pc with
  | .input id, .answered (.input v) => v.id = id ∧ RowIs v.sha256 w id
  | .inputFile id, .metadata abs _ => ∃ sha, Names sha abs ∧ RowIs sha w id
  | .inputFile id, .openFile abs _ len _ =>
    ∃ b, Names (cfg.sha256Hex b) abs ∧ RowIs (cfg.sha256Hex b) w id ∧ len = b.length
  | .inputFile id, .answered (.file _ len _ body) => RowIs (cfg.sha256Hex body) w id ∧
    ∃ b, cfg.sha256Hex b = cfg.sha256Hex body ∧ len = b.length
  | _, _ => True

theorem Sourced.step {cfg : Config} {s t : State} {a : Act} {x : Reader}
    (h : Sourced cfg s.world x) (hm : Moved cfg s t a) : Sourced cfg t.world x := by
  obtain ⟨target, tag, pc⟩ := x
  cases target with
  | result id => cases pc <;> trivial
  | input id =>
    cases pc with
    | answered r =>
      cases r with
      | input v => exact ⟨h.1, h.2.step hm⟩
      | _ => trivial
    | _ => trivial
  | inputFile id =>
    cases pc with
    | selectRow => trivial
    | metadata abs ct =>
      obtain ⟨sha, hnames, hrow⟩ := h
      exact ⟨sha, hnames, hrow.step hm⟩
    | openFile abs ct len etag =>
      obtain ⟨b, hnames, hrow, hlen⟩ := h
      exact ⟨b, hnames, hrow.step hm, hlen⟩
    | answered r =>
      cases r with
      | file ct len etag body => exact ⟨h.1.step hm, h.2⟩
      | _ => trivial

theorem sourced_metadata {cfg : Config} {w : World} {id : Int} {tag : Option String} {abs : DataPath}
    {ct : String} {b : Bytes} {etag : Option String} (hnames : Names (cfg.sha256Hex b) abs)
    (hrow : RowIs (cfg.sha256Hex b) w id) :
    Sourced cfg w ⟨.inputFile id, tag, afterMetadata tag abs ct b.length etag⟩ := by
  rcases afterMetadata_cases tag abs ct b.length etag with ⟨e, -, s, -, -, hpc⟩ | hpc <;> rw [hpc]
  · trivial
  · exact ⟨b, hnames, hrow, rfl⟩

/-- The bytes of a file of the input cache have the hash in its name. -/
theorem names_hash {cfg : Config} {s : State} (h : Addressed cfg s) {sha : String} {p : DataPath}
    (hp : Names sha p) {b : Bytes} (hb : s.world.files p = some b) : cfg.sha256Hex b = sha := by
  obtain ⟨k, rfl⟩ := hp
  exact h.files sha k b hb

theorem Sourced.look {cfg : Config} {s : State} (haddr : Addressed cfg s) {f : Look} {x x' : Reader}
    (hx : Sourced cfg s.world x) (h : Serving.look s f x = some x') : Sourced cfg s.world x' := by
  obtain ⟨target, tag, pc⟩ := x
  obtain ⟨pc', rfl, hstep⟩ := look_step h
  cases hstep with
  | row hpc =>
    cases target with
    | result id => cases selectRow s.world (.result id) <;> trivial
    | input id =>
      simp only [selectRow]
      split
      · trivial
      · rename_i row hrow
        have hid : row.id = id := Table.find?_key hrow
        exact ⟨hid, row, hrow, rfl⟩
    | inputFile id =>
      simp only [selectRow]
      split
      · trivial
      · rename_i row hrow
        split
        · trivial
        · rename_i path hpath
          have hmem := (Table.find?_eq_some.mp hrow).1
          exact ⟨row.sha256, haddr.rows row hmem path hpath, row, hrow, rfl⟩
  | failed hpc e => cases target <;> trivial
  | file hfile =>
    cases target with
    | result id => cases pc' <;> trivial
    | input id =>
      cases hfile with
      | gone hpc hgone => trivial
      | @found abs ct b m hb =>
        rcases afterMetadata_cases tag abs ct b.length (m.map (etagFor b.length)) with
          ⟨e, -, h, -, -, hpc⟩ | hpc <;> simp only [hpc] <;> trivial
      | opened hb => trivial
    | inputFile id =>
      cases hfile with
      | gone hpc hgone => trivial
      | found m hb =>
        obtain ⟨sha, hnames, hrow⟩ := hx
        obtain rfl := names_hash haddr hnames hb
        exact sourced_metadata hnames hrow
      | opened hb =>
        obtain ⟨b, hnames, hrow, hlen⟩ := hx
        have hhash := names_hash haddr hnames hb
        exact ⟨hhash ▸ hrow, b, hhash.symm, hlen⟩

/-- In every run of the server with any number of readers, however submits and purges rewrite
and remove the files of the cache meanwhile: the bytes served for an input have the hash
that stands in its row, which is there to stay; so does the hash that `get_input`
has told. The length announced with the bytes is theirs, unless two byte strings
have this one hash. -/
theorem inputs_served {cfg : Config} {as : List RAct} {t : State} {pool : List Reader}
    (h : serve cfg as (State.init, []) = some (t, pool)) :
    (∀ x ∈ pool, ∀ id v, x.target = .input id → x.pc = .answered (.input v) →
      v.id = id ∧ RowIs v.sha256 t.world id) ∧
    ∀ x ∈ pool, ∀ id ct len etag body, x.target = .inputFile id →
      x.pc = .answered (.file ct len etag body) → RowIs (cfg.sha256Hex body) t.world id ∧
        ((∀ b, cfg.sha256Hex b = cfg.sha256Hex body → b = body) → len = body.length) := by
  have hend := Observers.invariant
    (J := fun s pool => Addressed cfg s ∧ ∀ x ∈ pool, Sourced cfg s.world x)
    (fun s a u pool hs hstep => ⟨hs.1.step (step_moved hstep), fun x hx =>
      (hs.2 x hx).step (step_moved hstep)⟩)
    (fun s pool q hs => ⟨hs.1, Observers.pool_arrive hs.2 ?_⟩)
    (fun s pool i f x x' hs hx hlook => ⟨hs.1, Observers.pool_look hs.2
      ((hs.2 x (List.mem_of_getElem? hx)).look hs.1 hlook)⟩)
    h ⟨Addressed.init cfg, by simp⟩
  · refine ⟨fun x hx id v ht hpc => ?_, fun x hx id ct len etag body ht hpc => ?_⟩
    · have hx := hend.2 x hx
      obtain ⟨target, tag, pc⟩ := x
      obtain ⟨rfl, rfl⟩ : target = _ ∧ pc = _ := ⟨ht, hpc⟩
      exact hx
    · have hx := hend.2 x hx
      obtain ⟨target, tag, pc⟩ := x
      obtain ⟨rfl, rfl⟩ : target = _ ∧ pc = _ := ⟨ht, hpc⟩
      obtain ⟨hrow, b, hhash, rfl⟩ := hx
      exact ⟨hrow, fun hinj => by rw [hinj b hhash]⟩
  · obtain ⟨target, tag⟩ := q
    cases target <;> trivial

/-- One request asks about the input of the first job, another one for its file. -/
def readInput : List RAct :=
  [.arrive (.input 1, none), .look 0 .ok, .arrive (.inputFile 1, none), .look 1 .ok,
    .look 1 (.mtime none), .look 1 .ok]

def catView : InputView :=
  ⟨1, sampleConfig.sha256Hex [97, 98, 99], true, some "cat.png", some "image/png", some 3, some 8,
    some 8, 0, 0⟩

theorem inputs_served_first : ∃ t pool,
    serve sampleConfig ((firstSubmit 0 jobA).map .system ++ readInput) (State.init, []) =
      some (t, pool) ∧
    pool = [⟨.input 1, none, .answered (.input catView)⟩,
      ⟨.inputFile 1, none, .answered (.file "image/png" 3 none [97, 98, 99])⟩] ∧
    RowIs catView.sha256 t.world 1 ∧ RowIs (sampleConfig.sha256Hex [97, 98, 99]) t.world 1 := by
  have hrun : (serve sampleConfig ((firstSubmit 0 jobA).map .system ++ readInput)
      (State.init, [])).map Prod.snd = some [⟨.input 1, none, .answered (.input catView)⟩,
        ⟨.inputFile 1, none, .answered (.file "image/png" 3 none [97, 98, 99])⟩] := by
    rw [serve, Observers.run_lift, ← List.append_nil (firstSubmit 0 jobA)]
    simp only [run_first]
    decide +kernel
  obtain ⟨⟨t, pool⟩, h, hpool⟩ := Option.map_eq_some_iff.mp hrun
  obtain rfl : pool = _ := hpool
  obtain ⟨hinput, hfile⟩ := inputs_served h
  exact ⟨t, _, h, rfl, (hinput _ List.mem_cons_self 1 catView rfl rfl).2,
    (hfile _ (List.mem_cons_of_mem _ List.mem_cons_self) 1 _ _ _ _ rfl rfl).1⟩

end ZunServer.Serving
