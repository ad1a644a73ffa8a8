import ZunServer.AtomicWrites
import ZunServer.JobFiles
import ZunServer.UnixPath

/-!
# The paths of the data directory

`data_path` and `tmp_sibling` of `paths.rs`, and everything that takes a path
apart or puts one together: what the database stores, the renditions of a job,
and what a purge removes. Elsewhere a path is kept as its subdirectory and its
file name; here is what becomes of the two on the disk.
-/
namespace ZunServer.Paths

open UnixPath (Letters Name Segment)
open UnixPath.Path (parse relative)
open Schema Statements Database Calls Renditions RenditionSteps Purge JobFiles
open AtomicWrites (hex08)

/-- A character, or a run of bytes that are none. -/
abbrev OsChar := Char ⊕ List UInt8

instance : Letters OsChar := ⟨.inl '/', .inl '.', by decide⟩

abbrev OsPath := UnixPath.Path OsChar

def os (s : String) : List OsChar := s.toList.map .inl

def toStringLossy (s : List OsChar) : String :=
  String.ofList (s.map fun
    | .inl c => c
    | .inr _ => Char.ofNat 0xFFFD)

theorem toStringLossy_os (s : String) : toStringLossy (os s) = s := by
  simp [toStringLossy, os, Function.comp_def]

/-- A name that is text is its lossy form. -/
theorem os_toStringLossy {s : List OsChar} (h : ∀ c ∈ s, c.isLeft = true) :
    os (toStringLossy s) = s := by
  rw [os, toStringLossy, String.toList_ofList, List.map_map]
  refine (List.map_congr_left fun c hc => ?_).trans (List.map_id s)
  cases c with
  | inl c => rfl
  | inr b => cases h _ hc

@[simp] theorem os_append (s t : String) : os (s ++ t) = os s ++ os t := by simp [os]

theorem os_text (s : String) : ∀ c ∈ os s, c.isLeft = true := by
  simp [os]

/-- `Path::join`. -/
def join (p : OsPath) (s : String) : OsPath := p.join (parse (os s))

/-- Where a path of the server is on the disk: `data_dir.join(subdir).join(filename)`. -/
def onDisk (dataDir : OsPath) (p : DataPath) : OsPath := join (join dataDir p.sub.name) p.filename

/-- `data_path`. -/
def dataPath (dataDir : OsPath) (subdir : Subdir) (filename : String) : Except String OsPath :=
  if filename.toList = [] ∨ '/' ∈ filename.toList ∨ '\\' ∈ filename.toList ∨
      ['.', '.'] <:+: filename.toList then
    .error s!"invalid filename for data path: {debug filename}"
  else .ok (join (join dataDir subdir.name) filename)

theorem dataPath_eq (dataDir : OsPath) (subdir : Subdir) (filename : String) :
    dataPath dataDir subdir filename = (Schema.dataPath subdir filename).map (onDisk dataDir) := by
  unfold dataPath Schema.dataPath
  split <;> rfl

/-- `relative_for_db`. -/
def relativeForDb (abs dataDir : OsPath) : String :=
  match abs.stripPrefix dataDir with
  | some p => toStringLossy p.text
  | none => toStringLossy abs.text

/-- `tmp_sibling`, with the suffix that was drawn. -/
def tmpSibling (path : OsPath) (suffix : UInt32) : OsPath :=
  path.withFileName ((path.fileName.map Name.letters).getD [] ++ os (".tmp." ++ hex08 suffix))

/-- A file name that `data_path` takes. -/
structure Accepted (filename : String) : Prop where
  nonempty : filename.toList ≠ []
  no_slash : '/' ∉ filename.toList
  no_backslash : '\\' ∉ filename.toList
  no_dots : ¬ ['.', '.'] <:+: filename.toList

theorem accepted_iff {filename : String} : Accepted filename ↔
    ¬ (filename.toList = [] ∨ '/' ∈ filename.toList ∨ '\\' ∈ filename.toList ∨
      ['.', '.'] <:+: filename.toList) := by
  simp only [not_or]
  constructor
  · rintro ⟨h1, h2, h3, h4⟩
    exact ⟨h1, h2, h3, h4⟩
  · rintro ⟨h1, h2, h3, h4⟩
    exact ⟨h1, h2, h3, h4⟩

theorem dataPath_eq_ok {dataDir p : OsPath} {subdir : Subdir} {filename : String} :
    dataPath dataDir subdir filename = .ok p ↔
      Accepted filename ∧ p = onDisk dataDir ⟨subdir, filename⟩ := by
  by_cases h : Accepted filename
  · rw [dataPath, if_neg (accepted_iff.mp h)]
    simp [h, onDisk, eq_comm]
  · rw [dataPath, if_pos (not_not.mp fun hn => h (accepted_iff.mpr hn))]
    simp [h]

theorem mem_os {c : Char} {s : String} : (.inl c : OsChar) ∈ os s ↔ c ∈ s.toList := by
  simp [os]

theorem os_inj {s t : String} (h : os s = os t) : s = t := by
  rw [← toStringLossy_os s, h, toStringLossy_os]

/-- But for `.`, what `data_path` takes is the name of a file. -/
theorem Accepted.name {filename : String} (h : Accepted filename) (hne : filename ≠ ".") :
    ∃ n, Name.of? (os filename) = some n := by
  have hnil : os filename ≠ [] := by simpa [os] using h.nonempty
  have hslash : Letters.slash ∉ os filename := fun hs => h.no_slash (mem_os.mp hs)
  have hhere : os filename ≠ os "." := fun he => hne (os_inj he)
  have hup : os filename ≠ os ".." := by
    intro he
    rw [os_inj he] at h
    exact h.no_dots (by simp)
  exact ⟨_, dif_pos ⟨hnil, hslash, hhere, hup⟩⟩

/-- It does not start at the root. -/
theorem Accepted.not_root {filename : String} (h : Accepted filename) :
    (parse (os filename)).start ≠ .root := by
  intro hroot
  have hhead := UnixPath.Path.startOf_eq_root.mp hroot
  exact h.no_slash (mem_os.mp (List.mem_of_mem_head? hhead))

/-- The names of a subdirectory. -/
theorem parse_subdir (subdir : Subdir) : ∃ (l : List (Segment OsChar)) (n : Name OsChar),
    parse (os subdir.name) = relative (l ++ [.name n]) := by
  have one : ∀ {s : String} {n : Name OsChar}, Name.of? (os s) = some n →
      parse (os s) = relative ([] ++ [.name n]) := fun h => UnixPath.Path.parse_of_name h
  cases subdir with
  | cacheInputs =>
    have hcache : ∃ n, Name.of? (os "cache") = some n := ⟨_, rfl⟩
    have hinputs : ∃ n, Name.of? (os "inputs") = some n := ⟨_, rfl⟩
    obtain ⟨m, hm⟩ := hcache
    obtain ⟨n, hn⟩ := hinputs
    have hpush : os "cache/inputs" = UnixPath.Path.push (os "cache") (os "inputs") := by decide
    refine ⟨[.name m], n, ?_⟩
    rw [Subdir.name, hpush, UnixPath.Path.parse_push, one hm, one hn]
    rfl
  | outputs => exact ⟨[], _, one rfl⟩
  | thumbs => exact ⟨[], _, one rfl⟩
  | previews => exact ⟨[], _, one rfl⟩

theorem join_subdir (dataDir : OsPath) (subdir : Subdir) :
    ∃ (q : OsPath) (n : Name OsChar), join dataDir subdir.name = q.child n := by
  obtain ⟨l, n, hparse⟩ := parse_subdir subdir
  refine ⟨⟨dataDir.start, dataDir.segments ++ l⟩, n, ?_⟩
  rw [join, hparse, UnixPath.Path.join_relative, UnixPath.Path.child, List.append_assoc]

theorem onDisk_child {subdir : Subdir} {filename : String} {n : Name OsChar}
    (h : Name.of? (os filename) = some n) (dataDir : OsPath) :
    onDisk dataDir ⟨subdir, filename⟩ = (join dataDir subdir.name).child n :=
  UnixPath.Path.join_of_name h _

/-- The name `.` is that of no file: what `data_path` builds for it is the directory itself. -/
theorem onDisk_dot (dataDir : OsPath) (subdir : Subdir) :
    onDisk dataDir ⟨subdir, "."⟩ = join dataDir subdir.name := by
  obtain ⟨q, n, hq⟩ := join_subdir dataDir subdir
  have hdot : parse (os ".") = ⟨.here, []⟩ := rfl
  rw [onDisk, join, hdot, UnixPath.Path.join_append (by decide), List.append_nil]
  intro hempty
  rw [hq] at hempty
  simp [UnixPath.Path.child, UnixPath.Path.empty] at hempty

theorem slash_hex08 (suffix : UInt32) : '/' ∉ (hex08 suffix).toList := by
  have hdigits : ∀ d < 16, Nat.digitChar d ≠ '/' := by decide
  intro h
  simp only [hex08, String.toList_ofList, List.mem_map] at h
  obtain ⟨i, -, hi⟩ := h
  exact hdigits _ (Nat.mod_lt _ (by decide)) hi

/-- The staging file of a file is next to it. -/
theorem tmpSibling_child (p : OsPath) (n : Name OsChar) (suffix : UInt32) :
    ∃ m, m.letters = n.letters ++ os (".tmp." ++ hex08 suffix) ∧
      tmpSibling (p.child n) suffix = p.child m := by
  have hname : ∃ m, Name.of? (n.letters ++ os (".tmp." ++ hex08 suffix)) = some m := by
    refine ⟨_, dif_pos ⟨by simp [n.nonempty], ?_, ?_, ?_⟩⟩
    · intro hslash
      rcases List.mem_append.mp hslash with hs | hs
      · exact n.no_slash hs
      · have htmp := mem_os.mp hs
        simp [slash_hex08] at htmp
    · intro he
      have hlen := congrArg List.length he
      simp [os] at hlen
      omega
    · intro he
      have hlen := congrArg List.length he
      simp [os] at hlen
      omega
  obtain ⟨m, hm⟩ := hname
  refine ⟨m, UnixPath.Name.of?_eq_some hm, ?_⟩
  rw [tmpSibling, UnixPath.Path.fileName_child, UnixPath.Path.withFileName_child]
  exact UnixPath.Path.join_of_name hm p

/-- The path is that of a file of this name in the directory, and so are the files staged
for it. -/
structure DirectChild (dir : OsPath) (filename : String) (p : OsPath) : Prop where
  parent : p.resolve.parent = some dir.resolve
  fileName : p.resolve.fileName.map Name.letters = some (os filename)
  staged : ∀ suffix, (tmpSibling p suffix).resolve.parent = some dir.resolve

theorem directChild_of_name {filename : String} {n : Name OsChar}
    (h : Name.of? (os filename) = some n) (dir : OsPath) : DirectChild dir filename (dir.child n) := by
  refine ⟨by simp, by simp [UnixPath.Name.of?_eq_some h], fun suffix => ?_⟩
  obtain ⟨m, -, hm⟩ := tmpSibling_child dir n suffix
  simp [hm]

/-- What `data_path` builds is a file of that name in the subdirectory, but for the name `.`. -/
theorem dataPath_directChild_iff (dataDir : OsPath) (subdir : Subdir) (filename : String) :
    (∀ p, dataPath dataDir subdir filename = .ok p →
      DirectChild (join dataDir subdir.name) filename p) ↔ filename ≠ "." := by
  constructor
  · rintro hall rfl
    obtain ⟨q, n, hq⟩ := join_subdir dataDir subdir
    have hdot : Accepted "." := ⟨by decide, by decide, by decide, by decide⟩
    have hchild := hall _ (dataPath_eq_ok.mpr ⟨hdot, rfl⟩)
    have hname := hchild.fileName
    rw [onDisk_dot, hq] at hname
    have hletters : n.letters = os "." := by simpa using hname
    exact n.not_here hletters
  · intro hne p hp
    obtain ⟨hacc, rfl⟩ := dataPath_eq_ok.mp hp
    obtain ⟨n, hn⟩ := hacc.name hne
    rw [onDisk_child hn]
    exact directChild_of_name hn _

/-- The name `.` gets through: what it names is not in `outputs`, nor is what is staged for it. -/
theorem dataPath_dot :
    dataPath (parse (os "/data")) .outputs "." = .ok (parse (os "/data/outputs")) ∧
      tmpSibling (parse (os "/data/outputs")) 0 = parse (os "/data/outputs.tmp.00000000") ∧
      ¬ DirectChild (join (parse (os "/data")) Subdir.outputs.name) "."
        (parse (os "/data/outputs")) := by
  refine ⟨by rfl, by decide +kernel, fun h => ?_⟩
  have hname := h.fileName
  revert hname
  decide +kernel

/-- Below the data directory, wherever that is, a path of the server is one text. -/
theorem onDisk_relative {filename : String} (h : Accepted filename) (subdir : Subdir) :
    ∃ l : List (Segment OsChar),
      (∀ dataDir, onDisk dataDir ⟨subdir, filename⟩ = dataDir.join (relative l)) ∧
        ∀ c ∈ (relative l).text, c.isLeft = true := by
  obtain ⟨l, n, hsub⟩ := parse_subdir subdir
  refine ⟨l ++ [.name n] ++ (parse (os filename)).segments, fun dataDir => ?_, ?_⟩
  · rw [onDisk, join, join, hsub, UnixPath.Path.join_append h.not_root]
    · simp only [UnixPath.Path.join_relative, List.append_assoc]
    · rw [UnixPath.Path.join_relative]
      simp [UnixPath.Path.empty]
  · intro c hc
    rcases UnixPath.Path.letters_of_text hc with rfl | ⟨x, hx, hc⟩
    · rfl
    rcases List.mem_append.mp hx with hx | hx
    · have hseg : x ∈ (parse (os subdir.name)).segments := by rwa [hsub]
      exact os_text _ c (UnixPath.Path.letters_of_parse hseg hc)
    · exact os_text _ c (UnixPath.Path.letters_of_parse hx hc)

/-- What is stored of a path is the path below no directory at all. -/
theorem relativeForDb_onDisk (dataDir : OsPath) {p : DataPath} (h : Accepted p.filename) :
    relativeForDb (onDisk dataDir p) dataDir = toStringLossy (onDisk .empty p).text := by
  obtain ⟨l, hl, -⟩ := onDisk_relative h p.sub
  rw [hl, hl, relativeForDb, UnixPath.Path.stripPrefix_join, UnixPath.Path.empty_join]

theorem parse_relativeForDb (dataDir : OsPath) {p : DataPath} (h : Accepted p.filename) :
    parse (os (relativeForDb (onDisk dataDir p) dataDir)) = onDisk .empty p := by
  obtain ⟨l, hl, htext⟩ := onDisk_relative h p.sub
  rw [relativeForDb_onDisk dataDir h, hl, UnixPath.Path.empty_join, os_toStringLossy htext,
    UnixPath.Path.parse_text]

/-- A path that was stored and is joined to the data directory again is the same path. -/
theorem join_relativeForDb (dataDir : OsPath) {p : DataPath} (h : Accepted p.filename) :
    join dataDir (relativeForDb (onDisk dataDir p) dataDir) = onDisk dataDir p := by
  obtain ⟨l, hl, -⟩ := onDisk_relative h p.sub
  rw [join, parse_relativeForDb dataDir h, hl, hl, UnixPath.Path.empty_join]

/-- `avif_sibling`. -/
def avifSibling (jpegPath : OsPath) : OsPath := jpegPath.withExtension (os DerivedFormat.avif.extension)

/-- `cached_derived_path`. -/
def cachedDerivedPath (dataDir : OsPath) (jpegRel : Option String) (format : DerivedFormat) :
    Option OsPath :=
  jpegRel.map fun rel => match format with
    | .jpeg => join dataDir rel
    | .avif => avifSibling (join dataDir rel)

/-- `derived_cache_path`. -/
def derivedCachePath (dataDir : OsPath) (sub : Subdir) (jobId : String) (format : DerivedFormat) :
    Except String OsPath :=
  dataPath dataDir sub (jobId ++ "." ++ format.extension)

/-- The file that `render_only` writes. -/
def renderOnly (dataDir : OsPath) (jobId : String) (sub : Subdir) (format : DerivedFormat) :
    Except String OsPath :=
  dataPath dataDir sub (jobId ++ "." ++ format.extension)

/-- The file that `render_and_persist` writes, and what it stores of its path. -/
def renderAndPersist (dataDir : OsPath) (jobId : String) (sub : Subdir) (format : DerivedFormat) :
    Except String (OsPath × String) := do
  let abs ← renderOnly dataDir jobId sub format
  let rel := match abs.stripPrefix dataDir with
    | some p => toStringLossy p.text
    | none => toStringLossy abs.text
  return (abs, rel)

/-- The AVIF path that `purge::run` takes from a stored one. -/
def storedSibling (rel : String) : String := toStringLossy (avifSibling (parse (os rel))).text

/-- The paths that `purge::run` removes for a job, from the three columns of its row. -/
def purgedPaths (dataDir : OsPath) (outputPath thumbPath previewPath : Option String) : List OsPath :=
  ([outputPath, thumbPath, previewPath].reduceOption ++
    [thumbPath, previewPath].reduceOption.map storedSibling).map (join dataDir)

theorem stem_os (s : String) : UnixPath.Path.stem (os s) = (fileStem s.toList).map .inl := by
  have hdrop : (os s).reverse.dropWhile (· ≠ Letters.dot) =
      (s.toList.reverse.dropWhile (· ≠ '.')).map .inl := by
    rw [os, ← List.map_reverse, List.dropWhile_map]
    congr 2
    funext c
    simp [Letters.dot]
  unfold UnixPath.Path.stem fileStem splitLastDot
  rw [hdrop]
  cases s.toList.reverse.dropWhile (· ≠ '.') with
  | nil => rfl
  | cons c rest =>
    cases rest with
    | nil => rfl
    | cons c' rest => simp

/-- On the disk, the AVIF beside a file of the server is the one the server thinks of. -/
theorem avifSibling_onDisk (dataDir : OsPath) {p : DataPath} (h : Accepted p.filename)
    (hne : p.filename ≠ ".") :
    avifSibling (onDisk dataDir p) = onDisk dataDir (Schema.avifSibling p) := by
  obtain ⟨n, hn⟩ := h.name hne
  have hname : (fileStem p.filename.toList).map .inl ++ Letters.dot :: os DerivedFormat.avif.extension =
      os (String.ofList (fileStem p.filename.toList) ++ ".avif") := by
    have hext : Letters.dot :: os DerivedFormat.avif.extension = os ".avif" := by decide
    rw [hext, os_append]
    simp [os]
  rw [avifSibling, onDisk_child hn, UnixPath.Path.withExtension_child,
    UnixPath.Name.of?_eq_some hn, stem_os, if_neg (by decide), hname]
  rfl

/-- Two dots in a name with an extension are in what comes before it. -/
theorem dots_before {s t : List Char} (ht : '.' ∉ t) (h : ['.', '.'] <:+: s ++ '.' :: t) :
    ['.', '.'] <:+: s ++ ['.'] := by
  induction s with
  | nil =>
    rcases List.infix_cons_iff.mp h with h | h
    · have hdot : ['.'] <+: t := (List.cons_prefix_cons.mp h).2
      exact absurd (hdot.subset (by simp)) ht
    · exact absurd (h.subset (by simp)) ht
  | cons c s ih =>
    rcases List.infix_cons_iff.mp h with h | h
    · obtain ⟨rfl, hrest⟩ := List.cons_prefix_cons.mp h
      apply List.infix_cons_iff.mpr
      left
      cases s with
      | nil => simp
      | cons d s =>
        obtain ⟨rfl, -⟩ := List.cons_prefix_cons.mp hrest
        simp
    · exact List.infix_cons_iff.mpr (.inr (ih h))

/-- Whether `data_path` takes the name of a rendition does not depend on its format. -/
theorem accepted_format {id : String} (fmt : DerivedFormat)
    (h : Accepted (id ++ "." ++ fmt.extension)) (fmt' : DerivedFormat) :
    Accepted (id ++ "." ++ fmt'.extension) := by
  have hlist : ∀ f : DerivedFormat,
      (id ++ "." ++ f.extension).toList = id.toList ++ '.' :: f.extension.toList := by
    intro f
    simp
  have hext : ∀ f : DerivedFormat, '.' ∉ f.extension.toList ∧ '/' ∉ f.extension.toList ∧
      '\\' ∉ f.extension.toList := by
    intro f
    cases f <;> decide
  obtain ⟨hnil, hslash, hback, hdots⟩ := h
  obtain ⟨hdot', hslash', hback'⟩ := hext fmt'
  refine ⟨by simp, ?_, ?_, ?_⟩
  · simp only [hlist, List.mem_append, List.mem_cons, not_or] at hslash ⊢
    exact ⟨hslash.1, by decide, hslash'⟩
  · simp only [hlist, List.mem_append, List.mem_cons, not_or] at hback ⊢
    exact ⟨hback.1, by decide, hback'⟩
  · intro h
    rw [hlist] at h hdots
    have hpre : id.toList ++ ['.'] <+: id.toList ++ '.' :: fmt.extension.toList :=
      ⟨fmt.extension.toList, by simp⟩
    exact hdots ((dots_before hdot' h).trans hpre.isInfix)

/-- The renditions of an id that `data_path` takes, as the code comes to their paths. -/
theorem renderOnly_eq (dataDir : OsPath) {id : String} (h : Accepted (id ++ "." ++ "jpg"))
    (col : Column) (fmt : DerivedFormat) :
    renderOnly dataDir id col.subdir fmt = .ok (onDisk dataDir (renditionOf col id fmt)) :=
  dataPath_eq_ok.mpr ⟨accepted_format .jpeg h fmt, rfl⟩

/-- The AVIF beside the JPEG rendition is the AVIF rendition. -/
theorem avifSibling_jpeg (dataDir : OsPath) {id : String} (hid : id.toList ≠ [])
    (h : Accepted (id ++ "." ++ "jpg")) (col : Column) :
    avifSibling (onDisk dataDir (renditionOf col id .jpeg)) =
      onDisk dataDir (renditionOf col id .avif) := by
  have hne : id ++ "." ++ "jpg" ≠ "." := by
    intro he
    have hlen := congrArg (fun s => s.toList.length) he
    simp at hlen
  rw [avifSibling_onDisk dataDir h hne, avifSibling_rendition hid]

/-- A purge finds the AVIF from the stored path of the JPEG. -/
theorem join_storedSibling (dataDir : OsPath) {id : String} (hid : id.toList ≠ [])
    (h : Accepted (id ++ "." ++ "jpg")) (col : Column) :
    join dataDir (storedSibling (relativeForDb (onDisk dataDir (renditionOf col id .jpeg)) dataDir)) =
      onDisk dataDir (renditionOf col id .avif) := by
  have hjpeg : Accepted (renditionOf col id .jpeg).filename := h
  have havif : Accepted (renditionOf col id .avif).filename := accepted_format .jpeg h .avif
  rw [storedSibling, parse_relativeForDb dataDir hjpeg, avifSibling_jpeg _ hid h,
    ← relativeForDb_onDisk dataDir havif, join_relativeForDb dataDir havif]

/-- What a purge removes for a job whose columns hold stored paths: the files it means to. -/
theorem purgedPaths_files (dataDir : OsPath) {j : StaleJob} (hid : j.id.toList ≠ [])
    (hjpg : Accepted (j.id ++ "." ++ "jpg")) (hout : ∀ p, j.outputPath = some p → Accepted p.filename)
    (hthumb : ∀ p, j.thumbPath = some p → p = renditionOf .thumb j.id .jpeg)
    (hpreview : ∀ p, j.previewPath = some p → p = renditionOf .preview j.id .jpeg) :
    purgedPaths dataDir (j.outputPath.map fun p => relativeForDb (onDisk dataDir p) dataDir)
        (j.thumbPath.map fun p => relativeForDb (onDisk dataDir p) dataDir)
        (j.previewPath.map fun p => relativeForDb (onDisk dataDir p) dataDir) =
      (Purge.files j).map (onDisk dataDir) := by
  have hrendition : ∀ q ∈ [j.thumbPath, j.previewPath].reduceOption,
      ∃ col, q = renditionOf col j.id .jpeg := by
    intro q hq
    simp only [List.reduceOption_mem_iff, List.mem_cons, List.not_mem_nil, or_false] at hq
    rcases hq with hq | hq
    · exact ⟨.thumb, hthumb q hq.symm⟩
    · exact ⟨.preview, hpreview q hq.symm⟩
  have hrecorded : ∀ q ∈ [j.outputPath, j.thumbPath, j.previewPath].reduceOption,
      join dataDir (relativeForDb (onDisk dataDir q) dataDir) = onDisk dataDir q := by
    intro q hq
    apply join_relativeForDb
    simp only [List.reduceOption_mem_iff, List.mem_cons, List.not_mem_nil, or_false] at hq
    rcases hq with hq | hq
    · exact hout q hq.symm
    · obtain ⟨col, rfl⟩ := hrendition q (by simpa [List.reduceOption_mem_iff] using hq)
      exact hjpg
  have hsibling : ∀ q ∈ [j.thumbPath, j.previewPath].reduceOption,
      join dataDir (storedSibling (relativeForDb (onDisk dataDir q) dataDir)) =
        onDisk dataDir (Schema.avifSibling q) := by
    intro q hq
    obtain ⟨col, rfl⟩ := hrendition q hq
    rw [join_storedSibling dataDir hid hjpg, avifSibling_rendition hid]
  have hmap : ∀ l : List (Option DataPath),
      (l.map (Option.map fun p => relativeForDb (onDisk dataDir p) dataDir)).reduceOption =
        l.reduceOption.map fun p => relativeForDb (onDisk dataDir p) dataDir :=
    fun l => List.reduceOption_map
  have hthree := hmap [j.outputPath, j.thumbPath, j.previewPath]
  have htwo := hmap [j.thumbPath, j.previewPath]
  simp only [List.map_cons, List.map_nil] at hthree htwo
  rw [purgedPaths, hthree, htwo, Purge.files, List.map_append, List.map_append]
  simp only [List.map_map, Function.comp_def]
  rw [List.map_congr_left hrecorded, List.map_congr_left hsibling]

/-- The AVIF of a rendition has one name, whether it is taken from the path of the JPEG, absolute
or stored, or made from the id; a stored path leads back to its file; and what a purge removes for
a job is what was written for it. -/
theorem avif_names_agree {dataDir : OsPath} {id : String} {abs : Column → OsPath} (hid : id ≠ "")
    (habs : ∀ col, dataPath dataDir col.subdir (id ++ ".jpg") = .ok (abs col)) :
    (∀ col,
      derivedCachePath dataDir col.subdir id .avif = .ok (avifSibling (abs col)) ∧
      renderOnly dataDir id col.subdir .avif = .ok (avifSibling (abs col)) ∧
      renderAndPersist dataDir id col.subdir .jpeg =
        .ok (abs col, relativeForDb (abs col) dataDir) ∧
      cachedDerivedPath dataDir (some (relativeForDb (abs col) dataDir)) .avif =
        some (avifSibling (abs col)) ∧
      join dataDir (storedSibling (relativeForDb (abs col) dataDir)) = avifSibling (abs col)) ∧
    (∀ subdir filename p, dataPath dataDir subdir filename = .ok p →
      join dataDir (relativeForDb p dataDir) = p) ∧
    ∀ filename output, dataPath dataDir .outputs filename = .ok output →
      ∀ p, p ∈ purgedPaths dataDir (some (relativeForDb output dataDir))
          (some (relativeForDb (abs .thumb) dataDir)) (some (relativeForDb (abs .preview) dataDir)) ↔
        p = output ∨ ∃ (col : Column) (fmt : DerivedFormat),
          renderOnly dataDir id col.subdir fmt = .ok p := by
  have hname : id ++ ".jpg" = id ++ "." ++ "jpg" := by
    rw [String.append_assoc]
    rfl
  have hjpg : Accepted (id ++ "." ++ "jpg") := hname ▸ (dataPath_eq_ok.mp (habs .thumb)).1
  have hnil : id.toList ≠ [] := by simpa using hid
  have hof : ∀ col, abs col = onDisk dataDir (renditionOf col id .jpeg) := by
    intro col
    have hcol := (dataPath_eq_ok.mp (habs col)).2
    rwa [hname] at hcol
  have hsib : ∀ col, avifSibling (abs col) = onDisk dataDir (renditionOf col id .avif) := by
    intro col
    rw [hof, avifSibling_jpeg dataDir hnil hjpg]
  have hback : ∀ subdir filename p, dataPath dataDir subdir filename = .ok p →
      join dataDir (relativeForDb p dataDir) = p := by
    intro subdir filename p hp
    obtain ⟨hfile, rfl⟩ := dataPath_eq_ok.mp hp
    exact join_relativeForDb dataDir hfile
  refine ⟨fun col => ⟨?_, ?_, ?_, ?_, ?_⟩, hback, ?_⟩
  · rw [hsib]
    exact renderOnly_eq dataDir hjpg col .avif
  · rw [hsib]
    exact renderOnly_eq dataDir hjpg col .avif
  · rw [renderAndPersist, renderOnly_eq dataDir hjpg col .jpeg, hof]
    rfl
  · simp only [cachedDerivedPath, Option.map_some, hback _ _ _ (habs col)]
  · rw [hsib, hof, join_storedSibling dataDir hnil hjpg]
  · intro filename output hout p
    obtain ⟨hfile, rfl⟩ := dataPath_eq_ok.mp hout
    -- the row of a job that has all its files
    have hfiles := purgedPaths_files dataDir
      (j := ⟨id, some ⟨.outputs, filename⟩, some (renditionOf .thumb id .jpeg),
        some (renditionOf .preview id .jpeg)⟩) hnil hjpg (by rintro _ ⟨⟩; exact hfile)
      (by rintro _ ⟨⟩; rfl) (by rintro _ ⟨⟩; rfl)
    simp only [Option.map_some, ← hof] at hfiles
    rw [hfiles]
    simp only [Purge.files, List.reduceOption_cons_of_some, List.reduceOption_nil, List.map_cons,
      List.map_nil, List.cons_append, List.nil_append, avifSibling_rendition hnil,
      renderOnly_eq dataDir hjpg, Except.ok.injEq, List.mem_cons, List.not_mem_nil, or_false]
    constructor
    · rintro (rfl | rfl | rfl | rfl | rfl)
      · exact .inl rfl
      · exact .inr ⟨.thumb, .jpeg, rfl⟩
      · exact .inr ⟨.preview, .jpeg, rfl⟩
      · exact .inr ⟨.thumb, .avif, rfl⟩
      · exact .inr ⟨.preview, .avif, rfl⟩
    · rintro (rfl | ⟨col, fmt, rfl⟩)
      · exact .inl rfl
      · cases col <;> cases fmt <;> simp

/-- The JPEG renditions of a job whose id has a dot in it. -/
def dottedJpeg : Column → OsPath
  | .thumb => parse (os "/data/thumbs/a.b.jpg")
  | .preview => parse (os "/data/previews/a.b.jpg")

theorem avif_names_agree_sample :
    "a.b" ≠ "" ∧
      (∀ col, dataPath (parse (os "/data")) col.subdir ("a.b" ++ ".jpg") = .ok (dottedJpeg col)) ∧
      derivedCachePath (parse (os "/data")) Column.thumb.subdir "a.b" .avif =
        .ok (avifSibling (dottedJpeg .thumb)) := by
  have habs : ∀ col, dataPath (parse (os "/data")) col.subdir ("a.b" ++ ".jpg") =
      .ok (dottedJpeg col) := by
    intro col
    cases col <;> rfl
  exact ⟨by decide, habs, ((avif_names_agree (by decide) habs).1 .thumb).1⟩

theorem join_inj {dataDir : OsPath} {sub sub' : Subdir}
    (h : join dataDir sub.name = join dataDir sub'.name) : sub = sub' := by
  obtain ⟨l, n, hl⟩ := parse_subdir sub
  obtain ⟨l', n', hl'⟩ := parse_subdir sub'
  have hparse : parse (os sub.name) = parse (os sub'.name) := by
    simp only [join, hl, hl', UnixPath.Path.join_relative, UnixPath.Path.mk.injEq, true_and,
      List.append_cancel_left_eq] at h
    rw [hl, hl', h]
  revert hparse
  cases sub <;> cases sub' <;> first | exact fun _ => rfl | decide +kernel

/-- Two paths of the server are not the same file. -/
theorem onDisk_inj {dataDir : OsPath} {p q : DataPath} (hp : Accepted p.filename)
    (hq : Accepted q.filename) (hp' : p.filename ≠ ".") (hq' : q.filename ≠ ".")
    (h : onDisk dataDir p = onDisk dataDir q) : p = q := by
  obtain ⟨sub, f⟩ := p
  obtain ⟨sub', g⟩ := q
  obtain ⟨m, hm⟩ := hp.name hp'
  obtain ⟨n, hn⟩ := hq.name hq'
  rw [onDisk_child hm, onDisk_child hn] at h
  obtain ⟨hdir, rfl⟩ := UnixPath.Path.child_inj h
  obtain rfl := join_inj hdir
  have hname : os f = os g :=
    (UnixPath.Name.of?_eq_some hm).symm.trans (UnixPath.Name.of?_eq_some hn)
  rw [os_inj hname]

theorem accepted_uuid {id : String} (hid : isUuid id) : Accepted (id ++ "." ++ "jpg") := by
  have hchars : ∀ c ∈ id.toList, c ≠ '/' ∧ c ≠ '\\' ∧ c ≠ '.' := by
    intro c hc
    have hall : ∀ c : Char, c.isDigit ∨ ('a' ≤ c ∧ c ≤ 'f') ∨ c = '-' →
        c ≠ '/' ∧ c ≠ '\\' ∧ c ≠ '.' := by
      intro c hc
      refine ⟨?_, ?_, ?_⟩ <;> rintro rfl <;> revert hc <;> decide
    exact hall c (hid.2 c hc)
  have hslash : '/' ∉ id.toList := fun h => (hchars _ h).1 rfl
  have hback : '\\' ∉ id.toList := fun h => (hchars _ h).2.1 rfl
  have hdot : '.' ∉ id.toList := fun h => (hchars _ h).2.2 rfl
  refine ⟨by simp, by simp [hslash], by simp [hback], fun h => ?_⟩
  have hdots : ['.', '.'] <:+: id.toList ++ ['.'] := by
    have hext : '.' ∉ "jpg".toList := by decide
    apply dots_before hext
    simpa using h
  have hcount := hdots.sublist.count_le '.'
  simp [List.count_eq_zero_of_not_mem hdot] at hcount

/-- The paths that a purge removes for a job of the server model. -/
theorem purgedPaths_placed (dataDir : OsPath) {j : StaleJob} (hj : Placed j) (hid : isUuid j.id)
    (hout : ∀ p, j.outputPath = some p → Accepted p.filename) :
    purgedPaths dataDir (j.outputPath.map fun p => relativeForDb (onDisk dataDir p) dataDir)
        (j.thumbPath.map fun p => relativeForDb (onDisk dataDir p) dataDir)
        (j.previewPath.map fun p => relativeForDb (onDisk dataDir p) dataDir) =
      (Purge.files j).map (onDisk dataDir) :=
  purgedPaths_files dataDir (toList_ne_nil hid) (accepted_uuid hid) hout hj.thumb hj.preview

end ZunServer.Paths
