import Mathlib.Data.Rat.Defs
import Mathlib.Data.List.Infix
import ZunServer.KeyedTable
import ZunServer.Redact

/-!
# The database schema and the data directory

The rows of migrations 0003 and 0004, and the names of files under `data_dir`.
A path column holds the `data_dir`-relative form of a path that `data_path`
built, so it is kept as the pair of its subdirectory and its file name.
-/
namespace ZunServer.Schema

open KeyedTable

inductive Status where
  | queued | running | done | failed | cancelled
  deriving DecidableEq, Repr

/-- A job that the worker may still have to run or finish. -/
def Status.live : Status → Bool
  | .queued | .running => true
  | .done | .failed | .cancelled => false

/-- `paths::subdir`. -/
inductive Subdir where
  | cacheInputs | outputs | thumbs | previews
  deriving DecidableEq, Repr

def Subdir.name : Subdir → String
  | .cacheInputs => "cache/inputs"
  | .outputs => "outputs"
  | .thumbs => "thumbs"
  | .previews => "previews"

structure DataPath where
  sub : Subdir
  filename : String
  deriving DecidableEq, Repr

def DataPath.display (p : DataPath) : String := p.sub.name ++ "/" ++ p.filename

/-- `char::escape_debug`, as the characters of a string are escaped: what does not print is shown
by its number. -/
def escapeDebug (c : Char) : String :=
  match c with
  | '\x00' => "\\0"
  | '\t' => "\\t"
  | '\r' => "\\r"
  | '\n' => "\\n"
  | '\\' => "\\\\"
  | '"' => "\\\""
  | ' ' => " "
  | c =>
    if c.toNat < 0x20 ∨ 0x7f ≤ c.toNat ∧ c.toNat ≤ 0x9f ∨ Redact.isWhitespace c then
      "\\u\x7b" ++ String.ofList (Nat.toDigits 16 c.toNat) ++ "\x7d"
    else c.toString

/-- `{:?}` of a string. -/
def debug (s : String) : String := "\"" ++ String.join (s.toList.map escapeDebug) ++ "\""

/-- `paths::data_path`: the only way a path under `data_dir` is made. -/
def dataPath (sub : Subdir) (filename : String) : Except String DataPath :=
  if filename.toList = [] ∨ '/' ∈ filename.toList ∨ '\\' ∈ filename.toList ∨
      ['.', '.'] <:+: filename.toList then
    .error s!"invalid filename for data path: {debug filename}"
  else .ok ⟨sub, filename⟩

theorem dataPath_ok {sub : Subdir} {filename : String} {p : DataPath}
    (h : dataPath sub filename = .ok p) : p = ⟨sub, filename⟩ := by
  unfold dataPath at h
  split at h
  · cases h
  · exact (Except.ok.inj h).symm

/-- The name before and after its last dot. -/
def splitLastDot (name : List Char) : Option (List Char × List Char) :=
  match name.reverse.dropWhile (· ≠ '.') with
  | [] => none
  | _ :: stem => some (stem.reverse, (name.reverse.takeWhile (· ≠ '.')).reverse)

/-- `Path::file_stem`: a name that is only a leading dot and more has no extension. -/
def fileStem (name : List Char) : List Char :=
  match splitLastDot name with
  | none | some ([], _) => name
  | some (stem, _) => stem

/-- `Path::extension`. -/
def extension (name : List Char) : Option (List Char) :=
  match splitLastDot name with
  | none | some ([], _) => none
  | some (_, ext) => some ext

/-- `derived_images::avif_sibling`, that is `with_extension("avif")`. -/
def avifSibling (p : DataPath) : DataPath :=
  ⟨p.sub, String.ofList (fileStem p.filename.toList) ++ ".avif"⟩

theorem splitLastDot_append (stem ext : List Char) (hext : '.' ∉ ext) :
    splitLastDot (stem ++ '.' :: ext) = some (stem, ext) := by
  have hrev : (stem ++ '.' :: ext).reverse = ext.reverse ++ '.' :: stem.reverse := by simp
  have hall : ∀ c ∈ ext.reverse, decide (c ≠ '.') = true := by
    intro c hc
    have hmem : c ∈ ext := List.mem_reverse.mp hc
    exact decide_eq_true (fun he => hext (he ▸ hmem))
  unfold splitLastDot
  rw [hrev, List.dropWhile_append_of_pos hall, List.takeWhile_append_of_pos hall]
  simp

theorem fileStem_append {stem ext : List Char} (hstem : stem ≠ []) (hext : '.' ∉ ext) :
    fileStem (stem ++ '.' :: ext) = stem := by
  unfold fileStem
  rw [splitLastDot_append stem ext hext]
  cases stem with
  | nil => exact absurd rfl hstem
  | cons c cs => rfl

/-- A row of `jobs`. -/
structure JobRow where
  id : String
  inputId : Int
  sourcePromptId : Option Int
  promptText : String
  workflow : String
  timeoutSeconds : Option Int
  seed : Int
  status : Status
  comfyPromptId : Option String
  outputPath : Option DataPath
  thumbPath : Option DataPath
  errorMessage : Option String
  width : Option Int
  height : Option Int
  createdAt : Int
  startedAt : Option Int
  completedAt : Option Int
  deletedAt : Option Int
  previewPath : Option DataPath
  progress : ℚ
  deriving DecidableEq, Repr

/-- A row of `inputs`; `sha256` is UNIQUE. -/
structure InputRow where
  id : Int
  sha256 : String
  path : Option DataPath
  originalName : Option String
  contentType : Option String
  sizeBytes : Option Int
  width : Option Int
  height : Option Int
  createdAt : Int
  lastUsedAt : Int
  deriving DecidableEq, Repr

/-- A row of `custom_prompts`. -/
structure PromptRow where
  id : Int
  label : String
  description : Option String
  text : String
  workflow : String
  timeoutSeconds : Option Int
  createdAt : Int
  updatedAt : Int
  deletedAt : Option Int
  deriving DecidableEq, Repr

abbrev Jobs := Table JobRow.id
abbrev Inputs := Table InputRow.id
abbrev Prompts := Table PromptRow.id

/-- The two rendition columns of a job, with the directory each one points into. -/
inductive Column where
  | thumb | preview
  deriving DecidableEq, Repr

def Column.subdir : Column → Subdir
  | .thumb => .thumbs
  | .preview => .previews

def Column.get (r : JobRow) : Column → Option DataPath
  | .thumb => r.thumbPath
  | .preview => r.previewPath

abbrev Bytes := List UInt8

/-- The files under `data_dir`. -/
abbrev Files := DataPath → Option Bytes

def Files.put (fs : Files) (p : DataPath) (b : Option Bytes) : Files :=
  fun q => if q = p then b else fs q

@[simp] theorem Files.put_same (fs : Files) (p : DataPath) (b : Option Bytes) :
    Files.put fs p b p = b := by simp [Files.put]

@[simp] theorem Files.put_other (fs : Files) (p q : DataPath) (b : Option Bytes) (h : q ≠ p) :
    Files.put fs p b q = fs q := by simp [Files.put, h]

/-- A write makes no other file go away. -/
theorem Files.put_isSome {fs : Files} {p : DataPath} (h : (fs p).isSome = true) (q : DataPath)
    (b : Bytes) : (fs.put q (some b) p).isSome = true := by
  by_cases hq : p = q
  · subst hq
    simp
  · rw [Files.put_other _ _ _ _ hq]
    exact h

/-- A removal makes no other file appear. -/
theorem Files.put_none {fs : Files} {p : DataPath} (h : fs p = none) (q : DataPath) :
    fs.put q none p = none := by
  by_cases hq : p = q
  · subst hq
    simp
  · rw [Files.put_other _ _ _ _ hq]
    exact h

end ZunServer.Schema
