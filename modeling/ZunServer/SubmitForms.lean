import ZunServer.Handlers
import ZunServer.Serde

/-!
# The two forms of a submit

`parse_submit` reads what a client asks for from a JSON body or from the parts of a
multipart body, by the content type. The framework's extractors are taken as they are:
a request comes with what they make of its body.
-/
namespace ZunServer.SubmitForms

open Serde
open Schema Calls Handlers
open scoped List

/-- `MultipartError`: whether its status is 413, and its text. -/
structure MultipartError where
  tooLarge : Bool
  text : String
  deriving DecidableEq, Repr

/-- A field of a multipart body, with what `bytes` and `text` return when called on it. -/
structure Part where
  name : Option String
  contentType : Option String
  bytes : Except MultipartError Bytes
  text : Except MultipartError String

/-- The fields that come off a body, and the error that ends it, if one does. -/
structure Multipart where
  parts : List Part
  broken : Option MultipartError

/-- A submit: the content type, if the header is there and is text, and what the
extractors make of the body. An extractor's error is its text; `dataError` is that of a
JSON body which is well formed and does not deserialise. -/
structure RawSubmit where
  contentType : Option String
  multipart : Except String Multipart
  json : Except String Json
  dataError : String

/-- The errors of `AppError` that `parse_submit` returns. -/
inductive FormError where
  | badRequest (e : String)
  | payloadTooLarge (e : String)
  deriving DecidableEq, Repr

/-- `impl From<MultipartError> for AppError`. -/
def MultipartError.toFormError (e : MultipartError) : FormError :=
  if e.tooLarge then .payloadTooLarge s!"upload too large: {e.text}"
  else .badRequest s!"invalid multipart: {e.text}"

/-- The range of an `i64`. -/
def IsI64 (n : Int) : Prop := -9223372036854775808 ≤ n ∧ n ≤ 9223372036854775807

instance (n : Int) : Decidable (IsI64 n) := inferInstanceAs (Decidable (_ ∧ _))

def digits (l : List Char) : Option Int :=
  if l ≠ [] ∧ l.all Char.isDigit = true then some (Nat.ofDigitChars 10 l 0) else none

def signed : List Char → Option Int
  | '-' :: l => (digits l).map Neg.neg
  | '+' :: l => digits l
  | l => digits l

/-- `str::parse::<i64>`: a sign is allowed in front, and nothing else but digits. -/
def parseI64 (s : String) : Option Int := (signed s.toList).filter fun n => IsI64 n

theorem signed_digit {c : Char} (h : c.isDigit = true) (l : List Char) :
    signed (c :: l) = digits (c :: l) := by
  have hminus : c ≠ '-' := by rintro rfl; cases h
  have hplus : c ≠ '+' := by rintro rfl; cases h
  unfold signed
  split
  · rename_i he
    exact absurd (List.cons.inj he).1 hminus
  · rename_i he
    exact absurd (List.cons.inj he).1 hplus
  · rfl

theorem digits_repr (n : Nat) : digits n.repr.toList = some (n : Int) := by
  have hne : Nat.toDigits 10 n ≠ [] := Nat.toDigits_ne_nil
  have hall : (Nat.toDigits 10 n).all Char.isDigit = true :=
    List.all_eq_true.mpr fun c hc => Nat.isDigit_of_mem_toDigits (by decide) (by decide) hc
  rw [Nat.repr_eq_ofList_toDigits, String.toList_ofList, digits, if_pos ⟨hne, hall⟩,
    Nat.ofDigitChars_ten_toDigits]

theorem signed_repr (n : Nat) : signed n.repr.toList = some (n : Int) := by
  rw [← digits_repr n]
  rw [Nat.repr_eq_ofList_toDigits, String.toList_ofList]
  cases h : Nat.toDigits 10 n with
  | nil => exact absurd h Nat.toDigits_ne_nil
  | cons c l =>
    have hc : c ∈ Nat.toDigits 10 n := by simp [h]
    exact signed_digit (Nat.isDigit_of_mem_toDigits (by decide) (by decide) hc) l

/-- A number in decimal is read as it was written. -/
theorem parseI64_toString {n : Int} (h : IsI64 n) : parseI64 (toString n) = some n := by
  have hsigned : signed (toString n).toList = some n := by
    rw [Int.toString_eq_repr, Int.repr_eq_if]
    split
    · rename_i hn
      rw [signed_repr, Int.toNat_of_nonneg hn]
    · rename_i hn
      rw [String.toList_append]
      have hneg : (((-n).toNat : Nat) : Int) = -n := Int.toNat_of_nonneg (by omega)
      show (digits ((-n).toNat.repr.toList)).map Neg.neg = some n
      rw [digits_repr, hneg, Option.map_some, Int.neg_neg]
  rw [parseI64, hsigned, Option.filter_some, if_pos (decide_eq_true h)]

/-- What a field is read as. -/
inductive Reading where
  | skipped
  | image (u : Upload)
  | inputSha256 (t : String)
  | inputName (t : String)
  | promptId (n : Int)
  | promptText (t : String)
  | workflow (t : String)
  deriving DecidableEq, Repr

def imageKind (contentType : String) : Except FormError ImageKind :=
  if contentType = "image/jpeg" then .ok .jpeg
  else if contentType = "image/png" then .ok .png
  else .error (.badRequest (s!"unsupported image content-type '{contentType}' " ++
    "(expected image/jpeg or image/png)"))

/-- A text field that is kept as it is. -/
def Part.readText (p : Part) (r : String → Reading) : Except FormError Reading :=
  match p.text with
  | .error e => .error e.toFormError
  | .ok t => .ok (r t)

/-- The body of the loop of `parse_multipart`, up to the assignment. -/
def Part.read (p : Part) : Except FormError Reading :=
  if p.name = some "image" then
    match imageKind (p.contentType.getD "") with
    | .error e => .error e
    | .ok kind => match p.bytes with
      | .error e => .error e.toFormError
      | .ok bytes => .ok (.image ⟨bytes, kind⟩)
  else if p.name = some "input_sha256" then p.readText .inputSha256
  else if p.name = some "input_name" then p.readText .inputName
  else if p.name = some "prompt_id" then
    match p.text with
    | .error e => .error e.toFormError
    | .ok txt => match parseI64 txt with
      | none => .error (.badRequest "prompt_id must be an integer")
      | some id => .ok (.promptId id)
  else if p.name = some "prompt_text" then p.readText .promptText
  else if p.name = some "workflow" then p.readText .workflow
  else .ok .skipped

/-- The variables of the loop. -/
structure Found where
  inputSha256 : Option String
  inputName : Option String
  promptId : Option Int
  promptText : Option String
  workflow : Option String
  upload : Option Upload
  deriving DecidableEq, Repr

def Found.empty : Found := ⟨none, none, none, none, none, none⟩

def Found.put (acc : Found) : Reading → Found
  | .skipped => acc
  | .image u => { acc with upload := some u }
  | .inputSha256 t => { acc with inputSha256 := some t }
  | .inputName t => { acc with inputName := some t }
  | .promptId n => { acc with promptId := some n }
  | .promptText t => { acc with promptText := some t }
  | .workflow t => { acc with workflow := some t }

/-- The loop of `parse_multipart`; after the last field, `next_field` returns the error that
ends the body, or nothing. -/
def readParts (broken : Option MultipartError) : List Part → Found → Except FormError Found
  | [], acc => match broken with
    | some e => .error e.toFormError
    | none => .ok acc
  | p :: ps, acc => match p.read with
    | .error e => .error e
    | .ok r => readParts broken ps (acc.put r)

/-- `SubmitFields` from the variables. -/
def Found.fields (found : Found) : Except FormError SubmitFields :=
  match found.inputSha256 with
  | none => .error (.badRequest "input_sha256 field required")
  | some sha => .ok ⟨sha, found.inputName, found.promptId, found.promptText, found.workflow,
    found.upload⟩

def parseMultipart (body : Except String Multipart) : Except FormError SubmitFields :=
  match body with
  | .error e => .error (.badRequest s!"invalid multipart: {e}")
  | .ok mp => match readParts mp.broken mp.parts .empty with
    | .error e => .error e
    | .ok found => found.fields

/-- `SubmitJson`. -/
structure SubmitJson where
  inputSha256 : String
  inputName : Option String
  promptId : Option Int
  promptText : Option String
  workflow : Option String
  deriving DecidableEq, Repr

/-- The fields of a struct may also be given as the elements of an array, in their order; those
that have a default may be left out at its end. -/
def SubmitJson.de : De SubmitJson
  | .object o => do
    let inputSha256 ← field none "input_sha256" De.string o
    let inputName ← field (some none) "input_name" De.string.option o
    let promptId ← field (some none) "prompt_id" De.i64.option o
    let promptText ← field (some none) "prompt_text" De.string.option o
    let workflow ← field (some none) "workflow" De.string.option o
    pure ⟨inputSha256, inputName, promptId, promptText, workflow⟩
  | .array l => do
    let inputSha256 ← element none De.string l 0
    let inputName ← element (some none) De.string.option l 1
    let promptId ← element (some none) De.i64.option l 2
    let promptText ← element (some none) De.string.option l 3
    let workflow ← element (some none) De.string.option l 4
    if 5 < l.length then none else pure ⟨inputSha256, inputName, promptId, promptText, workflow⟩
  | _ => none

def SubmitJson.fields (body : SubmitJson) : SubmitFields :=
  ⟨body.inputSha256, body.inputName, body.promptId, body.promptText, body.workflow, none⟩

def isMultipart (ct : String) : Bool := decide ("multipart/form-data".toList <+: ct.toList)
def isJson (ct : String) : Bool := decide ("application/json".toList <+: ct.toList)

def parseSubmit (req : RawSubmit) : Except FormError SubmitFields :=
  let ct := req.contentType.getD ""
  if isMultipart ct then parseMultipart req.multipart
  else if isJson ct then
    match req.json with
    | .error e => .error (.badRequest s!"invalid json: {e}")
    | .ok v => match SubmitJson.de v with
      | some body => .ok body.fields
      | none => .error (.badRequest s!"invalid json: {req.dataError}")
  else .error (.badRequest (s!"unsupported content-type {debug ct}; " ++
    "expected multipart/form-data or application/json"))

def Reading.asInputSha256 : Reading → Option String
  | .inputSha256 t => some t
  | _ => none

def Reading.asInputName : Reading → Option String
  | .inputName t => some t
  | _ => none

def Reading.asPromptId : Reading → Option Int
  | .promptId n => some n
  | _ => none

def Reading.asPromptText : Reading → Option String
  | .promptText t => some t
  | _ => none

def Reading.asWorkflow : Reading → Option String
  | .workflow t => some t
  | _ => none

def Reading.asImage : Reading → Option Upload
  | .image u => some u
  | _ => none

/-- What the last field of a kind was read as. -/
def last {α : Type} (g : Reading → Option α) (rs : List Reading) : Option α :=
  (rs.filterMap g).getLast?

theorem last_cons {α : Type} (g : Reading → Option α) (r : Reading) (rs : List Reading) :
    last g (r :: rs) = (last g rs).or (g r) := by
  unfold last
  rw [List.filterMap_cons]
  cases g r with
  | none => simp
  | some a => cases h : rs.filterMap g <;> simp [List.getLast?_cons]

/-- A variable of the loop ends up with what was assigned last. -/
theorem foldl_last {α : Type} (var : Found → Option α) (g : Reading → Option α)
    (h : ∀ acc r, var (acc.put r) = (g r).or (var acc)) (rs : List Reading) (acc : Found) :
    var (rs.foldl Found.put acc) = (last g rs).or (var acc) := by
  induction rs generalizing acc with
  | nil => rfl
  | cons r rs ih => rw [List.foldl_cons, ih, h, last_cons, Option.or_assoc]

theorem foldl_put (rs : List Reading) : rs.foldl Found.put .empty =
    ⟨last Reading.asInputSha256 rs, last Reading.asInputName rs, last Reading.asPromptId rs,
      last Reading.asPromptText rs, last Reading.asWorkflow rs, last Reading.asImage rs⟩ := by
  have hsha := foldl_last Found.inputSha256 Reading.asInputSha256 (by intro _ r; cases r <;> rfl) rs
    .empty
  have hname := foldl_last Found.inputName Reading.asInputName (by intro _ r; cases r <;> rfl) rs
    .empty
  have hid := foldl_last Found.promptId Reading.asPromptId (by intro _ r; cases r <;> rfl) rs .empty
  have htext := foldl_last Found.promptText Reading.asPromptText (by intro _ r; cases r <;> rfl) rs
    .empty
  have hflow := foldl_last Found.workflow Reading.asWorkflow (by intro _ r; cases r <;> rfl) rs .empty
  have himage := foldl_last Found.upload Reading.asImage (by intro _ r; cases r <;> rfl) rs .empty
  simp only [Found.empty, Option.or_none] at hsha hname hid htext hflow himage
  rw [← hsha, ← hname, ← hid, ← htext, ← hflow, ← himage]
  rfl

/-- Every field was read, each as the list says. -/
def ReadAs (ps : List Part) (rs : List Reading) : Prop :=
  List.Forall₂ (fun p r => Part.read p = .ok r) ps rs

theorem readParts_ok {broken : Option MultipartError} {ps : List Part} {acc found : Found} :
    readParts broken ps acc = .ok found ↔
      broken = none ∧ ∃ rs, ReadAs ps rs ∧ rs.foldl Found.put acc = found := by
  induction ps generalizing acc with
  | nil =>
    cases broken with
    | none => simp [readParts, ReadAs]
    | some e => simp [readParts]
  | cons p ps ih =>
    unfold readParts
    cases hp : p.read with
    | error e => simp [ReadAs, List.forall₂_cons_left_iff, hp]
    | ok r => simp [ih, ReadAs, List.forall₂_cons_left_iff, hp]

/-- The first field that cannot be read, after others that could. -/
def Refuses (ps : List Part) (e : FormError) : Prop :=
  ∃ before p after, ps = before ++ p :: after ∧ (∃ rs, ReadAs before rs) ∧ p.read = .error e

theorem refuses_cons {p : Part} {ps : List Part} {e : FormError} :
    Refuses (p :: ps) e ↔ p.read = .error e ∨ (∃ r, p.read = .ok r) ∧ Refuses ps e := by
  constructor
  · rintro ⟨before, p', after, he, ⟨rs, hrs⟩, hread⟩
    cases hrs with
    | nil =>
      obtain ⟨rfl, -⟩ := List.cons.inj he
      exact .inl hread
    | cons hr hrs =>
      obtain ⟨rfl, rfl⟩ := List.cons.inj he
      exact .inr ⟨⟨_, hr⟩, _, p', after, rfl, ⟨_, hrs⟩, hread⟩
  · rintro (hread | ⟨⟨r, hr⟩, before, p', after, rfl, ⟨rs, hrs⟩, hread⟩)
    · exact ⟨[], p, ps, rfl, ⟨[], .nil⟩, hread⟩
    · exact ⟨p :: before, p', after, rfl, ⟨r :: rs, .cons hr hrs⟩, hread⟩

theorem readParts_error {broken : Option MultipartError} {ps : List Part} {acc : Found}
    {e : FormError} : readParts broken ps acc = .error e ↔ Refuses ps e ∨
      (∃ rs, ReadAs ps rs) ∧ ∃ b, broken = some b ∧ e = b.toFormError := by
  induction ps generalizing acc with
  | nil =>
    have hnone : ¬ Refuses [] e := by
      rintro ⟨before, p, after, he, -⟩
      cases before <;> cases he
    cases broken with
    | none => simp [readParts, hnone]
    | some b => simp [readParts, hnone, ReadAs, eq_comm]
  | cons p ps ih =>
    rw [refuses_cons]
    unfold readParts
    cases hp : p.read with
    | error e' => simp [ReadAs, List.forall₂_cons_left_iff, hp]
    | ok r => simp [ih, ReadAs, List.forall₂_cons_left_iff, hp]

/-- The fields that the last readings of each kind make up. -/
structure Lasts (rs : List Reading) (f : SubmitFields) : Prop where
  inputSha256 : last Reading.asInputSha256 rs = some f.inputSha256
  inputName : last Reading.asInputName rs = f.inputName
  promptId : last Reading.asPromptId rs = f.promptId
  promptText : last Reading.asPromptText rs = f.promptText
  workflow : last Reading.asWorkflow rs = f.workflowOverride
  upload : last Reading.asImage rs = f.upload

theorem fields_ok {rs : List Reading} {f : SubmitFields} :
    (rs.foldl Found.put .empty).fields = .ok f ↔ Lasts rs f := by
  rw [foldl_put]
  constructor
  · intro h
    unfold Found.fields at h
    split at h
    · cases h
    · rename_i sha hsha
      cases h
      exact ⟨hsha, rfl, rfl, rfl, rfl, rfl⟩
  · rintro ⟨hsha, hname, hid, htext, hflow, himage⟩
    simp only [Found.fields, hsha, hname, hid, htext, hflow, himage]

theorem fields_error {rs : List Reading} {e : FormError} :
    (rs.foldl Found.put .empty).fields = .error e ↔
      last Reading.asInputSha256 rs = none ∧ e = .badRequest "input_sha256 field required" := by
  rw [foldl_put]
  unfold Found.fields
  cases last Reading.asInputSha256 rs <;> simp [eq_comm]

theorem multipart_ok {mp : Multipart} {f : SubmitFields} : parseMultipart (.ok mp) = .ok f ↔
    ∃ found, readParts mp.broken mp.parts .empty = .ok found ∧ found.fields = .ok f := by
  unfold parseMultipart
  dsimp only
  cases readParts mp.broken mp.parts .empty <;> simp

theorem multipart_error {mp : Multipart} {e : FormError} : parseMultipart (.ok mp) = .error e ↔
    readParts mp.broken mp.parts .empty = .error e ∨
      ∃ found, readParts mp.broken mp.parts .empty = .ok found ∧ found.fields = .error e := by
  unfold parseMultipart
  dsimp only
  cases readParts mp.broken mp.parts .empty <;> simp

theorem multipart_taken {mp : Multipart} {f : SubmitFields} : parseMultipart (.ok mp) = .ok f ↔
    mp.broken = none ∧ ∃ rs, ReadAs mp.parts rs ∧ Lasts rs f := by
  rw [multipart_ok]
  constructor
  · rintro ⟨found, hread, hfields⟩
    obtain ⟨hbroken, rs, hrs, rfl⟩ := readParts_ok.mp hread
    exact ⟨hbroken, rs, hrs, fields_ok.mp hfields⟩
  · rintro ⟨hbroken, rs, hrs, hlasts⟩
    exact ⟨_, readParts_ok.mpr ⟨hbroken, rs, hrs, rfl⟩, fields_ok.mpr hlasts⟩

/-- For every multipart body: it is taken exactly when it ends well, every field of it can be
read and one of them is the hash, and then the last field of each name counts; else the error is
that of the first field that cannot be read, or the one that ends the body, or says that the
hash is missing. -/
theorem multipart_read (mp : Multipart) :
    (∀ f, parseMultipart (.ok mp) = .ok f ↔
      mp.broken = none ∧ ∃ rs, ReadAs mp.parts rs ∧ Lasts rs f) ∧
    ∀ e, parseMultipart (.ok mp) = .error e ↔ Refuses mp.parts e ∨
      ((∃ rs, ReadAs mp.parts rs) ∧ ∃ b, mp.broken = some b ∧ e = b.toFormError) ∨
      (mp.broken = none ∧ ∃ rs, ReadAs mp.parts rs ∧ last Reading.asInputSha256 rs = none ∧
        e = .badRequest "input_sha256 field required") := by
  refine ⟨fun f => multipart_taken, fun e => ?_⟩
  rw [multipart_error, readParts_error, or_assoc]
  refine or_congr_right (or_congr_right ?_)
  constructor
  · rintro ⟨found, hread, hfields⟩
    obtain ⟨hbroken, rs, hrs, rfl⟩ := readParts_ok.mp hread
    exact ⟨hbroken, rs, hrs, fields_error.mp hfields⟩
  · rintro ⟨hbroken, rs, hrs, hmissing⟩
    exact ⟨_, readParts_ok.mpr ⟨hbroken, rs, hrs, rfl⟩, fields_error.mpr hmissing⟩

/-- The entries of a form with these fields. -/
def entries (f : SubmitFields) : List Reading :=
  .inputSha256 f.inputSha256 :: ((f.inputName.map Reading.inputName).toList ++
    (f.promptId.map Reading.promptId).toList ++ (f.promptText.map Reading.promptText).toList ++
    (f.workflowOverride.map Reading.workflow).toList ++ (f.upload.map Reading.image).toList)

def fieldNames : List (Option String) :=
  [some "image", some "input_sha256", some "input_name", some "prompt_id", some "prompt_text",
    some "workflow"]

/-- How a client sends an entry. What is skipped is a field of any other name. -/
def SentAs : Reading → Part → Prop
  | .skipped, p => p.name ∉ fieldNames
  | .image u, p => p.name = some "image" ∧ p.contentType = some u.kind.contentType ∧
    p.bytes = .ok u.bytes
  | .inputSha256 t, p => p.name = some "input_sha256" ∧ p.text = .ok t
  | .inputName t, p => p.name = some "input_name" ∧ p.text = .ok t
  | .promptId n, p => p.name = some "prompt_id" ∧ p.text = .ok (toString n) ∧ IsI64 n
  | .promptText t, p => p.name = some "prompt_text" ∧ p.text = .ok t
  | .workflow t, p => p.name = some "workflow" ∧ p.text = .ok t

/-- A submit of these fields: a form with its entries in any order and other fields anywhere
between them, or, without an image, a JSON object. -/
inductive Sent (f : SubmitFields) (req : RawSubmit) : Prop
  | form {ct : String} {mp : Multipart} {rs : List Reading} (hct : req.contentType = some ct)
      (hform : isMultipart ct = true) (hmp : req.multipart = .ok mp) (hend : mp.broken = none)
      (hsent : List.Forall₂ SentAs rs mp.parts)
      (hentries : (rs.filter fun r => r ≠ .skipped).Perm (entries f)) : Sent f req
  | object {ct : String} {o : List (String × Json)} (hct : req.contentType = some ct)
      (hform : isMultipart ct = false) (hjson : isJson ct = true) (ho : req.json = .ok (.object o))
      (hsha : valuesAt "input_sha256" o = [.string f.inputSha256])
      (hname : Given "input_name" De.string o f.inputName)
      (hid : Given "prompt_id" De.i64 o f.promptId)
      (htext : Given "prompt_text" De.string o f.promptText)
      (hflow : Given "workflow" De.string o f.workflowOverride) (himage : f.upload = none) :
      Sent f req

theorem read_sent {r : Reading} {p : Part} (h : SentAs r p) : p.read = .ok r := by
  cases r with
  | skipped =>
    simp only [SentAs, fieldNames, List.mem_cons, not_or] at h
    simp [Part.read, h]
  | image u =>
    obtain ⟨hname, hct, hbytes⟩ := h
    have hkind : imageKind u.kind.contentType = .ok u.kind := by cases u.kind <;> rfl
    simp [Part.read, hname, hct, hkind, hbytes]
  | promptId n =>
    obtain ⟨hname, htext, hn⟩ := h
    simp only [Part.read, hname, htext, parseI64_toString hn]
    rfl
  | inputSha256 t | inputName t | promptText t | workflow t =>
    obtain ⟨hname, htext⟩ := h
    simp [Part.read, Part.readText, hname, htext]

theorem filterMap_entry {α β : Type} (g : Reading → Option α) (c : β → Reading) (o : Option β) :
    (o.map c).toList.filterMap g = (o.bind fun b => g (c b)).toList := by
  cases o with
  | none => rfl
  | some b => cases h : g (c b) <;> simp [h]

/-- With one entry of a kind at most, the order is of no account. -/
theorem last_entries {α : Type} {g : Reading → Option α} (hskip : g .skipped = none)
    {rs : List Reading} {f : SubmitFields}
    (h : (rs.filter fun r => r ≠ .skipped).Perm (entries f)) {o : Option α}
    (hg : (entries f).filterMap g = o.toList) : last g rs = o := by
  have hfilter : (rs.filter fun r => r ≠ .skipped).filterMap g = rs.filterMap g := by
    rw [List.filterMap_filter]
    congr 1
    funext r
    by_cases hr : r = .skipped <;> simp [hr, hskip]
  have hperm : (rs.filterMap g).Perm o.toList := by
    rw [← hfilter, ← hg]
    exact h.filterMap g
  have heq : rs.filterMap g = o.toList := by
    cases o with
    | none => exact hperm.eq_nil
    | some a => exact List.perm_singleton.mp hperm
  rw [last, heq]
  cases o <;> rfl

theorem lasts_entries {rs : List Reading} {f : SubmitFields}
    (h : (rs.filter fun r => r ≠ .skipped).Perm (entries f)) : Lasts rs f where
  inputSha256 := last_entries rfl h (by simp [entries, filterMap_entry, Reading.asInputSha256])
  inputName := last_entries rfl h (by simp [entries, List.filterMap_cons, filterMap_entry, Reading.asInputName])
  promptId := last_entries rfl h (by simp [entries, List.filterMap_cons, filterMap_entry, Reading.asPromptId])
  promptText := last_entries rfl h (by simp [entries, List.filterMap_cons, filterMap_entry, Reading.asPromptText])
  workflow := last_entries rfl h (by simp [entries, List.filterMap_cons, filterMap_entry, Reading.asWorkflow])
  upload := last_entries rfl h (by simp [entries, List.filterMap_cons, filterMap_entry, Reading.asImage])

theorem string_iff {v : Json} {s : String} : De.string v = some s ↔ v = .string s := by
  cases v <;> simp [De.string]

/-- A JSON object is read by its keys. -/
theorem object_read {o : List (String × Json)} {body : SubmitJson} :
    SubmitJson.de (.object o) = some body ↔ valuesAt "input_sha256" o = [.string body.inputSha256] ∧
      Given "input_name" De.string o body.inputName ∧ Given "prompt_id" De.i64 o body.promptId ∧
      Given "prompt_text" De.string o body.promptText ∧
      Given "workflow" De.string o body.workflow := by
  have hsha : ∀ s, field none "input_sha256" De.string o = some s ↔
      valuesAt "input_sha256" o = [.string s] := by
    intro s
    rw [field_none_iff]
    constructor
    · rintro ⟨v, hv, hs⟩
      rw [hv, string_iff.mp hs]
    · exact fun hv => ⟨_, hv, rfl⟩
  simp only [SubmitJson.de, Option.bind_eq_bind, Option.bind_eq_some_iff, hsha, field_option_iff,
    Option.pure_def, Option.some.injEq]
  constructor
  · rintro ⟨sha, hv, name, hname, id, hid, text, htext, flow, hflow, rfl⟩
    exact ⟨hv, hname, hid, htext, hflow⟩
  · rintro ⟨hv, hname, hid, htext, hflow⟩
    exact ⟨_, hv, _, hname, _, hid, _, htext, _, hflow, rfl⟩

/-- For all fields of a submit: however a client sends them, as a form with its entries in any
order and other fields between them, or as a JSON object, they are read as they were sent. -/
theorem sent_parsed {f : SubmitFields} {req : RawSubmit} (h : Sent f req) :
    parseSubmit req = .ok f := by
  cases h with
  | @form ct mp rs hct hform hmp hend hsent hentries =>
    have hread : ReadAs mp.parts rs := (hsent.imp fun r p => read_sent).flip
    simp only [parseSubmit, hct, Option.getD_some, hform, ↓reduceIte, hmp]
    exact multipart_taken.mpr ⟨hend, rs, hread, lasts_entries hentries⟩
  | @object ct o hct hform hjson ho hsha hname hid htext hflow himage =>
    have hbody : SubmitJson.de (.object o) =
        some ⟨f.inputSha256, f.inputName, f.promptId, f.promptText, f.workflowOverride⟩ :=
      object_read.mpr ⟨hsha, hname, hid, htext, hflow⟩
    simp only [parseSubmit, hct, Option.getD_some, hform, Bool.false_eq_true, hjson, ↓reduceIte, ho,
      hbody, SubmitJson.fields, ← himage]

def sampleParts : List Part :=
  [⟨some "comment", none, .error ⟨true, "field too large"⟩, .error ⟨true, "field too large"⟩⟩,
    ⟨some "prompt_id", none, .ok [45, 55], .ok "-7"⟩,
    ⟨some "image", some "image/png", .ok [97, 98, 99], .ok "abc"⟩,
    ⟨some "input_sha256", none, .ok [97], .ok "a"⟩]

def sampleObject : List (String × Json) :=
  [("prompt_id", .int (-7)), ("seed", .int 3), ("input_name", .null), ("input_sha256", .string "a")]

/-- A form with an image and an object without it. -/
theorem sent_parsed_sample :
    parseSubmit ⟨some "multipart/form-data; boundary=b", .ok ⟨sampleParts, none⟩, .error "", ""⟩ =
      .ok ⟨"a", none, some (-7), none, none, some ⟨[97, 98, 99], .png⟩⟩ ∧
    parseSubmit ⟨some "application/json", .error "", .ok (.object sampleObject), ""⟩ =
      .ok ⟨"a", none, some (-7), none, none, none⟩ := by
  constructor
  · have hsent : List.Forall₂ SentAs [.skipped, .promptId (-7), .image ⟨[97, 98, 99], .png⟩,
        .inputSha256 "a"] sampleParts := by
      refine .cons ?_ (.cons ?_ (.cons ?_ (.cons ?_ .nil)))
      · simp [SentAs, fieldNames]
      · have htext : toString (-7 : Int) = "-7" := by decide +kernel
        exact ⟨rfl, by rw [htext], by decide⟩
      · exact ⟨rfl, rfl, rfl⟩
      · exact ⟨rfl, rfl⟩
    exact sent_parsed (.form rfl (by decide +kernel) rfl rfl hsent (by decide +kernel))
  · have hsha : valuesAt "input_sha256" sampleObject = [.string "a"] := by
      simp [valuesAt, sampleObject]
    have hname : valuesAt "input_name" sampleObject = [.null] := by simp [valuesAt, sampleObject]
    have hid : valuesAt "prompt_id" sampleObject = [.int (-7)] := by simp [valuesAt, sampleObject]
    have htext : valuesAt "prompt_text" sampleObject = [] := by simp [valuesAt, sampleObject]
    have hflow : valuesAt "workflow" sampleObject = [] := by simp [valuesAt, sampleObject]
    exact sent_parsed (.object rfl (by decide +kernel) (by decide +kernel) rfl hsha (.inr hname)
      ⟨_, hid, Json.noConfusion, rfl⟩ (.inl htext) (.inl hflow) rfl)

end ZunServer.SubmitForms
