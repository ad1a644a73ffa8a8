import Mathlib.Data.List.Forall2
import Mathlib.Data.Rat.Defs
import ZunServer.BinaryFloat

/-!
# JSON values and derived deserialisation

What serde derives for a struct with named fields, as far as the value goes: an
unknown key is skipped, a known one given twice is an error, a missing one takes
its default. The text of an error is left out. Then a value is read by its keys,
with null for whatever is not there. The last section walks a value and puts
something in the place of its strings, which leaves its shape.
-/
namespace Serde

inductive Json where
  | null
  | bool (b : Bool)
  | int (n : Int)
  | float (x : ℚ)
  | string (s : String)
  | array (l : List Json)
  | object (o : List (String × Json))

/-- A deserialiser; `none` is an error. -/
abbrev De (α : Type) := Json → Option α

def De.string : De String
  | .string s => some s
  | _ => none

def De.i64 : De Int
  | .int n => if -9223372036854775808 ≤ n ∧ n ≤ 9223372036854775807 then some n else none
  | _ => none

def De.bool : De Bool
  | .bool b => some b
  | _ => none

/-- `Vec`. -/
def De.array {α : Type} (de : De α) : De (List α)
  | .array l => l.mapM de
  | _ => none

/-- A map with strings for its keys; the entries stand as they were parsed. -/
def De.map {α : Type} (de : De α) : De (List (String × α))
  | .object o => o.mapM fun kv => (de kv.2).map fun a => (kv.1, a)
  | _ => none

/-- `null` is the outermost `None`, whatever `α` is. -/
def De.option {α : Type} (de : De α) : De (Option α)
  | .null => some none
  | v => (de v).map some

@[simp] theorem De.option_null {α : Type} (de : De α) : De.option de .null = some none := rfl

theorem De.option_value {α : Type} (de : De α) {v : Json} (hv : v ≠ .null) :
    De.option de v = (de v).map some := by
  cases v with
  | null => exact absurd rfl hv
  | _ => rfl

/-- The values an object has under a key, in order. -/
def valuesAt (key : String) (o : List (String × Json)) : List Json :=
  (o.filter (fun kv => kv.1 = key)).map Prod.snd

/-- A field of a derived `Deserialize`; `missing` is what becomes of an absent key. -/
def field {α : Type} (missing : Option α) (key : String) (de : De α) (o : List (String × Json)) :
    Option α :=
  match valuesAt key o with
  | [] => missing
  | [v] => de v
  | _ => none

/-- The same field in an array, which has the fields in their order. -/
def element {α : Type} (missing : Option α) (de : De α) (l : List Json) (i : Nat) : Option α :=
  match l[i]? with
  | none => missing
  | some v => de v

/-- A field that was read is absent or given once. -/
theorem field_some {α : Type} {missing : Option α} {key : String} {de : De α}
    {o : List (String × Json)} {x : α} (h : field missing key de o = some x) :
    (valuesAt key o = [] ∧ missing = some x) ∨ ∃ v, valuesAt key o = [v] ∧ de v = some x := by
  unfold field at h
  split at h
  · rename_i hv
    exact .inl ⟨hv, h⟩
  · rename_i v hv
    exact .inr ⟨v, hv, h⟩
  · cases h

/-- An object gives an optional value: null stands for none as the key's absence does. -/
def Given {α : Type} (key : String) (de : De α) (o : List (String × Json)) : Option α → Prop
  | none => valuesAt key o = [] ∨ valuesAt key o = [.null]
  | some a => ∃ v, valuesAt key o = [v] ∧ v ≠ .null ∧ de v = some a

theorem field_none_iff {α : Type} {key : String} {de : De α} {o : List (String × Json)} {a : α} :
    field none key de o = some a ↔ ∃ v, valuesAt key o = [v] ∧ de v = some a := by
  constructor
  · intro h
    rcases field_some h with ⟨-, h⟩ | h
    · cases h
    · exact h
  · rintro ⟨v, hv, h⟩
    simp only [field, hv, h]

theorem field_option_iff {α : Type} {key : String} {de : De α} {o : List (String × Json)}
    {x : Option α} : field (some none) key de.option o = some x ↔ Given key de o x := by
  constructor
  · intro h
    rcases field_some h with ⟨hv, h⟩ | ⟨v, hv, h⟩
    · cases h
      exact .inl hv
    · by_cases hnull : v = .null
      · subst hnull
        cases h
        exact .inr hv
      · rw [De.option_value de hnull] at h
        obtain ⟨a, ha, rfl⟩ := Option.map_eq_some_iff.mp h
        exact ⟨v, hv, hnull, ha⟩
  · intro h
    cases x with
    | none => rcases h with hv | hv <;> simp [field, hv]
    | some a =>
      obtain ⟨v, hv, hnull, ha⟩ := h
      simp only [field, hv, De.option_value de hnull, ha, Option.map_some]

/-- `v[key]`; whatever is not there is null. A parsed object has a key once at most. -/
def Json.get (v : Json) (key : String) : Json :=
  match v with
  | .object o => (o.lookup key).getD .null
  | _ => .null

def Json.asStr : Json → Option String
  | .string s => some s
  | _ => none

/-- A number that has a point or an exponent is an `f64` since it was parsed. -/
def Json.asF64 : Json → Option ℚ
  | .int n => some (BinaryFloat.f64.round n)
  | .float x => some x
  | _ => none

def Json.isNull : Json → Bool
  | .null => true
  | _ => false

/-- A fact about values, by induction over the values inside them. -/
@[elab_as_elim]
theorem Json.inside {motive : Json → Prop} (null : motive .null) (bool : ∀ b, motive (.bool b))
    (int : ∀ n, motive (.int n)) (float : ∀ x, motive (.float x))
    (string : ∀ s, motive (.string s)) (array : ∀ l, (∀ v ∈ l, motive v) → motive (.array l))
    (object : ∀ o, (∀ kv ∈ o, motive kv.2) → motive (.object o)) (v : Json) : motive v := by
  refine Json.rec (motive_1 := motive) (motive_2 := fun l => ∀ v ∈ l, motive v)
    (motive_3 := fun o => ∀ kv ∈ o, motive kv.2) (motive_4 := fun kv => motive kv.2)
    null bool int float string array object ?_ ?_ ?_ ?_ ?_ v
  · simp
  · intro v l hv hl
    simpa using ⟨hv, hl⟩
  · simp
  · intro kv o hkv ho
    simpa using ⟨hkv, fun k v => ho (k, v)⟩
  · intro k v hv
    exact hv

mutual

/-- Put something in the place of every string. -/
def Json.mapStrings (f : String → Json) : Json → Json
  | .string s => f s
  | .array l => .array (mapArray f l)
  | .object o => .object (mapObject f o)
  | v => v

def Json.mapArray (f : String → Json) : List Json → List Json
  | [] => []
  | v :: l => v.mapStrings f :: mapArray f l

def Json.mapObject (f : String → Json) : List (String × Json) → List (String × Json)
  | [] => []
  | (k, v) :: o => (k, v.mapStrings f) :: mapObject f o

end

mutual

/-- The strings in a value, keys apart. -/
def Json.strings : Json → List String
  | .string s => [s]
  | .array l => arrayStrings l
  | .object o => objectStrings o
  | _ => []

def Json.arrayStrings : List Json → List String
  | [] => []
  | v :: l => v.strings ++ arrayStrings l

def Json.objectStrings : List (String × Json) → List String
  | [] => []
  | (_, v) :: o => v.strings ++ objectStrings o

end

theorem Json.mapArray_eq (f : String → Json) (l : List Json) :
    mapArray f l = l.map (mapStrings f) := by
  induction l with
  | nil => rfl
  | cons v l ih => simp [mapArray, ih]

theorem Json.mapObject_eq (f : String → Json) (o : List (String × Json)) :
    mapObject f o = o.map fun kv => (kv.1, kv.2.mapStrings f) := by
  induction o with
  | nil => rfl
  | cons kv o ih => simp [mapObject, ih]

theorem Json.arrayStrings_eq (l : List Json) : arrayStrings l = l.flatMap strings := by
  induction l with
  | nil => rfl
  | cons v l ih => simp [arrayStrings, ih]

theorem Json.objectStrings_eq (o : List (String × Json)) :
    objectStrings o = o.flatMap fun kv => kv.2.strings := by
  induction o with
  | nil => rfl
  | cons kv o ih => simp [objectStrings, ih]

/-- Two passes are one. -/
theorem Json.mapStrings_mapStrings (f g : String → Json) (v : Json) :
    (v.mapStrings f).mapStrings g = v.mapStrings fun s => (f s).mapStrings g := by
  induction v using Json.inside with
  | array l ih => simpa [mapStrings, mapArray_eq] using ih
  | object o ih => simpa [mapStrings, mapObject_eq] using fun k v h => ih (k, v) h
  | _ => rfl

theorem Json.mapStrings_eq_iff {f g : String → Json} {v : Json} :
    v.mapStrings f = v.mapStrings g ↔ ∀ s ∈ v.strings, f s = g s := by
  induction v using Json.inside with
  | string s => simp [mapStrings, strings]
  | array l ih =>
    simp only [mapStrings, mapArray_eq, Json.array.injEq, List.map_inj_left, strings,
      arrayStrings_eq, List.mem_flatMap]
    constructor
    · rintro h s ⟨v, hv, hs⟩
      exact (ih v hv).mp (h v hv) s hs
    · intro h v hv
      exact (ih v hv).mpr fun s hs => h s ⟨v, hv, hs⟩
  | object o ih =>
    simp only [mapStrings, mapObject_eq, Json.object.injEq, List.map_inj_left, strings,
      objectStrings_eq, List.mem_flatMap, Prod.mk.injEq, true_and]
    constructor
    · rintro h s ⟨kv, hkv, hs⟩
      exact (ih kv hkv).mp (h kv hkv) s hs
    · intro h kv hkv
      exact (ih kv hkv).mpr fun s hs => h s ⟨kv, hkv, hs⟩
  | _ => simp [mapStrings, strings]

/-- Two values that differ in strings only, and there only where the first has one of the
`needles`: the keys of an object, the length of an array and all other leaves are the same. -/
inductive Json.SameShape (needles : List String) : Json → Json → Prop where
  | null : SameShape needles .null .null
  | bool (b : Bool) : SameShape needles (.bool b) (.bool b)
  | int (n : Int) : SameShape needles (.int n) (.int n)
  | float (x : ℚ) : SameShape needles (.float x) (.float x)
  | string (s r : String) (h : s ∉ needles → r = s) : SameShape needles (.string s) (.string r)
  | array (l m : List Json) (h : List.Forall₂ (SameShape needles) l m) :
    SameShape needles (.array l) (.array m)
  | object (o u : List (String × Json)) (hkeys : o.map Prod.fst = u.map Prod.fst)
    (h : List.Forall₂ (SameShape needles) (o.map Prod.snd) (u.map Prod.snd)) :
    SameShape needles (.object o) (.object u)

/-- Strings for strings leave the shape. -/
theorem Json.sameShape_mapStrings {needles : List String} {f : String → String}
    (hf : ∀ s, s ∉ needles → f s = s) (v : Json) :
    v.SameShape needles (v.mapStrings fun s => .string (f s)) := by
  induction v using Json.inside with
  | null => exact .null
  | bool b => exact .bool b
  | int n => exact .int n
  | float x => exact .float x
  | string s => exact .string s (f s) (hf s)
  | array l ih =>
    apply SameShape.array
    rw [mapArray_eq, List.forall₂_map_right_iff, List.forall₂_same]
    exact ih
  | object o ih =>
    rw [mapStrings, mapObject_eq]
    apply SameShape.object
    · simp [Function.comp_def]
    · simp only [List.map_map, List.forall₂_map_left_iff, List.forall₂_map_right_iff,
        Function.comp_apply, List.forall₂_same]
      exact ih

end Serde
