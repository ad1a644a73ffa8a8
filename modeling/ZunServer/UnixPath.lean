import Mathlib.Data.List.Infix
import Mathlib.Data.Option.Basic

/-!
# Unix paths

A path is read by its components, and two texts with the same components are one
path: repeated slashes, a slash at the end and a `.` after the start make no
difference. The letters of a name are left open, for a name need not be text.
-/
namespace UnixPath

/-- Letters, among them the two that mean something in a path. -/
class Letters (α : Type*) where
  slash : α
  dot : α
  slash_ne_dot : slash ≠ dot

open Letters

/-- The name of a file, not `.` or `..`. -/
structure Name (α : Type*) [Letters α] where
  letters : List α
  nonempty : letters ≠ []
  no_slash : slash ∉ letters
  not_here : letters ≠ [dot]
  not_up : letters ≠ [dot, dot]
  deriving DecidableEq

inductive Segment (α : Type*) [Letters α] where
  | up
  | name (n : Name α)
  deriving DecidableEq

/-- Where a path starts: at the root, at a leading `.`, or at neither. -/
inductive Start where
  | root | here | none
  deriving DecidableEq

structure Path (α : Type*) [Letters α] where
  start : Start
  segments : List (Segment α)
  deriving DecidableEq

variable {α : Type*} [Letters α]

def Segment.letters : Segment α → List α
  | .up => [dot, dot]
  | .name n => n.letters

theorem Segment.nonempty (x : Segment α) : x.letters ≠ [] := by
  cases x with
  | up => simp [Segment.letters]
  | name n => exact n.nonempty

theorem Segment.no_slash (x : Segment α) : slash ∉ x.letters := by
  cases x with
  | up => simp [Segment.letters, slash_ne_dot]
  | name n => exact n.no_slash

theorem Segment.not_here (x : Segment α) : x.letters ≠ [dot] := by
  cases x with
  | up => simp [Segment.letters]
  | name n => exact n.not_here

namespace Path

/-- The empty path. -/
def empty : Path α := ⟨.none, []⟩

/-- A path that starts nowhere. -/
def relative (l : List (Segment α)) : Path α := ⟨.none, l⟩

/-- What is called `n` in the directory. -/
def child (p : Path α) (n : Name α) : Path α := ⟨p.start, p.segments ++ [.name n]⟩

/-- A path that starts at the root stands for itself. -/
def join (p q : Path α) : Path α :=
  match q.start, p.start, p.segments with
  | .root, _, _ | _, .none, [] => q
  | _, start, segments => ⟨start, segments ++ q.segments⟩

def fileName (p : Path α) : Option (Name α) :=
  match p.segments.getLast? with
  | some (.name n) => some n
  | _ => none

def parent (p : Path α) : Option (Path α) :=
  if p.segments.isEmpty then
    match p.start with
    | .here => some empty
    | _ => none
  else some ⟨p.start, p.segments.dropLast⟩

@[simp] theorem fileName_child (p : Path α) (n : Name α) : (p.child n).fileName = some n := by
  simp [fileName, child]

@[simp] theorem parent_child (p : Path α) (n : Name α) : (p.child n).parent = some p := by
  simp [parent, child]

theorem join_relative (p : Path α) (l : List (Segment α)) :
    p.join (relative l) = ⟨p.start, p.segments ++ l⟩ := by
  obtain ⟨start, segments⟩ := p
  cases start <;> cases segments <;> rfl

theorem empty_join (q : Path α) : empty.join q = q := by
  obtain ⟨start, segments⟩ := q
  cases start <;> rfl

theorem join_root {p q : Path α} (hq : q.start = .root) : p.join q = q := by
  simp [join, hq]

theorem join_append {p q : Path α} (hq : q.start ≠ .root) (hp : p ≠ empty) :
    p.join q = ⟨p.start, p.segments ++ q.segments⟩ := by
  obtain ⟨start, segments⟩ := p
  obtain ⟨start', segments'⟩ := q
  cases start' with
  | root => exact absurd rfl hq
  | here | none =>
    cases start <;> cases segments <;> first | rfl | exact absurd rfl hp

theorem child_inj {p q : Path α} {m n : Name α} (h : p.child m = q.child n) : p = q ∧ m = n := by
  obtain ⟨start, segments⟩ := p
  obtain ⟨start', segments'⟩ := q
  simp only [child, mk.injEq] at h
  obtain ⟨hstart, hseg⟩ := h
  obtain ⟨hinit, hlast⟩ := List.append_inj' hseg rfl
  simp only [List.cons.injEq, Segment.name.injEq, and_true] at hlast
  exact ⟨by rw [hstart, hinit], hlast⟩

/-- One more component after those that are resolved; nothing is above the root. -/
def resolveOne (start : Start) (l : List (Segment α)) : Segment α → List (Segment α)
  | .name n => l ++ [.name n]
  | .up => match l.getLast?, start with
    | some (.name _), _ => l.dropLast
    | none, .root => []
    | _, _ => l ++ [.up]

/-- The path with every `..` carried out that can be, and no `.` left. -/
def resolve (p : Path α) : Path α :=
  ⟨match p.start with | .root => .root | _ => .none, p.segments.foldl (resolveOne p.start) []⟩

@[simp] theorem resolve_child (p : Path α) (n : Name α) : (p.child n).resolve = p.resolve.child n := by
  simp [resolve, child, resolveOne]

end Path

section

variable [DecidableEq α]

/-- The name with these letters, if they are one. -/
def Name.of? (s : List α) : Option (Name α) :=
  if h : s ≠ [] ∧ slash ∉ s ∧ s ≠ [dot] ∧ s ≠ [dot, dot] then some ⟨s, h.1, h.2.1, h.2.2.1, h.2.2.2⟩
  else none

theorem Name.of?_letters (n : Name α) : Name.of? n.letters = some n :=
  dif_pos ⟨n.nonempty, n.no_slash, n.not_here, n.not_up⟩

theorem Name.of?_eq_some {s : List α} {n : Name α} (h : Name.of? s = some n) : n.letters = s := by
  unfold Name.of? at h
  split at h
  · rw [← Option.some.inj h]
  · cases h

/-- What stands between two slashes; nothing and `.` are passed over. -/
def Segment.of? (s : List α) : Option (Segment α) :=
  if s = [dot, dot] then some .up else (Name.of? s).map .name

theorem Segment.of?_letters (x : Segment α) : Segment.of? x.letters = some x := by
  cases x with
  | up => simp [Segment.of?, Segment.letters]
  | name n => simp [Segment.of?, Segment.letters, n.not_up, Name.of?_letters]

namespace Path

def startOf (s : List α) : Start :=
  if s.head? = some slash then .root
  else if (s.splitOn slash).head? = some [dot] then .here else .none

/-- A text, read as a path. -/
def parse (s : List α) : Path α := ⟨startOf s, (s.splitOn slash).filterMap Segment.of?⟩

/-- A path, written as a text. -/
def text (p : Path α) : List α :=
  let body := p.segments.map Segment.letters
  match p.start with
  | .root => slash :: [slash].intercalate body
  | .here => [slash].intercalate ([dot] :: body)
  | .none => [slash].intercalate body

/-- How a text is appended to the text of a directory. -/
def push (s t : List α) : List α :=
  if t.head? = some slash then t
  else if s = [] ∨ s.getLast? = some slash then s ++ t
  else s ++ slash :: t

theorem splitOn_first (s : List α) : ∃ pre rest, s.splitOn slash = pre :: rest ∧ slash ∉ pre ∧
    ∀ a, s.head? = some a → a ≠ slash → pre ≠ [] := by
  by_cases hs : slash ∈ s
  · obtain ⟨pre, rest, rfl, hpre⟩ := List.eq_append_cons_of_mem hs
    refine ⟨pre, rest.splitOn slash, List.splitOn_append_cons_self_of_not_mem hpre rest, hpre, ?_⟩
    rintro a ha hne rfl
    exact hne (Option.some.inj ha).symm
  · refine ⟨s, [], List.splitOn_eq_singleton hs, hs, ?_⟩
    rintro a ha hne rfl
    cases ha

theorem parse_eq_empty {s : List α} (h : parse s = empty) : s = [] := by
  by_contra hne
  obtain ⟨a, s', rfl⟩ := List.exists_cons_of_ne_nil hne
  obtain ⟨pre, rest, hsplit, hpre, hfirst⟩ := splitOn_first (a :: s')
  simp only [parse, empty, startOf, hsplit, mk.injEq] at h
  by_cases ha : a = slash
  · simp [ha] at h
  by_cases hdot : pre = [dot]
  · simp [ha, hdot] at h
  · have hseg : (Segment.of? pre).isSome = true := by
      unfold Segment.of?
      split
      · rfl
      · simp [Name.of?, hfirst a rfl ha, *]
    obtain ⟨x, hx⟩ := Option.isSome_iff_exists.mp hseg
    simp [hx] at h

theorem parse_of_name {s : List α} {n : Name α} (h : Name.of? s = some n) :
    parse s = relative [.name n] := by
  have hs := Name.of?_eq_some h
  have hsplit : s.splitOn slash = [s] := List.splitOn_eq_singleton (hs ▸ n.no_slash)
  have hhead : s.head? ≠ some slash := by
    intro hhead
    exact n.no_slash (hs ▸ List.mem_of_mem_head? hhead)
  have hseg : Segment.of? s = some (.name n) := hs ▸ Segment.of?_letters (.name n)
  simp [parse, relative, startOf, hsplit, hhead, hseg, hs ▸ n.not_here]

@[simp] theorem of?_nil : Segment.of? ([] : List α) = none := by
  simp [Segment.of?, Name.of?]

@[simp] theorem of?_dot : Segment.of? ([dot] : List α) = none := by
  simp [Segment.of?, Name.of?]

theorem filterMap_letters (l : List (Segment α)) :
    (l.map Segment.letters).filterMap Segment.of? = l := by
  rw [List.filterMap_map]
  exact (List.filterMap_congr fun x _ => Segment.of?_letters x).trans List.filterMap_some

theorem splitOn_pieces {pieces : List (List α)} (h : ∀ s ∈ pieces, slash ∉ s) (hne : pieces ≠ []) :
    ([slash].intercalate pieces).splitOn slash = pieces :=
  List.splitOn_intercalate slash h hne

omit [DecidableEq α] in
theorem no_slash_letters (l : List (Segment α)) : ∀ s ∈ l.map Segment.letters, slash ∉ s := by
  intro s hs
  obtain ⟨x, _, rfl⟩ := List.mem_map.mp hs
  exact x.no_slash

/-- A text that does not begin with a slash or a `.` of its own starts nowhere. -/
theorem startOf_none {s pre : List α} {rest : List (List α)} (hsplit : s.splitOn slash = pre :: rest)
    (hhead : s.head? ≠ some slash) (hpre : pre ≠ [dot]) : startOf s = .none := by
  simp [startOf, hhead, hsplit, hpre]

/-- Reading what was written gives the path back. -/
theorem parse_text (p : Path α) : parse p.text = p := by
  obtain ⟨start, l⟩ := p
  cases start with
  | root =>
    have hsplit : (slash :: [slash].intercalate (l.map Segment.letters)).splitOn slash =
        [] :: ([slash].intercalate (l.map Segment.letters)).splitOn slash :=
      List.splitOn_append_cons_self [] _
    simp only [parse, text, startOf, hsplit, mk.injEq]
    refine ⟨by simp, ?_⟩
    rw [List.filterMap_cons_none of?_nil]
    cases l with
    | nil => simp
    | cons x l => rw [splitOn_pieces (no_slash_letters _) (by simp), filterMap_letters]
  | here =>
    have hpieces : ∀ s ∈ [dot] :: l.map Segment.letters, slash ∉ s := by
      intro s hs
      rcases List.mem_cons.mp hs with rfl | hs
      · simp [slash_ne_dot]
      · exact no_slash_letters l s hs
    have hsplit := splitOn_pieces hpieces (by simp)
    have hhead : ([slash].intercalate ([dot] :: l.map Segment.letters)).head? ≠ some slash := by
      cases l <;> simp [slash_ne_dot.symm]
    simp only [parse, text, startOf, hsplit, if_neg hhead, mk.injEq]
    exact ⟨by simp, by rw [List.filterMap_cons_none of?_dot, filterMap_letters]⟩
  | none =>
    cases l with
    | nil => simp [parse, text, startOf]
    | cons x l =>
      have hsplit := splitOn_pieces (no_slash_letters (x :: l)) (by simp)
      have hhead : ([slash].intercalate ((x :: l).map Segment.letters)).head? ≠ some slash := by
        obtain ⟨a, s, hs⟩ := List.exists_cons_of_ne_nil x.nonempty
        have ha : a ≠ slash := by
          rintro rfl
          exact x.no_slash (by simp [hs])
        cases l <;> simp [hs, ha]
      simp only [parse, text, startOf_none hsplit hhead x.not_here, hsplit, filterMap_letters]

theorem startOf_eq_root {s : List α} : startOf s = .root ↔ s.head? = some slash := by
  unfold startOf
  split
  · simp [*]
  · split <;> simp [*]

theorem startOf_congr {s t : List α} (hhead : t.head? = s.head?)
    (hsplit : (t.splitOn slash).head? = (s.splitOn slash).head?) : startOf t = startOf s := by
  simp [startOf, hhead, hsplit]

/-- Joining paths is appending their texts. -/
theorem parse_push (s t : List α) : parse (push s t) = (parse s).join (parse t) := by
  by_cases ht : t.head? = some slash
  · rw [push, if_pos ht, join_root (startOf_eq_root.mpr ht)]
  have hroot : (parse t).start ≠ .root := fun h => ht (startOf_eq_root.mp h)
  by_cases hs : s = []
  · subst hs
    simp only [push, if_neg ht, true_or, if_true, List.nil_append]
    exact (empty_join _).symm
  rw [join_append hroot fun h => hs (parse_eq_empty h), push, if_neg ht]
  have first : ∀ u v : List α, (u.splitOn slash ++ v.splitOn slash).head? = (u.splitOn slash).head? :=
    fun u v => List.head?_append_of_ne_nil _ (List.splitOn_ne_nil _ _)
  by_cases hlast : s.getLast? = some slash
  · obtain ⟨u, rfl⟩ := List.getLast?_eq_some_iff.mp hlast
    have hsplit : (u ++ [slash]).splitOn slash = u.splitOn slash ++ [].splitOn slash :=
      List.splitOn_append_cons_self u []
    have hsplit' : (u ++ slash :: t).splitOn slash = u.splitOn slash ++ t.splitOn slash :=
      List.splitOn_append_cons_self u t
    have hstart : startOf (u ++ slash :: t) = startOf (u ++ [slash]) := by
      apply startOf_congr
      · cases u <;> rfl
      · rw [hsplit, hsplit', first, first]
    rw [if_pos (.inr hlast), List.append_assoc, List.singleton_append]
    simp [parse, hstart, hsplit, hsplit']
  · have hsplit : (s ++ slash :: t).splitOn slash = s.splitOn slash ++ t.splitOn slash :=
      List.splitOn_append_cons_self s t
    have hstart : startOf (s ++ slash :: t) = startOf s := by
      apply startOf_congr
      · exact List.head?_append_of_ne_nil s hs
      · rw [hsplit, first]
    rw [if_neg (by simp [hs, hlast])]
    simp [parse, hstart, hsplit]

theorem of?_eq_some {s : List α} {x : Segment α} (h : Segment.of? s = some x) : x.letters = s := by
  unfold Segment.of? at h
  split at h
  · rename_i hs
    rw [← Option.some.inj h, hs]
    rfl
  · obtain ⟨n, hn, rfl⟩ := Option.map_eq_some_iff.mp h
    exact Name.of?_eq_some hn

omit [Letters α] [DecidableEq α] in
theorem mem_intercalate {c a : α} {s : List α} {pieces : List (List α)} (hs : s ∈ pieces)
    (hc : c ∈ s) : c ∈ [a].intercalate pieces := by
  induction pieces with
  | nil => cases hs
  | cons t pieces ih =>
    cases pieces with
    | nil => simpa [← List.mem_singleton.mp hs] using hc
    | cons u pieces =>
      rw [List.intercalate_cons_cons]
      rcases List.mem_cons.mp hs with rfl | hs
      · simp [hc]
      · simp [ih hs]

omit [Letters α] [DecidableEq α] in
theorem of_mem_intercalate {c a : α} {pieces : List (List α)} (h : c ∈ [a].intercalate pieces) :
    c = a ∨ ∃ s ∈ pieces, c ∈ s := by
  induction pieces with
  | nil => cases h
  | cons t pieces ih =>
    cases pieces with
    | nil => exact .inr ⟨t, by simp, by simpa using h⟩
    | cons u pieces =>
      rw [List.intercalate_cons_cons] at h
      simp only [List.mem_append, List.mem_singleton] at h
      rcases h with (ht | ha) | hrest
      · exact .inr ⟨t, by simp, ht⟩
      · exact .inl ha
      · exact (ih hrest).imp_right fun ⟨s, hs, hc⟩ => ⟨s, List.mem_cons_of_mem _ hs, hc⟩

/-- A path that was read has no letters but those of the text. -/
theorem letters_of_parse {s : List α} {x : Segment α} (hx : x ∈ (parse s).segments) {c : α}
    (hc : c ∈ x.letters) : c ∈ s := by
  obtain ⟨piece, hpiece, h⟩ := List.mem_filterMap.mp hx
  rw [of?_eq_some h] at hc
  have hmem : c ∈ [slash].intercalate (s.splitOn slash) := mem_intercalate hpiece hc
  rwa [List.intercalate_splitOn] at hmem

omit [DecidableEq α] in
/-- A path is written in the letters of its components. -/
theorem letters_of_text {l : List (Segment α)} {c : α} (hc : c ∈ (relative l).text) :
    c = slash ∨ ∃ x ∈ l, c ∈ x.letters := by
  rcases of_mem_intercalate hc with hslash | ⟨s, hs, hc⟩
  · exact .inl hslash
  · obtain ⟨x, hx, rfl⟩ := List.mem_map.mp hs
    exact .inr ⟨x, hx, hc⟩

/-- The path with its last name replaced. -/
def withFileName (p : Path α) (s : List α) : Path α :=
  (if p.fileName.isSome then p.parent.getD p else p).join (parse s)

/-- What a name has before its last dot; one that is only a leading dot and more has no
extension. -/
def stem (s : List α) : List α :=
  match s.reverse.dropWhile (· ≠ dot) with
  | [] | [_] => s
  | _ :: rest => rest.reverse

def withExtension (p : Path α) (ext : List α) : Path α :=
  match p.fileName with
  | none => p
  | some n => p.withFileName (stem n.letters ++ if ext = [] then [] else dot :: ext)

theorem join_of_name {s : List α} {n : Name α} (h : Name.of? s = some n) (p : Path α) :
    p.join (parse s) = p.child n := by
  rw [parse_of_name h, join_relative, child]

theorem withFileName_child (p : Path α) (n : Name α) (s : List α) :
    (p.child n).withFileName s = p.join (parse s) := by
  simp [withFileName]

theorem withExtension_child (p : Path α) (n : Name α) (ext : List α) :
    (p.child n).withExtension ext =
      p.join (parse (stem n.letters ++ if ext = [] then [] else dot :: ext)) := by
  simp only [withExtension, fileName_child, withFileName_child]

/-- What of a path comes after the path of a directory. -/
def stripPrefix (p base : Path α) : Option (Path α) :=
  if base = empty then some p
  else if base.start = p.start ∧ base.segments <+: p.segments then
    some (relative (p.segments.drop base.segments.length))
  else none

theorem stripPrefix_join (p : Path α) (l : List (Segment α)) :
    (p.join (relative l)).stripPrefix p = some (relative l) := by
  rw [join_relative, stripPrefix]
  split
  · rename_i hempty
    rw [hempty]
    rfl
  · simp

end Path

end

end UnixPath
