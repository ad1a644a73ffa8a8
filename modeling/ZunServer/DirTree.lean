import Mathlib.Data.List.Basic

/-!
# Directory trees

What a walk can find under a directory: files, directories that can be read or
not, what is neither, and entries that nothing can be learnt of. A walk goes
into the directories; it never sees behind an entry of the last kind.
-/
namespace DirTree

variable {φ ε : Type*}

/-- An entry of a listing, with what is known of a file (`φ`), and of a directory its
listing or why it cannot be read (`ε`). -/
inductive Entry (φ ε : Type*) where
  | file (x : φ)
  | dir (d : Except ε (List (Entry φ ε)))
  | other
  | hidden (e : Entry φ ε)

abbrev Dir (φ ε : Type*) := Except ε (List (Entry φ ε))

/-- A fact about directories, by induction over the directories in them. -/
@[elab_as_elim]
theorem Dir.inside {motive : Dir φ ε → Prop} (error : ∀ e, motive (.error e))
    (ok : ∀ l, (∀ d, Entry.dir d ∈ l → motive d) → motive (.ok l)) (d : Dir φ ε) : motive d := by
  refine Entry.rec_1 (motive_1 := fun e => ∀ d, e = .dir d → motive d) (motive_2 := motive)
    (motive_3 := fun l => ∀ d, Entry.dir d ∈ l → motive d) ?_ ?_ ?_ ?_ error ?_ ?_ ?_ d
  · intro x d h
    cases h
  · intro d hd d' h
    cases h
    exact hd
  · intro d h
    cases h
  · intro e _ d h
    cases h
  · intro l hl
    exact ok l hl
  · simp
  · intro e l he hl d hd
    rcases List.mem_cons.mp hd with h | h
    · exact he d h.symm
    · exact hl d h

/-- The walk from a directory comes to a directory. -/
inductive Reaches : Dir φ ε → Dir φ ε → Prop where
  | here (d : Dir φ ε) : Reaches d d
  | enter {l : List (Entry φ ε)} {d d' : Dir φ ε} (h : .dir d ∈ l) (hd : Reaches d d') :
      Reaches (.ok l) d'

mutual

/-- The files a walk sees, each where it is listed. -/
def seen : Dir φ ε → List φ
  | .error _ => []
  | .ok l => seenIn l

def seenIn : List (Entry φ ε) → List φ
  | [] => []
  | e :: l => seenAt e ++ seenIn l

def seenAt : Entry φ ε → List φ
  | .file x => [x]
  | .dir d => seen d
  | .other => []
  | .hidden _ => []

end

mutual

/-- All files, seen or not. -/
def files : Dir φ ε → List φ
  | .error _ => []
  | .ok l => filesIn l

def filesIn : List (Entry φ ε) → List φ
  | [] => []
  | e :: l => filesAt e ++ filesIn l

def filesAt : Entry φ ε → List φ
  | .file x => [x]
  | .dir d => files d
  | .other => []
  | .hidden e => filesAt e

end

mutual

/-- The files behind the entries that nothing can be learnt of. -/
def unseen : Dir φ ε → List φ
  | .error _ => []
  | .ok l => unseenIn l

def unseenIn : List (Entry φ ε) → List φ
  | [] => []
  | e :: l => unseenAt e ++ unseenIn l

def unseenAt : Entry φ ε → List φ
  | .file _ => []
  | .dir d => unseen d
  | .other => []
  | .hidden e => filesAt e

end

theorem filesIn_perm {l : List (Entry φ ε)}
    (h : ∀ d, .dir d ∈ l → (files d).Perm (seen d ++ unseen d)) :
    (filesIn l).Perm (seenIn l ++ unseenIn l) := by
  induction l with
  | nil => exact .nil
  | cons e l ih =>
    have hhead : (filesAt e).Perm (seenAt e ++ unseenAt e) := by
      cases e with
      | file x => exact .refl _
      | dir d => exact h d (List.mem_cons_self ..)
      | other => exact .refl _
      | hidden e => exact .refl _
    have hl := ih fun d hd => h d (List.mem_cons_of_mem _ hd)
    rw [filesIn, seenIn, unseenIn]
    calc (filesAt e ++ filesIn l).Perm ((seenAt e ++ unseenAt e) ++ (seenIn l ++ unseenIn l)) :=
          hhead.append hl
      _ = seenAt e ++ ((unseenAt e ++ seenIn l) ++ unseenIn l) := by simp
      _ |>.Perm (seenAt e ++ ((seenIn l ++ unseenAt e) ++ unseenIn l)) :=
          .append_left _ (.append_right _ List.perm_append_comm)
      _ = seenAt e ++ seenIn l ++ (unseenAt e ++ unseenIn l) := by simp

/-- Every file is seen or is not. -/
theorem files_perm (d : Dir φ ε) : (files d).Perm (seen d ++ unseen d) := by
  induction d using Dir.inside with
  | error e => exact .nil
  | ok l ih => exact filesIn_perm ih

end DirTree
