import Mathlib.Data.List.Nodup
import Mathlib.Logic.Function.Basic

/-!
# Removing one thing after the other

Things lie at places. To remove what is at a place succeeds if there is something
there that can be removed, and changes nothing otherwise. A list of places is gone
through once; what counts is how often something was removed.
-/
namespace Removals

variable {α β : Type*} [DecidableEq α]

variable (removable : β → Bool)

/-- What is left after one removal, and whether it removed something. -/
def remove (s : α → Option β) (a : α) : (α → Option β) × Bool :=
  if (s a).any removable then (Function.update s a none, true) else (s, false)

/-- What is left after all of them, and how many removed something. -/
def removeAll (s : α → Option β) : List α → (α → Option β) × ℕ
  | [] => (s, 0)
  | a :: l =>
    let first := remove removable s a
    let rest := removeAll first.1 l
    (rest.1, first.2.toNat + rest.2)

theorem removeAll_append (s : α → Option β) (l l' : List α) :
    removeAll removable s (l ++ l') =
      ((removeAll removable (removeAll removable s l).1 l').1,
        (removeAll removable s l).2 + (removeAll removable (removeAll removable s l).1 l').2) := by
  induction l generalizing s with
  | nil => simp [removeAll]
  | cons a l ih => simp [removeAll, ih, Nat.add_assoc]

theorem removeAll_le (s : α → Option β) (l : List α) : (removeAll removable s l).2 ≤ l.length := by
  induction l generalizing s with
  | nil => simp [removeAll]
  | cons a l ih =>
    have hrest := ih (remove removable s a).1
    have hfirst := Bool.toNat_le (remove removable s a).2
    simp only [removeAll, List.length_cons]
    omega

theorem remove_apply (s : α → Option β) (a b : α) :
    (remove removable s a).1 b = if b = a ∧ (s a).any removable then none else s b := by
  unfold remove
  by_cases hs : (s a).any removable = true
  · by_cases hb : b = a
    · subst hb
      simp [hs]
    · simp [hs, hb]
  · simp [hs]

/-- Only what is removed goes. -/
theorem removeAll_apply (s : α → Option β) (l : List α) (b : α) :
    (removeAll removable s l).1 b = if b ∈ l ∧ (s b).any removable then none else s b := by
  induction l generalizing s with
  | nil => simp [removeAll]
  | cons a l ih =>
    simp only [removeAll, ih, remove_apply, List.mem_cons]
    by_cases hb : b = a
    · subst hb
      by_cases hs : (s b).any removable = true <;> simp [hs]
    · simp [hb]

/-- Every removal removes something just when there is something at every place, and no place is
listed twice. -/
theorem removeAll_eq_length (s : α → Option β) (l : List α) :
    (removeAll removable s l).2 = l.length ↔ l.Nodup ∧ ∀ a ∈ l, (s a).any removable = true := by
  induction l generalizing s with
  | nil => simp [removeAll]
  | cons a l ih =>
    have hcount : (removeAll removable s (a :: l)).2 =
        (remove removable s a).2.toNat + (removeAll removable (remove removable s a).1 l).2 := rfl
    have hrest := removeAll_le removable (remove removable s a).1 l
    rw [hcount, List.length_cons, List.nodup_cons, List.forall_mem_cons]
    by_cases hs : (s a).any removable = true
    · have htrue : (remove removable s a).2 = true := by simp [remove, hs]
      have hleft : ∀ b, ((remove removable s a).1 b).any removable = true ↔
          b ≠ a ∧ (s b).any removable = true := by
        intro b
        rw [remove_apply]
        by_cases hb : b = a
        · simp [hb, hs]
        · simp [hb]
      rw [htrue, Bool.toNat_true, Nat.add_comm 1, Nat.add_right_cancel_iff, ih]
      simp only [hleft]
      constructor
      · rintro ⟨hnodup, hall⟩
        exact ⟨⟨fun ha => (hall a ha).1 rfl, hnodup⟩, hs, fun b hb => (hall b hb).2⟩
      · rintro ⟨⟨ha, hnodup⟩, -, hall⟩
        refine ⟨hnodup, fun b hb => ⟨?_, hall b hb⟩⟩
        rintro rfl
        exact ha hb
    · have hfalse : (remove removable s a).2 = false := by simp [remove, hs]
      rw [hfalse, Bool.toNat_false]
      constructor
      · omega
      · rintro ⟨-, hs', -⟩
        exact absurd hs' hs

end Removals
