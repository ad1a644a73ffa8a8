import Mathlib.Data.List.Basic

/-!
# Loops over a stream of events

A loop takes one event after the other. Of each it makes nothing, or it hands
something on, or it ends with a result; what comes after that is never looked at.
The list is what has arrived so far: a loop with no result yet is still waiting.
-/
namespace EventLoop

variable {α β γ : Type*}

/-- What becomes of one event. -/
inductive Verdict (β γ : Type*) where
  | skip
  | emit (c : γ)
  | finish (b : β)

namespace Verdict

def result : Verdict β γ → Option β
  | .finish b => some b
  | _ => none

def emitted : Verdict β γ → Option γ
  | .emit c => some c
  | _ => none

@[simp] theorem result_skip : (skip : Verdict β γ).result = none := rfl
@[simp] theorem result_emit (c : γ) : (emit c : Verdict β γ).result = none := rfl
@[simp] theorem result_finish (b : β) : (finish b : Verdict β γ).result = some b := rfl
@[simp] theorem emitted_skip : (skip : Verdict β γ).emitted = none := rfl
@[simp] theorem emitted_emit (c : γ) : (emit c : Verdict β γ).emitted = some c := rfl
@[simp] theorem emitted_finish (b : β) : (finish b : Verdict β γ).emitted = none := rfl

end Verdict

/-- The result, if the loop has ended, and what it has handed on. -/
def loop (judge : α → Verdict β γ) : List α → Option β × List γ
  | [] => (none, [])
  | a :: l => match judge a with
    | .skip => loop judge l
    | .emit c => ((loop judge l).1, c :: (loop judge l).2)
    | .finish b => (some b, [])

variable (judge : α → Verdict β γ)

/-- Events that are skipped may come and go. -/
theorem loop_filter {p : α → Bool} (h : ∀ a, p a = false → judge a = .skip) (l : List α) :
    loop judge (l.filter p) = loop judge l := by
  induction l with
  | nil => rfl
  | cons a l ih =>
    by_cases hp : p a = true
    · rw [List.filter_cons_of_pos hp, loop, loop, ih]
    · rw [List.filter_cons_of_neg hp, loop, h a (by simpa using hp), ih]

/-- The result is that of the first event that has one. -/
theorem loop_fst (l : List α) : (loop judge l).1 = l.findSome? fun a => (judge a).result := by
  induction l with
  | nil => rfl
  | cons a l ih =>
    rw [loop]
    cases h : judge a <;> simp [h, ih]

/-- What is handed on comes from the events before that one, in their order. -/
theorem loop_snd (l : List α) : (loop judge l).2 =
    (l.takeWhile fun a => (judge a).result.isNone).filterMap fun a => (judge a).emitted := by
  induction l with
  | nil => rfl
  | cons a l ih =>
    rw [loop]
    cases h : judge a <;> simp [h, ih]

theorem loop_waits (l : List α) :
    (loop judge l).1 = none ↔ ∀ a ∈ l, (judge a).result = none := by
  rw [loop_fst, List.findSome?_eq_none_iff]

/-- Of two kinds of results, the loop ends with one of the first kind just when such an event
comes before every event with one of the other. -/
theorem loop_first (good : β → Prop) (l : List α) :
    (∃ b, (loop judge l).1 = some b ∧ good b) ↔
      ∃ pre a post, l = pre ++ a :: post ∧ (∃ b, (judge a).result = some b ∧ good b) ∧
        ∀ x ∈ pre, ∀ b, (judge x).result = some b → good b := by
  constructor
  · rintro ⟨b, hb, hgood⟩
    rw [loop_fst, List.findSome?_eq_some_iff] at hb
    obtain ⟨pre, a, post, hl, ha, hpre⟩ := hb
    refine ⟨pre, a, post, hl, ⟨b, ha, hgood⟩, fun x hx b' hb' => ?_⟩
    rw [hpre x hx] at hb'
    cases hb'
  · rintro ⟨pre, a, post, rfl, ⟨b, ha, hgood⟩, hpre⟩
    rw [loop_fst]
    induction pre with
    | nil => exact ⟨b, by simp [ha], hgood⟩
    | cons x pre ih =>
      cases hx : (judge x).result with
      | none =>
        simp only [List.cons_append, List.findSome?_cons, hx]
        exact ih fun y hy => hpre y (List.mem_cons_of_mem x hy)
      | some b' =>
        simp only [List.cons_append, List.findSome?_cons, hx]
        exact ⟨b', rfl, hpre x (by simp) b' hx⟩

end EventLoop
