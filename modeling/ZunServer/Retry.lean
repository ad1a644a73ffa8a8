import Mathlib.Data.List.Basic

/-!
# Retry loops

An operation is tried on one answer of its surroundings after the other, until
it succeeds, fails in a way that is not tried again, or has been tried often
enough. The list holds one answer for each attempt that was made, so a loop
that would go on after its end, or stop before it, has no result.
-/
namespace Retry

variable {σ χ ε α : Type*}

/-- The loop at its `n`-th attempt, with the delays it has slept from there on. -/
def attempts (max : Nat) (delay : Nat → Nat) (again : ε → Bool)
    (op : σ → χ → Option (σ × Except ε α)) :
    Nat → List χ → σ → Option (σ × Except ε α × List Nat)
  | _, [], _ => none
  | n, x :: xs, s => (op s x).bind fun (s', r) => match r with
    | .ok v => if xs.isEmpty then some (s', .ok v, []) else none
    | .error e =>
      if max ≤ n ∨ again e = false then
        if xs.isEmpty then some (s', .error e, []) else none
      else (attempts max delay again op (n + 1) xs s').map fun (t, r, slept) =>
        (t, r, delay n :: slept)

/-- Every attempt but the last fails in a way that is tried again. -/
inductive Tries (again : ε → Bool) (op : σ → χ → Option (σ × Except ε α)) :
    List χ → σ → σ → Except ε α → Prop
  | last {s t : σ} {x : χ} {r : Except ε α} (h : op s x = some (t, r)) : Tries again op [x] s t r
  | again {s m t : σ} {x : χ} {xs : List χ} {e : ε} {r : Except ε α}
      (h : op s x = some (m, .error e)) (he : again e = true) (hrest : Tries again op xs m t r) :
      Tries again op (x :: xs) s t r

variable {max : Nat} {delay : Nat → Nat} {again : ε → Bool} {op : σ → χ → Option (σ × Except ε α)}

theorem Tries.length_pos {xs : List χ} {s t : σ} {r : Except ε α} (h : Tries again op xs s t r) :
    1 ≤ xs.length := by
  cases h <;> simp

/-- What the loop does, said once: the attempts it makes, how many they are, when it
gives up and how long it sleeps in between. -/
theorem attempts_spec {n : Nat} {xs : List χ} {s t : σ} {r : Except ε α} {slept : List Nat}
    (hn : n ≤ max) (h : attempts max delay again op n xs s = some (t, r, slept)) :
    Tries again op xs s t r ∧ n + xs.length ≤ max + 1 ∧
      (∀ e, r = .error e → again e = true → n + xs.length = max + 1) ∧
      slept = (List.range (xs.length - 1)).map fun i => delay (n + i) := by
  induction xs generalizing n s slept with
  | nil => cases h
  | cons x xs ih =>
    obtain ⟨⟨m, q⟩, hop, h⟩ := Option.bind_eq_some_iff.mp h
    cases q with
    | ok v =>
      obtain ⟨hxs, h⟩ := Option.ite_none_right_eq_some.mp h
      obtain rfl := List.isEmpty_iff.mp hxs
      cases h
      exact ⟨.last hop, by simp; omega, by simp, rfl⟩
    | error e =>
      dsimp only at h
      split at h
      · rename_i hstop
        obtain ⟨hxs, h⟩ := Option.ite_none_right_eq_some.mp h
        obtain rfl := List.isEmpty_iff.mp hxs
        cases h
        refine ⟨.last hop, by simp; omega, fun e' he' hagain => ?_, rfl⟩
        obtain rfl := Except.error.inj he'
        have hmax : max ≤ n := hstop.resolve_right (by simp [hagain])
        simp only [List.length_cons, List.length_nil]
        omega
      · rename_i hgo
        obtain ⟨⟨t', r', slept'⟩, hrest, heq⟩ := Option.map_eq_some_iff.mp h
        cases heq
        simp only [not_or, Nat.not_le, Bool.not_eq_false] at hgo
        obtain ⟨htries, hlen, hgave, hslept⟩ := ih (by omega) hrest
        have hpos := htries.length_pos
        refine ⟨.again hop hgo.2 htries, by simp only [List.length_cons]; omega,
          fun e' he' hagain => ?_, ?_⟩
        · have := hgave e' he' hagain
          simp only [List.length_cons]
          omega
        · obtain ⟨k, hk⟩ : ∃ k, xs.length = k + 1 := ⟨xs.length - 1, by omega⟩
          simp only [List.length_cons, hslept, hk, Nat.add_sub_cancel, List.range_succ_eq_map,
            List.map_cons, List.map_map, Nat.add_zero, List.cons.injEq, true_and]
          exact List.map_congr_left fun i _ => by simp; congr 1; omega

/-- What the failed attempts leave as it was, the last one still finds. -/
theorem Tries.final {I : σ → Prop} {xs : List χ} {s t : σ} {r : Except ε α}
    (h : Tries again op xs s t r)
    (hstep : ∀ x ∈ xs, ∀ s m e, I s → op s x = some (m, .error e) → again e = true → I m)
    (hs : I s) : ∃ m x, I m ∧ x ∈ xs ∧ op m x = some (t, r) := by
  induction h with
  | last h => exact ⟨_, _, hs, List.mem_singleton.mpr rfl, h⟩
  | again h he _ ih =>
    obtain ⟨m, x, hm, hx, hop⟩ := ih (fun y hy => hstep y (List.mem_cons_of_mem _ hy))
      (hstep _ List.mem_cons_self _ _ _ hs h he)
    exact ⟨m, x, hm, List.mem_cons_of_mem _ hx, hop⟩

end Retry
