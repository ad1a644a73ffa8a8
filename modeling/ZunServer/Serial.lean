import Mathlib.Data.List.Nodup
import Mathlib.Data.List.Perm.Basic

/-!
# One after another

Threads share a store, and `link i` relates the stores before and after all
that thread `i` has done so far, as if it had been alone. While the threads
take turns, a chain of links from the first store to the present one is kept
up: a thread joins at the end, moves to the end as long as it has written
nothing, or goes on in its place.
-/
namespace Serial

variable {ι σ : Type*}

/-- The threads of the list lead from one store to another, each from where the one before
it left off. -/
def Chain (link : ι → σ → σ → Prop) : List ι → σ → σ → Prop
  | [], T, T' => T = T'
  | i :: rest, T, T' => ∃ T₁, link i T T₁ ∧ Chain link rest T₁ T'

variable {link link' : ι → σ → σ → Prop} {order rest : List ι} {i : ι} {T T₁ T' T'' : σ}

theorem chain_append :
    Chain link (order ++ rest) T T' ↔ ∃ T₁, Chain link order T T₁ ∧ Chain link rest T₁ T' := by
  induction order generalizing T with
  | nil => simp [Chain]
  | cons j order ih =>
    simp only [List.cons_append, Chain, ih]
    constructor
    · rintro ⟨T₁, hfirst, T₂, horder, hrest⟩
      exact ⟨T₂, ⟨T₁, hfirst, horder⟩, hrest⟩
    · rintro ⟨T₂, ⟨T₁, hfirst, horder⟩, hrest⟩
      exact ⟨T₁, hfirst, T₂, horder, hrest⟩

/-- The place of a thread in the chain. -/
theorem Chain.split (h : Chain link order T T') (hi : i ∈ order) :
    ∃ pre post T₁ T₂, order = pre ++ i :: post ∧ Chain link pre T T₁ ∧ link i T₁ T₂ ∧
      Chain link post T₂ T' := by
  obtain ⟨pre, post, rfl⟩ := List.append_of_mem hi
  obtain ⟨T₁, hpre, T₂, hlink, hpost⟩ := chain_append.mp h
  exact ⟨pre, post, T₁, T₂, rfl, hpre, hlink, hpost⟩

/-- Every thread goes on in its place. -/
theorem Chain.mono (h : Chain link order T T')
    (hlink : ∀ j ∈ order, ∀ T T₁, link j T T₁ → link' j T T₁) : Chain link' order T T' := by
  induction order generalizing T with
  | nil => exact h
  | cons j order ih =>
    obtain ⟨T₁, hfirst, horder⟩ := h
    exact ⟨T₁, hlink j (by simp) T T₁ hfirst, ih horder fun k hk => hlink k (by simp [hk])⟩

/-- A thread begins. -/
theorem Chain.add (h : Chain link order T T')
    (hlink : ∀ j ∈ order, ∀ T T₁, link j T T₁ → link' j T T₁) (hi : link' i T' T'') :
    Chain link' (order ++ [i]) T T'' :=
  chain_append.mpr ⟨T', h.mono hlink, T'', hi, rfl⟩

/-- A thread that has written nothing is moved to the end before it goes on. -/
theorem Chain.move_last (h : Chain link order T T') (hnd : order.Nodup) (hi : i ∈ order)
    (hidle : ∀ T T₁, link i T T₁ → T₁ = T)
    (hlink : ∀ j ∈ order, j ≠ i → ∀ T T₁, link j T T₁ → link' j T T₁) (hnew : link' i T' T'') :
    ∃ order', order'.Perm order ∧ Chain link' order' T T'' := by
  obtain ⟨pre, post, T₁, T₂, rfl, hpre, hat, hpost⟩ := h.split hi
  obtain rfl := hidle T₁ T₂ hat
  have hne : ∀ j ∈ pre ++ post, j ≠ i := by
    rintro j hj rfl
    exact (List.nodup_cons.mp (List.nodup_middle.mp hnd)).1 hj
  refine ⟨pre ++ post ++ [i], ?_, ?_⟩
  · rw [List.append_assoc]
    exact (List.perm_append_singleton i post).append_left pre
  · refine (chain_append.mpr ⟨_, hpre, hpost⟩ : Chain link (pre ++ post) T T').add
      (fun j hj => hlink j ?_ (hne j hj)) hnew
    rw [List.mem_append, List.mem_cons]
    exact (List.mem_append.mp hj).imp_right .inr

/-- What every thread keeps, all of them keep. -/
theorem Chain.keeps {P : σ → Prop} (h : Chain link order T T')
    (hkeep : ∀ j ∈ order, ∀ T T₁, link j T T₁ → P T → P T₁) (hT : P T) : P T' := by
  induction order generalizing T with
  | nil =>
    obtain rfl : T = T' := h
    exact hT
  | cons j order ih =>
    obtain ⟨T₁, hfirst, horder⟩ := h
    exact ih horder (fun k hk => hkeep k (by simp [hk])) (hkeep j (by simp) T T₁ hfirst hT)

end Serial
