import Mathlib.Data.Finset.Card
import Mathlib.Data.List.Sort
import ZunServer.Runs

/-!
# Draining a queue

A loop takes the least key of what waits, works on it and comes back for the
next one, while others move in between. As long as no step adds to what waits
and the loop is done with a key once it is picked, the picks come in strictly
increasing order, and the loop comes to an end.
-/
namespace Draining

open Runs

variable {σ α κ : Type*}

/-- The keys that a run picks, in the order of the picks. -/
def picks (step : σ → α → Option σ) (pick : σ × α → Option κ) (as : List α) (s : σ) : List κ :=
  (visits step as s).filterMap pick

theorem picks_cons {step : σ → α → Option σ} (pick : σ × α → Option κ) {a : α} {s t : σ}
    (h : step s a = some t) (as : List α) :
    picks step pick (a :: as) s = (pick (s, a)).toList ++ picks step pick as t := by
  simp only [picks, visits, h, List.filterMap_cons]
  cases pick (s, a) <;> rfl

variable [LinearOrder κ]

/-- `waiting` is what the loop may still pick, `pick` the key that a step takes. -/
structure Drains (step : σ → α → Option σ) (P : σ → α → Prop) (I : σ → Prop)
    (waiting : σ → Finset κ) (pick : σ × α → Option κ) : Prop where
  keeps : ∀ s a t, I s → P s a → step s a = some t → I t
  shrinks : ∀ s a t, I s → P s a → step s a = some t → waiting t ⊆ waiting s
  least : ∀ s a t k, I s → P s a → step s a = some t → pick (s, a) = some k →
    k ∈ waiting s ∧ ∀ j ∈ waiting t, k < j

variable {step : σ → α → Option σ} {P : σ → α → Prop} {I : σ → Prop} {waiting : σ → Finset κ}
  {pick : σ × α → Option κ}

theorem Drains.picks_mem (h : Drains step P I waiting pick) {as : List α} {s t : σ}
    (hp : Along step P as s) (hrun : run step as s = some t) (hs : I s) :
    ∀ k ∈ picks step pick as s, k ∈ waiting s := by
  induction as generalizing s with
  | nil => simp [picks, visits]
  | cons a as ih =>
    obtain ⟨m, hm, hrest⟩ := run_cons_some.mp hrun
    intro k hk
    rw [picks_cons pick hm, List.mem_append, Option.mem_toList] at hk
    rcases hk with hk | hk
    · exact (h.least s a m k hs hp.1 hm hk).1
    · exact h.shrinks s a m hs hp.1 hm (ih (hp.2 m hm) hrest (h.keeps s a m hs hp.1 hm) k hk)

/-- A key is picked once, and after every smaller one. -/
theorem Drains.picks_sorted (h : Drains step P I waiting pick) {as : List α} {s t : σ}
    (hp : Along step P as s) (hrun : run step as s = some t) (hs : I s) :
    (picks step pick as s).SortedLT := by
  apply List.Pairwise.sortedLT
  induction as generalizing s with
  | nil => simp [picks, visits]
  | cons a as ih =>
    obtain ⟨m, hm, hrest⟩ := run_cons_some.mp hrun
    have hI := h.keeps s a m hs hp.1 hm
    have htail := ih (hp.2 m hm) hrest hI
    rw [picks_cons pick hm]
    cases hk : pick (s, a) with
    | none => simpa using htail
    | some k =>
      have hlt := (h.least s a m k hs hp.1 hm hk).2
      have hmem := h.picks_mem (hp.2 m hm) hrest hI
      exact List.pairwise_cons.mpr ⟨fun j hj => hlt j (hmem j hj), htail⟩

/-- Between two picks the loop runs down a rank, and a pick brings back at most `n`. -/
theorem Drains.bounded (h : Drains step P I waiting pick) (rank : σ → Nat) (p : α → Bool) (n : Nat)
    (hrank : ∀ s a t, I s → P s a → step s a = some t →
      rank t + [a].countP p ≤ rank s + if (pick (s, a)).isSome then n else 0)
    {as : List α} {s t : σ} (hp : Along step P as s) (hrun : run step as s = some t) (hs : I s) :
    as.countP p ≤ n * (waiting s).card + rank s := by
  have hspend := hp.spend (μ := fun u => n * (waiting u).card + rank u) (p := p) h.keeps
    (fun u a v hu ha hstep => ?_) hrun hs
  · omega
  · have hle := hrank u a v hu ha hstep
    have hsub := h.shrinks u a v hu ha hstep
    cases hk : pick (u, a) with
    | none =>
      have hcard := Nat.mul_le_mul_left n (Finset.card_le_card hsub)
      simp only [hk, Option.isSome_none, Bool.false_eq_true, if_false] at hle
      omega
    | some k =>
      obtain ⟨hin, hlt⟩ := h.least u a v k hu ha hstep hk
      have hout : k ∉ waiting v := fun hv => lt_irrefl k (hlt k hv)
      have hcard : (waiting v).card < (waiting u).card :=
        Finset.card_lt_card (Finset.ssubset_iff_of_subset hsub |>.mpr ⟨k, hin, hout⟩)
      have hmul := Nat.mul_le_mul_left n hcard
      simp only [hk, Option.isSome_some, if_true] at hle
      rw [Nat.mul_succ] at hmul
      omega

end Draining
