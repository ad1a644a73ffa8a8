import Mathlib.Data.List.Induction
import ZunServer.Runs

/-!
# Observers of a system

A system runs beside a pool of observers. They arrive at any time, and look at its
state between its steps in any order; they change nothing in it.
-/
namespace Observers

variable {σ α ρ β κ : Type*}

inductive Act (α β κ : Type*) where
  | system (a : α)
  | arrive (k : κ)
  | look (i : Nat) (b : β)

def Act.system? : Act α β κ → Option α
  | .system a => some a
  | _ => none

/-- What the system does in a run. -/
def acts (as : List (Act α β κ)) : List α := as.filterMap Act.system?

section

variable (sys : σ → α → Option σ) (start : κ → ρ) (look : σ → β → ρ → Option ρ)

def step : σ × List ρ → Act α β κ → Option (σ × List ρ)
  | (s, pool), .system a => (sys s a).map fun t => (t, pool)
  | (s, pool), .arrive k => some (s, pool ++ [start k])
  | (s, pool), .look i b => (pool[i]?).bind fun x => (look s b x).map fun x' => (s, pool.set i x')

abbrev run : List (Act α β κ) → σ × List ρ → Option (σ × List ρ) := Runs.run (step sys start look)

end

variable {sys : σ → α → Option σ} {start : κ → ρ} {look : σ → β → ρ → Option ρ}

/-- As long as nobody looks, the pool stays. -/
theorem run_lift (as : List α) (bs : List (Act α β κ)) (s : σ) (pool : List ρ) :
    run sys start look (as.map .system ++ bs) (s, pool) =
      (Runs.run sys as s).bind fun t => run sys start look bs (t, pool) := by
  induction as generalizing s with
  | nil => rfl
  | cons a as ih =>
    simp only [List.map_cons, List.cons_append, Runs.run_cons, step, Option.bind_assoc]
    cases h : sys s a with
    | none => rfl
    | some m => exact ih m

theorem acts_append (as bs : List (Act α β κ)) : acts (as ++ bs) = acts as ++ acts bs :=
  List.filterMap_append

theorem acts_lift (as : List α) (bs : List (Act α β κ)) : acts (as.map .system ++ bs) = as ++ acts bs := by
  rw [acts_append]
  congr 1
  unfold acts
  rw [List.filterMap_map]
  exact List.filterMap_some

/-- What the system does in a run is a run of its own. -/
theorem run_acts {as : List (Act α β κ)} {s t : σ} {pool pool' : List ρ}
    (h : run sys start look as (s, pool) = some (t, pool')) : Runs.run sys (acts as) s = some t := by
  induction as generalizing s pool with
  | nil =>
    cases h
    rfl
  | cons a as ih =>
    obtain ⟨⟨m, pool₁⟩, hm, hrun⟩ := Runs.run_cons_some.mp h
    cases a with
    | system a =>
      obtain ⟨m', hstep, he⟩ := Option.map_eq_some_iff.mp hm
      cases he
      exact Runs.run_cons_some.mpr ⟨m, hstep, ih hrun⟩
    | arrive k =>
      cases hm
      exact ih hrun
    | look i b =>
      obtain ⟨x, -, hm⟩ := Option.bind_eq_some_iff.mp hm
      obtain ⟨x', -, he⟩ := Option.map_eq_some_iff.mp hm
      cases he
      exact ih hrun

/-- What the steps of the system, the arrivals and the looks all keep holds in every
run; it may speak of what the system has done. -/
theorem history_invariant_of_forall {P : α → Prop} {J : List (σ × α) → σ → List ρ → Prop}
    (hsys : ∀ past s a t pool, J past s pool → P a → sys s a = some t → J (past ++ [(s, a)]) t pool)
    (harrive : ∀ past s pool k, J past s pool → J past s (pool ++ [start k]))
    (hlook : ∀ past s pool i b x x', J past s pool → pool[i]? = some x → look s b x = some x' →
      J past s (pool.set i x')) {as : List (Act α β κ)} (hP : ∀ a ∈ acts as, P a)
    {past : List (σ × α)} {s t : σ} {pool pool' : List ρ}
    (h : run sys start look as (s, pool) = some (t, pool')) (hs : J past s pool) :
    J (past ++ Runs.visits sys (acts as) s) t pool' := by
  induction as generalizing past s pool with
  | nil =>
    cases h
    simpa [acts, Runs.visits] using hs
  | cons a as ih =>
    obtain ⟨⟨m, pool₁⟩, hm, hrun⟩ := Runs.run_cons_some.mp h
    cases a with
    | system a =>
      obtain ⟨m', hstep, he⟩ := Option.map_eq_some_iff.mp hm
      cases he
      have hacts : acts (.system a :: as) = a :: acts as := rfl
      rw [hacts] at hP ⊢
      have hrest := ih (fun a ha => hP a (List.mem_cons_of_mem _ ha)) hrun
        (hsys past s a m pool hs (hP a List.mem_cons_self) hstep)
      simpa [Runs.visits, hstep] using hrest
    | arrive k =>
      cases hm
      exact ih hP hrun (harrive past s pool k hs)
    | look i b =>
      obtain ⟨x, hx, hm⟩ := Option.bind_eq_some_iff.mp hm
      obtain ⟨x', hx', he⟩ := Option.map_eq_some_iff.mp hm
      cases he
      exact ih hP hrun (hlook past s pool i b x x' hs hx hx')

theorem history_invariant {J : List (σ × α) → σ → List ρ → Prop}
    (hsys : ∀ past s a t pool, J past s pool → sys s a = some t → J (past ++ [(s, a)]) t pool)
    (harrive : ∀ past s pool k, J past s pool → J past s (pool ++ [start k]))
    (hlook : ∀ past s pool i b x x', J past s pool → pool[i]? = some x → look s b x = some x' →
      J past s (pool.set i x')) {as : List (Act α β κ)} {past : List (σ × α)} {s t : σ}
    {pool pool' : List ρ} (h : run sys start look as (s, pool) = some (t, pool'))
    (hs : J past s pool) : J (past ++ Runs.visits sys (acts as) s) t pool' :=
  history_invariant_of_forall (P := fun _ => True)
    (fun past s a t pool hJ _ => hsys past s a t pool hJ) harrive hlook (fun _ _ => trivial) h hs

/-- The same for what does not speak of the past. -/
theorem invariant {J : σ → List ρ → Prop}
    (hsys : ∀ s a t pool, J s pool → sys s a = some t → J t pool)
    (harrive : ∀ s pool k, J s pool → J s (pool ++ [start k]))
    (hlook : ∀ s pool i b x x', J s pool → pool[i]? = some x → look s b x = some x' →
      J s (pool.set i x')) {as : List (Act α β κ)} {s t : σ} {pool pool' : List ρ}
    (h : run sys start look as (s, pool) = some (t, pool')) (hs : J s pool) : J t pool' :=
  @history_invariant σ α ρ β κ sys start look (fun _ => J) (fun _ => hsys) (fun _ => harrive)
    (fun _ => hlook) as [] s t pool pool' h hs

/-- An observer comes to what it was not at its start by a look of its own. -/
theorem turned {P : ρ → Prop} (hstart : ∀ k, ¬ P (start k)) {as : List (Act α β κ)} {s t : σ}
    {pool : List ρ} (h : run sys start look as (s, []) = some (t, pool)) {i : Nat} {x : ρ}
    (hx : pool[i]? = some x) (hP : P x) :
    ∃ pre b post u pool₀ y, as = pre ++ .look i b :: post ∧
      run sys start look pre (s, []) = some (u, pool₀) ∧ pool₀[i]? = some y ∧ ¬ P y ∧
      ∃ y', look u b y = some y' ∧ P y' := by
  induction as using List.reverseRecOn generalizing t pool x with
  | nil =>
    cases h
    cases hx
  | append_singleton as a ih =>
    rw [run, Runs.run_append] at h
    obtain ⟨⟨u, pool₀⟩, hpre, hlast⟩ := Option.bind_eq_some_iff.mp h
    obtain ⟨⟨t', pool'⟩, hstep, hend⟩ := Runs.run_cons_some.mp hlast
    cases hend
    have earlier : ∀ y, pool₀[i]? = some y → P y →
        ∃ pre b post u pool₀ y, as ++ [a] = pre ++ .look i b :: post ∧
          run sys start look pre (s, []) = some (u, pool₀) ∧ pool₀[i]? = some y ∧ ¬ P y ∧
          ∃ y', look u b y = some y' ∧ P y' := by
      intro y hy hPy
      obtain ⟨pre, b, post, v, pool₁, z, rfl, hrun⟩ := ih hpre hy hPy
      exact ⟨pre, b, post ++ [a], v, pool₁, z, by simp, hrun⟩
    cases a with
    | system a =>
      obtain ⟨v, -, he⟩ := Option.map_eq_some_iff.mp hstep
      cases he
      exact earlier x hx hP
    | arrive k =>
      cases hstep
      rcases Nat.lt_or_ge i pool₀.length with hi | hi
      · rw [List.getElem?_append_left hi] at hx
        exact earlier x hx hP
      · rw [List.getElem?_append_right hi] at hx
        obtain rfl := List.mem_singleton.mp (List.mem_of_getElem? hx)
        exact absurd hP (hstart k)
    | look j b =>
      obtain ⟨y, hy, hstep⟩ := Option.bind_eq_some_iff.mp hstep
      obtain ⟨y', hy', he⟩ := Option.map_eq_some_iff.mp hstep
      cases he
      by_cases hij : j = i
      · subst hij
        obtain ⟨hlt, -⟩ := List.getElem?_eq_some_iff.mp hy
        obtain rfl := Option.some.inj ((List.getElem?_set_self hlt).symm.trans hx)
        by_cases hPy : P y
        · exact earlier y hy hPy
        · exact ⟨as, b, [], _, pool₀, y, rfl, hpre, hy, hPy, y', hy', hP⟩
      · rw [List.getElem?_set_ne hij] at hx
        exact earlier x hx hP

/-- A fact about every observer on its own. -/
theorem pool_arrive {P : ρ → Prop} {pool : List ρ} {x : ρ} (h : ∀ y ∈ pool, P y) (hx : P x) :
    ∀ y ∈ pool ++ [x], P y := by
  intro y hy
  rcases List.mem_append.mp hy with hy | hy
  · exact h y hy
  · obtain rfl := List.mem_singleton.mp hy
    exact hx

theorem pool_look {P : ρ → Prop} {pool : List ρ} {i : Nat} {x : ρ} (h : ∀ y ∈ pool, P y)
    (hx : P x) : ∀ y ∈ pool.set i x, P y := by
  intro y hy
  rcases List.mem_or_eq_of_mem_set hy with hy | rfl
  · exact h y hy
  · exact hx

end Observers
