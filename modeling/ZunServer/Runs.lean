import Mathlib.Data.List.Basic

/-!
# Runs of a partial step function

A system is a partial function `step : σ → α → Option σ`: the action `α` says
who moves and what the environment answers, `none` means that the action is
not enabled. A run is a list of actions; nothing bounds its length. The rules
below turn facts about one step into facts about every run.
-/
namespace Runs

variable {σ α : Type*}

/-- Take every action of the list in turn; none if one of them is not enabled. -/
def run (step : σ → α → Option σ) : List α → σ → Option σ
  | [], s => some s
  | a :: as, s => (step s a).bind (run step as)

@[simp] theorem run_nil (step : σ → α → Option σ) (s : σ) : run step [] s = some s := rfl
@[simp] theorem run_cons (step : σ → α → Option σ) (a : α) (as : List α) (s : σ) :
    run step (a :: as) s = (step s a).bind (run step as) := rfl

theorem run_cons_some {step : σ → α → Option σ} {a : α} {as : List α} {s t : σ} :
    run step (a :: as) s = some t ↔ ∃ m, step s a = some m ∧ run step as m = some t := by
  simp [Option.bind_eq_some_iff]

theorem run_append (step : σ → α → Option σ) (as bs : List α) (s : σ) :
    run step (as ++ bs) s = (run step as s).bind (run step bs) := by
  induction as generalizing s with
  | nil => rfl
  | cons a as ih =>
    simp only [List.cons_append, run_cons, Option.bind_assoc]
    cases step s a with
    | none => rfl
    | some m => exact ih m

/-- Concatenate two runs. -/
theorem run_trans {step : σ → α → Option σ} {as bs : List α} {s m t : σ}
    (h₁ : run step as s = some m) (h₂ : run step bs m = some t) :
    run step (as ++ bs) s = some t := by
  rw [run_append, h₁]
  exact h₂

/-- Every step the run takes meets `P`, a condition on the state before the
step and on the action. -/
def Along (step : σ → α → Option σ) (P : σ → α → Prop) : List α → σ → Prop
  | [], _ => True
  | a :: as, s => P s a ∧ ∀ t ∈ step s a, Along step P as t

@[simp] theorem along_nil (step : σ → α → Option σ) (P : σ → α → Prop) (s : σ) :
    Along step P [] s := trivial
@[simp] theorem along_cons (step : σ → α → Option σ) (P : σ → α → Prop) (a : α) (as : List α)
    (s : σ) : Along step P (a :: as) s ↔ P s a ∧ ∀ t ∈ step s a, Along step P as t := Iff.rfl

instance decidableAlong (step : σ → α → Option σ) (P : σ → α → Prop)
    [∀ s a, Decidable (P s a)] : ∀ (as : List α) (s : σ), Decidable (Along step P as s)
  | [], _ => .isTrue trivial
  | a :: as, s =>
    have : Decidable (∀ t ∈ step s a, Along step P as t) :=
      match h : step s a with
      | none => .isTrue (by simp)
      | some m =>
        have := decidableAlong step P as m
        decidable_of_iff (Along step P as m) (by simp)
    inferInstanceAs (Decidable (P s a ∧ _))

theorem Along.mono {step : σ → α → Option σ} {P Q : σ → α → Prop} (h : ∀ s a, P s a → Q s a)
    {as : List α} {s : σ} (hp : Along step P as s) : Along step Q as s := by
  induction as generalizing s with
  | nil => trivial
  | cons a as ih => exact ⟨h s a hp.1, fun t ht => ih (hp.2 t ht)⟩

theorem Along.and {step : σ → α → Option σ} {P Q : σ → α → Prop} {as : List α} {s : σ}
    (hp : Along step P as s) (hq : Along step Q as s) :
    Along step (fun s a => P s a ∧ Q s a) as s := by
  induction as generalizing s with
  | nil => trivial
  | cons a as ih => exact ⟨⟨hp.1, hq.1⟩, fun t ht => ih (hp.2 t ht) (hq.2 t ht)⟩

/-- A condition on the actions alone. -/
theorem Along.of_forall {step : σ → α → Option σ} {P : α → Prop} {as : List α}
    (h : ∀ a ∈ as, P a) (s : σ) : Along step (fun _ a => P a) as s := by
  induction as generalizing s with
  | nil => trivial
  | cons a as ih => exact ⟨h a (by simp), fun t _ => ih (fun b hb => h b (by simp [hb])) t⟩

theorem along_append {step : σ → α → Option σ} {P : σ → α → Prop} {as bs : List α} {s m : σ}
    (h : run step as s = some m) :
    Along step P (as ++ bs) s ↔ Along step P as s ∧ Along step P bs m := by
  induction as generalizing s with
  | nil =>
    obtain rfl : s = m := by simpa using h
    simp
  | cons a as ih =>
    obtain ⟨n, hn, hrun⟩ := run_cons_some.mp h
    simp only [List.cons_append, along_cons, hn, Option.mem_some_iff, forall_eq']
    rw [ih hrun, and_assoc]

/-- The condition holds at each single step of the run. -/
theorem Along.at {step : σ → α → Option σ} {P : σ → α → Prop} {as bs : List α} {a : α} {s m : σ}
    (hp : Along step P (as ++ a :: bs) s) (h : run step as s = some m) : P m a :=
  ((along_append h).mp hp).2.1

/-- A run written down: each state with the action taken there. -/
def Trace (step : σ → α → Option σ) : List (σ × α) → σ → σ → Prop
  | [], s, t => s = t
  | x :: rest, s, t => x.1 = s ∧ ∃ m, step s x.2 = some m ∧ Trace step rest m t

theorem Trace.run_append {step : σ → α → Option σ} {past : List (σ × α)} {s t : σ}
    (h : Trace step past s t) (as : List α) :
    run step (past.map Prod.snd ++ as) s = run step as t := by
  induction past generalizing s with
  | nil =>
    obtain rfl : s = t := h
    rfl
  | cons x rest ih =>
    obtain ⟨rfl, m, hm, hrest⟩ := h
    rw [List.map_cons, List.cons_append, run_cons, hm]
    exact ih hrest

/-- A condition along it is one on each of these states and actions. -/
theorem Trace.along_append {step : σ → α → Option σ} {P : σ → α → Prop} {past : List (σ × α)}
    {s t : σ} (h : Trace step past s t) (as : List α) :
    Along step P (past.map Prod.snd ++ as) s ↔ (∀ x ∈ past, P x.1 x.2) ∧ Along step P as t := by
  induction past generalizing s with
  | nil =>
    obtain rfl : s = t := h
    simp
  | cons x rest ih =>
    obtain ⟨rfl, m, hm, hrest⟩ := h
    rw [List.map_cons, List.cons_append, along_cons, hm, List.forall_mem_cons, and_assoc, ← ih hrest]
    simp

/-- What every step keeps, a run keeps; the steps may rely on `P`. -/
theorem Along.invariant {step : σ → α → Option σ} {P : σ → α → Prop} {I : σ → Prop}
    (hstep : ∀ s a t, I s → P s a → step s a = some t → I t) {as : List α} {s t : σ}
    (hp : Along step P as s) (h : run step as s = some t) (hs : I s) : I t := by
  induction as generalizing s with
  | nil =>
    obtain rfl : s = t := by simpa using h
    exact hs
  | cons a as ih =>
    obtain ⟨m, hm, hrun⟩ := run_cons_some.mp h
    exact ih (hp.2 m hm) hrun (hstep s a m hs hp.1 hm)

/-- The same with nothing asked of the steps. -/
theorem invariant {step : σ → α → Option σ} {I : σ → Prop}
    (hstep : ∀ s a t, I s → step s a = some t → I t) {as : List α} {s t : σ}
    (h : run step as s = some t) (hs : I s) : I t := by
  induction as generalizing s with
  | nil =>
    obtain rfl : s = t := by simpa using h
    exact hs
  | cons a as ih =>
    obtain ⟨m, hm, hrun⟩ := run_cons_some.mp h
    exact ih hrun (hstep s a m hs hm)

/-- What an invariant and `P` give about a step holds at every step of the run. -/
theorem Along.strengthen {step : σ → α → Option σ} {P Q : σ → α → Prop} {I : σ → Prop}
    (hstep : ∀ s a t, I s → P s a → step s a = some t → I t) (hQ : ∀ s a, I s → P s a → Q s a)
    {as : List α} {s : σ} (hp : Along step P as s) (hs : I s) : Along step Q as s := by
  induction as generalizing s with
  | nil => trivial
  | cons a as ih =>
    refine ⟨hQ s a hs hp.1, fun t ht => ?_⟩
    exact ih (hp.2 t ht) (hstep s a t hs hp.1 ht)

/-- When every step pays for the actions counted by `p` out of a measure, a run
takes no more of them than the measure was worth. -/
theorem Along.spend {step : σ → α → Option σ} {P : σ → α → Prop} {I : σ → Prop} {μ : σ → Nat}
    {p : α → Bool} (hstep : ∀ s a t, I s → P s a → step s a = some t → I t)
    (hμ : ∀ s a t, I s → P s a → step s a = some t → μ t + [a].countP p ≤ μ s) {as : List α}
    {s t : σ} (hp : Along step P as s) (h : run step as s = some t) (hs : I s) :
    as.countP p + μ t ≤ μ s := by
  induction as generalizing s with
  | nil =>
    obtain rfl : s = t := by simpa using h
    simp
  | cons a as ih =>
    obtain ⟨m, hm, hrun⟩ := run_cons_some.mp h
    have hrest := ih (hp.2 m hm) hrun (hstep s a m hs hp.1 hm)
    have hfirst := hμ s a m hs hp.1 hm
    rw [← List.singleton_append, List.countP_append]
    omega

/-- The states a run goes through, each with the action taken there. -/
def visits (step : σ → α → Option σ) : List α → σ → List (σ × α)
  | [], _ => []
  | a :: as, s => (s, a) :: match step s a with
    | some t => visits step as t
    | none => []

theorem visits_append {step : σ → α → Option σ} {as : List α} {s m : σ} (h : run step as s = some m)
    (bs : List α) : visits step (as ++ bs) s = visits step as s ++ visits step bs m := by
  induction as generalizing s with
  | nil =>
    obtain rfl : s = m := by simpa using h
    rfl
  | cons a as ih =>
    obtain ⟨n, hn, hrun⟩ := run_cons_some.mp h
    simp only [List.cons_append, visits, hn, ih hrun]

theorem Trace.visits_append {step : σ → α → Option σ} {past : List (σ × α)} {s t : σ}
    (h : Trace step past s t) (as : List α) :
    visits step (past.map Prod.snd ++ as) s = past ++ visits step as t := by
  induction past generalizing s with
  | nil =>
    obtain rfl : s = t := h
    rfl
  | cons x rest ih =>
    obtain ⟨rfl, m, hm, hrest⟩ := h
    rw [List.map_cons, List.cons_append, visits, hm, List.cons_append]
    exact congrArg _ (ih hrest)

/-- What every step keeps may speak of the steps taken so far. -/
theorem Along.history_invariant {step : σ → α → Option σ} {P : σ → α → Prop}
    {I : List (σ × α) → σ → Prop}
    (hstep : ∀ past s a t, I past s → P s a → step s a = some t → I (past ++ [(s, a)]) t)
    {as : List α} {past : List (σ × α)} {s t : σ} (hp : Along step P as s)
    (h : run step as s = some t) (hs : I past s) : I (past ++ visits step as s) t := by
  induction as generalizing s past with
  | nil =>
    obtain rfl : s = t := by simpa using h
    simpa [visits] using hs
  | cons a as ih =>
    obtain ⟨m, hm, hrun⟩ := run_cons_some.mp h
    have hrest := ih (hp.2 m hm) hrun (hstep past s a m hs hp.1 hm)
    simpa [visits, hm] using hrest

theorem history_invariant {step : σ → α → Option σ} {I : List (σ × α) → σ → Prop}
    (hstep : ∀ past s a t, I past s → step s a = some t → I (past ++ [(s, a)]) t) {as : List α}
    {past : List (σ × α)} {s t : σ} (h : run step as s = some t) (hs : I past s) :
    I (past ++ visits step as s) t :=
  (Along.of_forall (P := fun _ => True) (fun _ _ => trivial) s).history_invariant
    (fun past s a t hI _ => hstep past s a t hI) h hs

/-- What a run adds up to when each of its steps counts for `f`. -/
def total (step : σ → α → Option σ) (f : σ → α → Nat) : List α → σ → Nat
  | [], _ => 0
  | a :: as, s => f s a + match step s a with
    | some t => total step f as t
    | none => 0

theorem total_zero (step : σ → α → Option σ) (as : List α) (s : σ) :
    total step (fun _ _ => 0) as s = 0 := by
  induction as generalizing s with
  | nil => rfl
  | cons a as ih =>
    simp only [total]
    cases step s a <;> simp [ih]

theorem total_cons {step : σ → α → Option σ} {f : σ → α → Nat} {a : α} {as : List α} {s t : σ}
    (h : step s a = some t) : total step f (a :: as) s = f s a + total step f as t := by
  simp only [total, h]

theorem Trace.total_append {step : σ → α → Option σ} {f : σ → α → Nat} {past : List (σ × α)}
    {s t : σ} (h : Trace step past s t) (as : List α) :
    total step f (past.map Prod.snd ++ as) s =
      past.foldr (fun x n => f x.1 x.2 + n) (total step f as t) := by
  induction past generalizing s with
  | nil =>
    obtain rfl : s = t := h
    rfl
  | cons x rest ih =>
    obtain ⟨rfl, m, hm, hrest⟩ := h
    rw [List.map_cons, List.cons_append, total_cons hm, ih hrest]
    rfl

/-- What a run picks out of its steps is counted step by step. -/
theorem length_picked {β : Type*} (step : σ → α → Option σ) (g : σ × α → Option β) (as : List α)
    (s : σ) : ((visits step as s).filterMap g).length =
      total step (fun s a => (g (s, a)).toList.length) as s := by
  induction as generalizing s with
  | nil => rfl
  | cons a as ih =>
    simp only [visits, total, List.filterMap_cons]
    cases step s a <;> cases g (s, a) <;> simp [ih, Nat.add_comm]

/-- When every step pays what it costs out of a balance and of what it earns, a run
costs no more than it started with and has earned. -/
theorem Along.balance {step : σ → α → Option σ} {P : σ → α → Prop} {I : σ → Prop} {μ : σ → Nat}
    {cost gain : σ → α → Nat} (hstep : ∀ s a t, I s → P s a → step s a = some t → I t)
    (hμ : ∀ s a t, I s → P s a → step s a = some t → cost s a + μ t ≤ gain s a + μ s) {as : List α}
    {s t : σ} (hp : Along step P as s) (h : run step as s = some t) (hs : I s) :
    total step cost as s + μ t ≤ total step gain as s + μ s := by
  induction as generalizing s with
  | nil =>
    obtain rfl : s = t := by simpa using h
    simp [total]
  | cons a as ih =>
    obtain ⟨m, hm, hrun⟩ := run_cons_some.mp h
    have hrest := ih (hp.2 m hm) hrun (hstep s a m hs hp.1 hm)
    have hfirst := hμ s a m hs hp.1 hm
    rw [total_cons hm, total_cons hm]
    omega

theorem balance {step : σ → α → Option σ} {I : σ → Prop} {μ : σ → Nat} {cost gain : σ → α → Nat}
    (hstep : ∀ s a t, I s → step s a = some t → I t)
    (hμ : ∀ s a t, I s → step s a = some t → cost s a + μ t ≤ gain s a + μ s) {as : List α}
    {s t : σ} (h : run step as s = some t) (hs : I s) :
    total step cost as s + μ t ≤ total step gain as s + μ s :=
  (Along.of_forall (P := fun _ => True) (fun _ _ => trivial) s).balance
    (fun s a t hi _ => hstep s a t hi) (fun s a t hi _ => hμ s a t hi) h hs

/-- A measure that only grows by what the steps earn. -/
theorem accumulate {step : σ → α → Option σ} {I : σ → Prop} {μ : σ → Nat} {gain : σ → α → Nat}
    (hstep : ∀ s a t, I s → step s a = some t → I t)
    (hμ : ∀ s a t, I s → step s a = some t → μ t ≤ gain s a + μ s) {as : List α} {s t : σ}
    (h : run step as s = some t) (hs : I s) : μ t ≤ total step gain as s + μ s := by
  have hpaid := @balance σ α step I μ (fun _ _ => 0) gain hstep (fun s a t hi ht => by
    simpa using hμ s a t hi ht) as s t h hs
  omega

/-- The states some run leads to. -/
def Reachable (step : σ → α → Option σ) (init s : σ) : Prop := ∃ as, run step as init = some s

theorem Reachable.start (step : σ → α → Option σ) (init : σ) : Reachable step init init := ⟨[], rfl⟩

theorem Reachable.run {step : σ → α → Option σ} {init s t : σ} {as : List α}
    (hs : Reachable step init s) (h : run step as s = some t) : Reachable step init t := by
  obtain ⟨bs, hbs⟩ := hs
  exact ⟨bs ++ as, run_trans hbs h⟩

theorem Reachable.step {step : σ → α → Option σ} {init s t : σ} {a : α}
    (hs : Reachable step init s) (h : step s a = some t) : Reachable step init t := by
  have hrun : Runs.run step [a] s = some t := by simp [h]
  exact hs.run hrun

theorem Reachable.invariant {step : σ → α → Option σ} {I : σ → Prop} {init s : σ}
    (hinit : I init) (hstep : ∀ s a t, I s → step s a = some t → I t)
    (hs : Reachable step init s) : I s := by
  obtain ⟨as, h⟩ := hs
  exact Runs.invariant hstep h hinit

end Runs
