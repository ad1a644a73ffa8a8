import ZunServer.Cancel

/-!
# Cancelling one job, interrupting another

`cancel_job` takes the row from `running` and then sends `/interrupt`, which
stops whatever ComfyUI executes when it arrives. Between the two the worker may
finish the cancelled job and submit the next one.
-/
namespace ZunServer.Interrupts

open KeyedTable
open Schema Statements Database Comfy Calls Renditions Worker Handlers Purge Server Rows Lifecycle
open WorkerSteps RowInvariant Cancel

/-- The request reaches ComfyUI. -/
def delivered : Fate → Bool
  | .ok | .answerLost _ _ => true
  | _ => false

/-- The job that a cancel's `/interrupt` is for, and the job whose prompt it stops. -/
def stops (s : State) : Act → Option (String × String)
  | .task i f => match s.tasks[i]?, s.world.comfy.executing with
    | some (.cancel (.interrupt id)), some p =>
      if delivered f then p.job.map fun k => (id, k) else none
    | _, _ => none
  | _ => none

/-- The job whose prompt the worker gets accepted. -/
def submits (s : State) : Act → Option String
  | .worker (.name _) | .worker (.answerLost _ _) => match s.worker with
    | .process job (.submitPrompt _ _) => some job.id
    | _ => none
  | _ => none

/-- The jobs of the cancels between their `UPDATE` and their `/interrupt`. -/
def interrupting (s : State) : List String :=
  s.tasks.filterMap fun
    | .cancel (.interrupt id) => some id
    | _ => none

/-- The jobs that ComfyUI has an unfinished prompt of. -/
def unfinishedJobs (s : State) : List String := s.world.comfy.unfinished.filterMap Prompt.job

/-- The interrupt of a cancel stops no other job. -/
def StopsOwn (s : State) (a : Act) : Prop := ∀ x ∈ stops s a, x.2 = x.1

/-- A cancel takes a job from `running` only while ComfyUI has no unfinished
prompt of another one, and the worker submits no prompt while a cancel of
another job is between its `UPDATE` and its `/interrupt`. -/
def Exclusive (s : State) (a : Act) : Prop :=
  (∀ id ∈ takesRunning s a, ∀ k ∈ unfinishedJobs s, k = id) ∧
    (∀ k ∈ submits s a, ∀ id ∈ interrupting s, k = id)

instance (s : State) (a : Act) : Decidable (StopsOwn s a) :=
  inferInstanceAs (Decidable (∀ x ∈ stops s a, _))

instance (s : State) (a : Act) : Decidable (Exclusive s a) :=
  inferInstanceAs (Decidable ((∀ id ∈ takesRunning s a, _) ∧ ∀ k ∈ submits s a, _))

theorem mem_interrupting {s : State} {id : String} :
    id ∈ interrupting s ↔ ∃ i : Nat, s.tasks[i]? = some (.cancel (.interrupt id)) := by
  unfold interrupting
  rw [List.mem_filterMap]
  constructor
  · rintro ⟨τ, hτ, h⟩
    split at h
    · obtain rfl := Option.some.inj h
      exact List.getElem?_of_mem hτ
    · cases h
  · rintro ⟨i, hi⟩
    exact ⟨.cancel (.interrupt id), List.mem_of_getElem? hi, rfl⟩

/-- A cancel gets to its `/interrupt` by taking its job from `running`. -/
theorem interrupting_step {cfg : Config} {s t : State} {a : Act} (hm : Moved cfg s t a)
    {id : String} (h : id ∈ interrupting t) : id ∈ interrupting s ∨ takesRunning s a = some id := by
  obtain ⟨i, hi⟩ := mem_interrupting.mp h
  rcases cancel_origin hm hi with ⟨hi, -⟩ | ⟨id', -, -, he⟩ | ⟨f, pc₀, rfl, hi₀, hstep⟩
  · exact .inl (mem_interrupting.mpr ⟨i, hi⟩)
  · cases he
  · cases hstep with
    | taken hf hrow _ =>
      subst hf
      exact .inr (takesRunning_try hi₀ hrow)
    | retaken hf hrow _ =>
      subst hf
      exact .inr (takesRunning_retry hi₀ hrow)

theorem mem_unfinishedJobs {s : State} {k : String} :
    k ∈ unfinishedJobs s ↔ ∃ p ∈ s.world.comfy.unfinished, p.job = some k := by
  simp [unfinishedJobs]

/-- Only the worker gives ComfyUI a prompt of a job. -/
theorem unfinishedJobs_step {cfg : Config} {s t : State} {a : Act} (hm : Moved cfg s t a)
    {k : String} (h : k ∈ unfinishedJobs t) : k ∈ unfinishedJobs s ∨ submits s a = some k := by
  obtain ⟨p, hp, hk⟩ := mem_unfinishedJobs.mp h
  cases hm.comfy with
  | same he =>
    rw [he] at hp
    exact .inl (mem_unfinishedJobs.mpr ⟨p, hp, hk⟩)
  | submit hw hf hacc =>
    rcases (Backend.mem_unfinished_accept hacc).mp hp with hp | rfl
    · exact .inl (mem_unfinishedJobs.mpr ⟨p, hp, hk⟩)
    · right
      cases hk
      unfold submits
      rcases hf with rfl | ⟨e, rfl⟩ <;> rw [hw]
  | timeout hw he | cancel hi hf he =>
    rw [he] at hp
    exact .inl (mem_unfinishedJobs.mpr ⟨p, Backend.unfinished_stop _ p hp, hk⟩)
  | alone he =>
    rcases Backend.unfinished_step he p hp with hp | hwf
    · exact .inl (mem_unfinishedJobs.mpr ⟨p, hp, hk⟩)
    · rw [Prompt.job, hwf] at hk
      cases hk

/-- While an interrupt is pending, every unfinished prompt of a job is its job's. -/
def PendingOwn (s : State) : Prop :=
  ∀ id ∈ interrupting s, ∀ k ∈ unfinishedJobs s, k = id

theorem takes_not_submits {s : State} {a : Act} {id k : String} (h : takesRunning s a = some id) :
    submits s a ≠ some k := by
  cases a with
  | task i f =>
    intro h'
    cases h'
  | _ => cases h

theorem pendingOwn_step {cfg : Config} {s t : State} {a : Act} (hm : Moved cfg s t a)
    (hex : Exclusive s a) (h : PendingOwn s) : PendingOwn t := by
  intro id hid k hk
  rcases interrupting_step hm hid with hid | htake
  · rcases unfinishedJobs_step hm hk with hk | hsub
    · exact h id hid k hk
    · exact hex.2 k hsub id hid
  · rcases unfinishedJobs_step hm hk with hk | hsub
    · exact hex.1 id htake k hk
    · exact absurd hsub (takes_not_submits htake)

theorem stops_cases {s : State} {a : Act} {id k : String} (h : stops s a = some (id, k)) :
    id ∈ interrupting s ∧ k ∈ unfinishedJobs s := by
  unfold stops at h
  split at h
  · rename_i i f
    split at h
    · rename_i id' p hi hexec
      split at h
      · obtain ⟨k', hk', he⟩ := Option.map_eq_some_iff.mp h
        cases he
        refine ⟨mem_interrupting.mpr ⟨i, hi⟩, mem_unfinishedJobs.mpr ⟨p, ?_, hk'⟩⟩
        simp [Backend.unfinished, hexec]
      · cases h
    · cases h
  · cases h

/-- In every run whose steps are `Exclusive`, a cancel interrupts no other job. -/
theorem cancel_stops_own {cfg : Config} {as : List Act}
    (h : Along cfg Exclusive as State.init) : Along cfg StopsOwn as State.init := by
  refine Runs.Along.strengthen (I := PendingOwn) (fun s a t hs ha hstep => ?_)
    (fun s a hs _ x hx => ?_) h ?_
  · exact pendingOwn_step (step_moved hstep) ha hs
  · obtain ⟨hid, hk⟩ := stops_cases hx
    exact hs x.1 hid x.2 hk
  · intro id hid
    cases hid

/-- Two jobs, and the cancels of both are under way at one time. The first one stops the prompt of
its job before the worker goes on to the other job; the second one then stops that one's. -/
def twoCancels : List Act :=
  firstSubmit 0 jobA ++ nextSubmit 1 jobB ++ startAndClaim ++ processToSubmit clientA "p1" ++
    [.env (.comfy .start), .arrive (.cancel jobA), .arrive (.cancel jobB), .task 2 .ok, .task 2 .ok,
      .worker .ok, .worker .ok, .worker (.frame (.executionError "interrupted"))] ++
    List.replicate 6 (.worker .ok) ++ processToSubmit clientB "p2" ++
    [.env (.comfy .start), .task 3 .ok, .task 2 .ok, .task 3 .ok]

theorem cancel_stops_own_sample : (run sampleConfig twoCancels State.init).isSome = true ∧
    Along sampleConfig StopsOwn twoCancels State.init := by
  refine ⟨?_, cancel_stops_own ?_⟩
  · simp only [twoCancels, List.append_assoc, run_first]
    decide +kernel
  · simp only [twoCancels, List.append_assoc, along_first]
    decide +kernel

/-- Two jobs. The cancel of the first takes its row while its prompt runs; before
its `/interrupt` arrives ComfyUI finishes the prompt, the worker has its
completion refused, claims the second job and submits it. -/
def crossRun : List Act :=
  firstSubmit 0 jobA ++ nextSubmit 1 jobB ++ startAndClaim ++ processToSubmit clientA "p1" ++
    [.arrive (.cancel jobA), .task 2 .ok] ++ processToDone jobA ++
    List.replicate 3 (.worker .ok) ++ processToSubmit clientB "p2" ++
    [.env (.comfy .start), .task 2 .ok]

/-- The interrupt of the cancel of one job stops the prompt of another. -/
theorem cancel_stops_other : (run sampleConfig crossRun State.init).isSome = true ∧
    ¬ Along sampleConfig StopsOwn crossRun State.init := by
  simp only [crossRun, List.append_assoc, run_first, along_first]
  constructor <;> decide +kernel

end ZunServer.Interrupts
