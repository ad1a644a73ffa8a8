import ZunServer.WorkerSteps

/-!
# Prompts given up on

Once ComfyUI has accepted the prompt of a job, `process_job` waits for its
terminal frame. It interrupts ComfyUI when it stops waiting because of the
timeout. It does not when the answer of `POST /prompt` is lost, when the prompt
id cannot be stored, or when the WebSocket fails.
-/
namespace ZunServer.Attempts

open KeyedTable
open Schema Statements Database Comfy Calls Renditions Worker Server WorkerSteps

/-- The prompt `process_job` has submitted and may have to interrupt. -/
def waitingFor : Stage → Option String
  | .storePromptId _ pid | .spawnWriter _ pid | .awaitCompletion _ pid
  | .joinWriter _ pid .elapsed | .joinWriter _ pid (.failed _) | .interrupt _ pid => some pid
  | _ => none

/-- The prompt whose terminal event the worker of this state waits for. -/
def waiting (s : State) : Option String :=
  match s.worker with
  | .process _ stage => waitingFor stage
  | _ => none

/-- The prompt that `process_job` leaves without an `/interrupt` in this step. -/
def givesUp (s : State) : Act → Option String
  | .worker f => match s.worker, f with
    | .process _ (.submitPrompt _ _), .answerLost pid _ => some pid
    | .process _ (.storePromptId _ pid), .sqlFails _ => some pid
    | .process _ (.joinWriter _ pid (.failed _)), _ => some pid
    | _, _ => none
  | _ => none

/-- The prompt that `process_job` interrupts in this step. -/
def interrupts (s : State) : Act → Option String
  | .worker _ => match s.worker with
    | .process _ (.interrupt _ pid) => some pid
    | _ => none
  | _ => none

/-- `process_job` gives up without an `/interrupt` only on prompts that have ended. -/
def LeavesEnded (s : State) (a : Act) : Prop := ∀ pid ∈ givesUp s a, pid ∈ s.world.comfy.ended

instance (s : State) (a : Act) : Decidable (LeavesEnded s a) :=
  inferInstanceAs (Decidable (∀ pid ∈ givesUp s a, _))

theorem ended_mono {cfg : Config} {s t : State} {a : Act} (hm : Moved cfg s t a) {pid : String}
    (h : pid ∈ s.world.comfy.ended) : pid ∈ t.world.comfy.ended := by
  cases hm.comfy with
  | same he => rw [he]; exact h
  | submit _ _ hacc =>
    obtain ⟨-, he⟩ := Backend.accept_eq_some.mp hacc
    rw [he]
    exact h
  | timeout _ he | cancel _ _ he => rw [he]; exact Backend.ended_stop _ h
  | alone he => exact Backend.ended_step he h

/-- A prompt is waited for until it has ended or is interrupted. -/
def Tended (s : State) (pid : String) : Prop := waiting s = some pid ∨ pid ∈ s.world.comfy.ended

theorem tended_of {s : State} {job : QueuedJob} {stage : Stage} {pid : String}
    (hw : s.worker = .process job stage) (h : waitingFor stage = some pid) : Tended s pid := by
  left
  unfold waiting
  rw [hw]
  exact h

/-- One call of the worker while it waits. -/
theorem waiting_step {cfg : Config} {s t : State} {f : Fate} {l : List GeneratePc}
    {job : QueuedJob} {stage : Stage} {pid : String} (hm : Moved cfg s t (.worker f))
    (hp : perform (s.worker.next cfg s.world.now) f s.world = some (t.world, t.worker, l))
    (hw : s.worker = .process job stage) (h : waitingFor stage = some pid)
    (hleave : LeavesEnded s (.worker f)) (hint : interrupts s (.worker f) ≠ some pid) :
    Tended t pid := by
  have left : givesUp s (.worker f) = some pid → Tended t pid := fun hg =>
    .inr (ended_mono hm (hleave pid hg))
  rw [hw] at hp
  have hs : StageStep s.world t.world f job stage t.worker l := stage_step hp
  generalize hpc : t.worker = pc at hs
  cases hs with
  | goes hg =>
    cases hg with
    | storedId | spawned | waits | timedOut =>
      cases h
      exact tended_of hpc rfl
    | ended hr =>
      rename_i r
      cases h
      cases r with
      | completed => exact .inr (ended_mono hm (hr rfl))
      | failed e => exact tended_of hpc rfl
      | elapsed => exact tended_of hpc rfl
    | _ => cases h
  | fails hl _ =>
    cases hl with
    | storePromptId hf =>
      cases h
      subst hf
      exact left (by simp only [givesUp, hw])
    | joinWriter =>
      cases h
      exact left (by simp only [givesUp, hw])
    | interrupt =>
      cases h
      exact absurd (by simp only [interrupts, hw]) hint
    | _ => cases h
  | _ => cases h

theorem tended_step {cfg : Config} {s t : State} {a : Act} {pid : String} (hm : Moved cfg s t a)
    (hleave : LeavesEnded s a) (hup : staysUp a = true) (hint : interrupts s a ≠ some pid)
    (h : Tended s pid) : Tended t pid := by
  rcases h with h | h
  · unfold waiting at h
    split at h
    · rename_i job stage hw
      cases hm with
      | worker hp tasks => exact waiting_step (.worker hp tasks) hp hw h hleave hint
      | task _ _ worker _ => exact tended_of (worker.trans hw) h
      | writer _ worker _ => exact tended_of (worker.trans hw) h
      | arrive _ worker _ => exact tended_of (worker.trans hw) h
      | drop _ _ _ worker _ => exact tended_of (worker.trans hw) h
      | env _ worker _ => exact tended_of (worker.trans hw) h
      | crash _ => cases hup
    · cases h
  · exact .inr (ended_mono hm h)

/-- ComfyUI has accepted the prompt. -/
theorem tended_submitted {cfg : Config} {s t : State} {f : Fate} {job : QueuedJob}
    {name client pid : String} (hw : s.worker = .process job (.submitPrompt name client))
    (hf : f = .name pid ∨ ∃ e, f = .answerLost pid e) (hm : Moved cfg s t (.worker f))
    (hleave : LeavesEnded s (.worker f)) : Tended t pid := by
  rcases hf with rfl | ⟨e, rfl⟩
  · cases hm with
    | worker hp tasks =>
      rw [hw] at hp
      obtain ⟨c, k, x, hc, hex, hk⟩ := perform_eq_some.mp hp
      cases hc
      obtain ⟨b, -, he⟩ := Option.map_eq_some_iff.mp hex
      obtain ⟨-, rfl⟩ := Prod.mk.inj he
      exact tended_of (Prod.mk.inj hk).1.symm rfl
  · exact .inr (ended_mono hm (hleave pid (by simp [givesUp, hw])))

/-- From the moment ComfyUI has accepted a prompt, and as long as the process
stays up: the worker still waits for it, or it has ended, or the worker has sent
an `/interrupt` for it. So `process_job` returns, and the worker submits another
job, in the last two cases only. -/
theorem prompt_tended {cfg : Config} {s m t : State} {f : Fate} {bs : List Act} {job : QueuedJob}
    {name client pid : String} (hw : s.worker = .process job (.submitPrompt name client))
    (hf : f = .name pid ∨ ∃ e, f = .answerLost pid e) (hm : step cfg s (.worker f) = some m)
    (ht : run cfg bs m = some t) (hup : Along cfg (fun _ a => staysUp a = true) bs m)
    (hleave : Along cfg LeavesEnded (.worker f :: bs) s) :
    waiting t = some pid ∨ pid ∈ t.world.comfy.ended ∨
      ¬ Along cfg (fun u a => interrupts u a ≠ some pid) bs m := by
  by_cases hint : Along cfg (fun u a => interrupts u a ≠ some pid) bs m
  · have hstart : Tended m pid := tended_submitted hw hf (step_moved hm) hleave.1
    have hend : Tended t pid := by
      refine Runs.Along.invariant (I := fun u => Tended u pid) (fun u a v hu ha hs => ?_)
        (((hleave.2 m hm).and hup).and hint) ht hstart
      exact tended_step (step_moved hs) ha.1.1 ha.1.2 ha.2 hu
    rcases hend with hwait | hended
    · exact .inl hwait
    · exact .inr (.inl hended)
  · exact .inr (.inr hint)

/-- Two queued jobs, the first about to be submitted. -/
def twoJobs : List Act :=
  firstSubmit 0 jobA ++ nextSubmit 1 jobB ++ startAndClaim ++
    (processToSubmit clientA "p1").take 6

/-- The prompt times out and is interrupted; the worker goes on to submit the
second job. -/
def timeoutRun : List Act :=
  [.worker .ok, .worker .ok, .env (.comfy .start), .worker .elapsed] ++
    List.replicate 7 (.worker .ok) ++ processToSubmit clientB "p2"

theorem prompt_tended_timeout : ∃ s m t, run sampleConfig twoJobs State.init = some s ∧
    step sampleConfig s (.worker (.name "p1")) = some m ∧
    run sampleConfig timeoutRun m = some t ∧ (waiting t = some "p1" ∨ "p1" ∈ t.world.comfy.ended ∨
      ¬ Along sampleConfig (fun u a => interrupts u a ≠ some "p1") timeoutRun m) := by
  have hrun : ((run sampleConfig twoJobs State.init).bind fun s =>
      if Along sampleConfig LeavesEnded (.worker (.name "p1") :: timeoutRun) s then
        (step sampleConfig s (.worker (.name "p1"))).bind fun m =>
          if Along sampleConfig (fun _ a => staysUp a = true) timeoutRun m then
            (run sampleConfig timeoutRun m).map fun _ => s.worker
          else none
      else none) = some (.process
        ⟨jobA, 1, "make it blue", "edit", some 120, 7⟩ (.submitPrompt "up.png" clientA)) := by
    simp only [twoJobs, List.append_assoc, run_first]
    decide +kernel
  obtain ⟨s, hs, h⟩ := Option.bind_eq_some_iff.mp hrun
  obtain ⟨hleave, h⟩ := Option.ite_none_right_eq_some.mp h
  obtain ⟨m, hm, h⟩ := Option.bind_eq_some_iff.mp h
  obtain ⟨hup, h⟩ := Option.ite_none_right_eq_some.mp h
  obtain ⟨t, ht, hw⟩ := Option.map_eq_some_iff.mp h
  exact ⟨s, m, t, hs, hm, ht, prompt_tended hw (.inl rfl) hm ht hup hleave⟩

/-- The WebSocket closes while ComfyUI executes the prompt; the job is marked
failed and the worker goes on to submit the second one. -/
def closeRun : List Act :=
  [.worker .ok, .worker .ok, .env (.comfy .start), .worker (.frame .close)] ++
    List.replicate 6 (.worker .ok) ++ processToSubmit clientB "p2"

/-- The first prompt still runs, and nothing was sent to stop it. -/
theorem prompt_left_running : ∃ s m t, run sampleConfig twoJobs State.init = some s ∧
    step sampleConfig s (.worker (.name "p1")) = some m ∧ run sampleConfig closeRun m = some t ∧
    Along sampleConfig (fun _ a => staysUp a = true) closeRun m ∧
    t.world.comfy.executing.map Prompt.promptId = some "p1" ∧
    ¬ (waiting t = some "p1" ∨ "p1" ∈ t.world.comfy.ended ∨
      ¬ Along sampleConfig (fun u a => interrupts u a ≠ some "p1") closeRun m) := by
  have hrun : ((run sampleConfig twoJobs State.init).bind fun s =>
      (step sampleConfig s (.worker (.name "p1"))).bind fun m =>
        if Along sampleConfig (fun _ a => staysUp a = true) closeRun m ∧
            Along sampleConfig (fun u a => interrupts u a ≠ some "p1") closeRun m then
          (run sampleConfig closeRun m).map fun t =>
            (t.world.comfy.executing.map Prompt.promptId, waiting t, t.world.comfy.ended)
        else none) = some (some "p1", some "p2", []) := by
    simp only [twoJobs, List.append_assoc, run_first]
    decide +kernel
  obtain ⟨s, hs, h⟩ := Option.bind_eq_some_iff.mp hrun
  obtain ⟨m, hm, h⟩ := Option.bind_eq_some_iff.mp h
  obtain ⟨⟨hup, hint⟩, h⟩ := Option.ite_none_right_eq_some.mp h
  obtain ⟨t, ht, h⟩ := Option.map_eq_some_iff.mp h
  obtain ⟨hexec, h⟩ := Prod.mk.inj h
  obtain ⟨hwait, hended⟩ := Prod.mk.inj h
  refine ⟨s, m, t, hs, hm, ht, hup, hexec, ?_⟩
  rw [hwait, hended]
  rintro (h | h | h)
  · exact absurd h (by decide)
  · cases h
  · exact h hint

end ZunServer.Attempts
