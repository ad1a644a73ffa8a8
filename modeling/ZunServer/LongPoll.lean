import ZunServer.RowInvariant

/-!
# The long poll of `get_job`

A handler reads the row, subscribes to `job_events`, and then parks until the
version moves on from the one it has seen. Every writer of a status or a progress
bumps the version after its statement. A change that a handler's first read does
not see and whose bump comes before it subscribes is not signalled to it.
-/
namespace ZunServer.LongPoll

open KeyedTable
open Schema Statements Database Comfy Calls Renditions Worker Handlers CustomPrompts Purge Server
open Rows RowInvariant

/-- What a handler that holds the request open has read of its job. -/
def holding : ServerTask → Option JobFullRow
  | .get (.subscribe row) | .get (.checkDeadline row _) | .get (.changed row _)
  | .get (.reread row _) => some row
  | _ => none

/-- The same of one that has not subscribed yet. -/
def unsubscribed : ServerTask → Option JobFullRow
  | .get (.subscribe row) => some row
  | _ => none

/-- The version a receiver has seen. -/
def seenBy : ServerTask → Option Nat
  | .get (.checkDeadline _ seen) | .get (.changed _ seen) | .get (.reread _ seen) => some seen
  | _ => none

/-- The handler at this place waits in `events.changed()`. -/
def parkedAt (s : State) (i : Nat) : Option (JobFullRow × Nat) :=
  match s.tasks[i]? with
  | some (.get (.changed row seen)) => some (row, seen)
  | _ => none

/-- The stored status or progress is not the one that was read. -/
def Differs (s : State) (row : JobFullRow) : Prop :=
  ∃ r ∈ row? s row.id, GetPc.pair (.of r) ≠ GetPc.pair row

instance (s : State) (row : JobFullRow) : Decidable (Differs s row) :=
  inferInstanceAs (Decidable (∃ r ∈ row? s row.id, GetPc.pair (.of r) ≠ GetPc.pair row))

/-- The calls of `notify_job_change`, and the bump of the progress writer. -/
def bumps (s : State) : Act → Bool
  | .worker _ => match s.worker with
    | .process _ .notifyRunning | .notifyJob | .notifyRequeued => true
    | _ => false
  | .task i _ => match s.tasks[i]? with
    | some (.cancel (.notify _)) | some (.hide (.notify _ _)) => true
    | _ => false
  | .writer _ => s.world.writer.any Writer.bump
  | _ => false

/-- No bump falls between a handler's first read and its subscription while the
stored pair is not the one it read. -/
def Unmissed (s : State) (a : Act) : Prop :=
  bumps s a = true → ∀ τ ∈ s.tasks, ∀ row ∈ unsubscribed τ, ¬ Differs s row

instance (s : State) (a : Act) : Decidable (Unmissed s a) :=
  inferInstanceAs (Decidable (bumps s a = true → ∀ τ ∈ s.tasks, ∀ row ∈ unsubscribed τ, _))

theorem worker_notifies {cfg : Config} {s : State} {f : Fate}
    {k : Call.Answer (.runtime .notifyJobChange) → WorkerPc × List GeneratePc}
    (h : s.worker.next cfg s.world.now = some ⟨.runtime .notifyJobChange, k⟩) :
    bumps s (.worker f) = true := by
  unfold bumps
  generalize s.worker = pc at h
  cases pc with
  | process job stage =>
    cases stage <;> cases h
    rfl
  | _ => cases h <;> rfl

theorem task_notifies {cfg : Config} {s : State} {i : Nat} {f : Fate} {τ : ServerTask}
    {k : Call.Answer (.runtime .notifyJobChange) → ServerTask} (hi : s.tasks[i]? = some τ)
    (h : τ.next cfg s.world.now = some ⟨.runtime .notifyJobChange, k⟩) :
    bumps s (.task i f) = true := by
  cases τ with
  | submit pc | cancel pc | hide pc | derived pc | generate pc | purge pc | get pc | prompt pc =>
    obtain ⟨k₀, h, -⟩ := Proc.map_eq_some.mp h
    cases pc <;> cases h <;> simp only [bumps, hi]
  | dropped => cases h

theorem exec_events {w w' : World} {c : Call} {f : Fate} {x : c.Answer}
    (h : exec w c f = some (w', x)) : w'.events = w.events ∨
      (c = .runtime .notifyJobChange ∧ w'.events = w.events + 1) := by
  rcases (exec_change h).events with he | ⟨q, rfl, he | ⟨rfl, he⟩⟩
  · exact .inl he
  · exact .inl he
  · exact .inr ⟨rfl, he⟩

theorem writer_events {s : State} {f : Fate} {w' : World} (h : writerStep s.world f = some w') :
    w'.events = s.world.events ∨
      (bumps s (.writer f) = true ∧ w'.events = s.world.events + 1) := by
  unfold writerStep at h
  split at h
  · cases h
  · rename_i id ps last hwr
    cases h
    exact .inr ⟨by simp [bumps, hwr], rfl⟩
  · cases h
  · split at h
    · obtain ⟨⟨w₁, x⟩, hex, rfl⟩ := Option.map_eq_some_iff.mp h
      rcases execSql_eq_some hex with ⟨db, a, -, -, rfl, -⟩ | ⟨rfl, -⟩ <;> exact .inl rfl
    · cases h
      exact .inl rfl

/-- While the process is up, the version only ever moves on, and by a bump. -/
theorem events_step {cfg : Config} {s t : State} {a : Act} (hm : Moved cfg s t a)
    (hup : staysUp a = true) : t.world.events = s.world.events ∨
      (bumps s a = true ∧ t.world.events = s.world.events + 1) := by
  cases hm with
  | worker h tasks =>
    obtain ⟨c, k, x, hc, hex, -⟩ := perform_eq_some.mp h
    rcases exec_events hex with he | ⟨rfl, he⟩
    · exact .inl he
    · exact .inr ⟨worker_notifies hc, he⟩
  | task hi h worker tasks =>
    obtain ⟨c, k, x, hc, hex, -⟩ := perform_eq_some.mp h
    rcases exec_events hex with he | ⟨rfl, he⟩
    · exact .inl he
    · exact .inr ⟨task_notifies hi hc, he⟩
  | writer h worker tasks => exact writer_events h
  | arrive world worker tasks => exact .inl (by rw [world])
  | drop hi live world worker tasks => exact .inl (by rw [world])
  | env he worker tasks => exact .inl (Env.apply_change he).events
  | crash h => cases hup

/-- No receiver has seen a version that is still to come. -/
def SeenOk (s : State) : Prop :=
  ∀ (i : Nat) τ n, s.tasks[i]? = some τ → seenBy τ = some n → n ≤ s.world.events

theorem seen_finish (row : JobFullRow) : seenBy (.get (.finish row)) = none := by
  unfold GetPc.finish
  split <;> rfl

theorem seen_call {pc pc' : GetPc} {f : Fate} {w w' : World}
    (h : perform pc.next f w = some (w', pc')) {n : Nat} (hn : seenBy (.get pc') = some n) :
    seenBy (.get pc) = some n ∨ n = w.events := by
  obtain ⟨c, k, x, hc, hex, rfl⟩ := perform_eq_some.mp h
  cases pc with
  | selectRow id wait =>
    cases hc
    rcases x with e | _ | row
    · cases hn
    · cases hn
    · dsimp only at hn
      split at hn
      · cases hn
      · rw [seen_finish] at hn
        cases hn
  | subscribe row =>
    cases hc
    cases f <;> cases hex
    exact .inr (Option.some.inj hn).symm
  | checkDeadline row seen =>
    cases hc
    cases x
    · exact .inl hn
    · rw [seen_finish] at hn
      cases hn
  | changed row seen =>
    cases hc
    cases f with
    | ok =>
      obtain ⟨-, hex⟩ := Option.ite_none_right_eq_some.mp hex
      cases hex
      exact .inr (Option.some.inj hn).symm
    | elapsed =>
      cases hex
      exact .inl hn
    | _ => cases hex
  | reread row seen =>
    cases hc
    rcases x with e | _ | current
    · cases hn
    · cases hn
    · dsimp only at hn
      split at hn
      · rw [seen_finish] at hn
        cases hn
      · exact .inl hn
  | countAhead row =>
    cases hc
    rcases x with e | n <;> cases hn
  | answered r => cases hc

theorem SeenOk.step {cfg : Config} {s t : State} {a : Act} (h : SeenOk s) (hm : Moved cfg s t a) :
    SeenOk t := by
  intro i τ n hi hn
  have mono : staysUp a = true → s.world.events ≤ t.world.events := by
    intro hup
    rcases events_step hm hup with he | ⟨-, he⟩ <;> omega
  cases hm.origin hi with
  | kept hi₀ _ =>
    by_cases hup : staysUp a = true
    · exact (h i τ n hi₀ hn).trans (mono hup)
    · cases hm with
      | crash he => rw [he] at hi; cases hi
      | _ => exact absurd rfl hup
  | moved hi₀ hcall =>
    cases task_moved hcall with
    | get hp =>
      rcases seen_call hp hn with hold | hnow
      · exact (h i _ n hi₀ hold).trans (mono rfl)
      · exact (Nat.le_of_eq hnow).trans (mono rfl)
    | _ => cases hn
  | arrived hlen hτ =>
    rename_i r
    subst hτ
    cases r <;> cases hn
  | spawned _ _ _ hτ =>
    subst hτ
    cases hn
  | dropped hτ =>
    subst hτ
    cases hn

theorem reachable_seen {cfg : Config} {s : State} (h : Reachable cfg s) : SeenOk s :=
  Runs.Reachable.invariant (fun i τ n hi => by simp [State.init] at hi)
    (fun _ _ _ hi hs => hi.step (step_moved hs)) h

/-- A handler that was holding the request open at version `n`, while the stored
pair has differed from the one it read ever since: either it has yet to subscribe
and no bump has come, or it has seen no version past `n`, or it is about to find
the difference. -/
inductive Behind (n : Nat) (row : JobFullRow) (w : World) : ServerTask → Prop
  | subscribe (h : w.events = n) : Behind n row w (.get (.subscribe row))
  | checkDeadline {seen : Nat} (h : seen ≤ n) : Behind n row w (.get (.checkDeadline row seen))
  | changed {seen : Nat} (h : seen ≤ n) : Behind n row w (.get (.changed row seen))
  | reread {seen : Nat} : Behind n row w (.get (.reread row seen))
  | countAhead {row' : JobFullRow} : Behind n row w (.get (.countAhead row'))
  | answered {r : Response} : Behind n row w (.get (.answered r))
  | dropped : Behind n row w .dropped

theorem behind_finish (n : Nat) (row row' : JobFullRow) (w : World) :
    Behind n row w (.get (.finish row')) := by
  unfold GetPc.finish
  split
  · exact .countAhead
  · exact .answered

theorem behind_call {s : State} {pc pc' : GetPc} {f : Fate} {w' : World} {n : Nat}
    {row : JobFullRow} (h : Behind n row s.world (.get pc)) (hd : Differs s row)
    (hp : perform pc.next f s.world = some (w', pc')) : Behind n row w' (.get pc') := by
  obtain ⟨c, k, x, hc, hex, rfl⟩ := perform_eq_some.mp hp
  cases h with
  | subscribe he =>
    cases hc
    cases f <;> cases hex
    exact .checkDeadline (Nat.le_of_eq he)
  | checkDeadline he =>
    cases hc
    cases x
    · exact .changed he
    · exact behind_finish _ _ _ _
  | changed he =>
    cases hc
    exact .reread
  | reread =>
    cases hc
    rcases execSql_eq_some hex with ⟨db, a, -, hrun, rfl, rfl⟩ | ⟨rfl, e, rfl⟩
    · cases hrun
      obtain ⟨r, hr, hpair⟩ := hd
      cases hrow : (s.world.db.jobs.find? row.id).filter (fun r => r.deletedAt = none) with
      | none => exact .answered
      | some r' =>
        obtain rfl : r' = r := Option.some.inj ((Option.filter_eq_some_iff.mp hrow).1.symm.trans hr)
        simp only [Option.map_some, if_pos hpair]
        exact behind_finish _ _ _ _
    · exact .answered
  | countAhead =>
    cases hc
    rcases x with e | m <;> exact .answered
  | answered => cases hc

theorem behind_step {cfg : Config} {s t : State} {a : Act} (hm : Moved cfg s t a)
    (hup : staysUp a = true) (hmiss : Unmissed s a) {n : Nat} {row : JobFullRow}
    (hd : Differs s row) {i : Nat} {τ : ServerTask} (hi : s.tasks[i]? = some τ)
    (h : Behind n row s.world τ) : ∃ τ', t.tasks[i]? = some τ' ∧ Behind n row t.world τ' := by
  rcases hm.task_at hup hi with ⟨hi', -⟩ | ⟨f, τ', rfl, hi', hcall⟩ | ⟨-, hi', -⟩
  · refine ⟨τ, hi', ?_⟩
    cases h with
    | subscribe he =>
      rcases events_step hm hup with hsame | ⟨hbump, -⟩
      · exact .subscribe (hsame.trans he)
      · exact absurd hd (hmiss hbump _ (List.mem_of_getElem? hi) row rfl)
    | checkDeadline he => exact .checkDeadline he
    | changed he => exact .changed he
    | reread => exact .reread
    | countAhead => exact .countAhead
    | answered => exact .answered
    | dropped => exact .dropped
  · refine ⟨τ', hi', ?_⟩
    cases task_moved hcall with
    | get hp => exact behind_call h hd hp
    | _ => cases h
  · exact ⟨.dropped, hi', .dropped⟩

theorem behind_start {s : State} (hs : SeenOk s) {i : Nat} {τ : ServerTask}
    (hi : s.tasks[i]? = some τ) {row : JobFullRow} (h : holding τ = some row) :
    Behind s.world.events row s.world τ := by
  cases τ with
  | get pc =>
    cases pc <;> cases h
    · exact .subscribe rfl
    · exact .checkDeadline (hs i _ _ hi rfl)
    · exact .changed (hs i _ _ hi rfl)
    · exact .reread
  | _ => cases h

/-- In every run in which no bump falls between a handler's first read and its
subscription while the stored pair is not the one it read: take a handler that
waits in `events.changed()`, and a state since its first read from which on the
stored pair has differed from the one it read. If the version has been bumped
since, there is a bump that the handler has not seen. -/
theorem changes_signalled {cfg : Config} {as bs : List Act} {v s : State}
    (hv : run cfg as State.init = some v) (hs : run cfg bs v = some s)
    (hmiss : Along cfg Unmissed (as ++ bs) State.init) (hup : Along cfg (fun _ a => staysUp a = true) bs v)
    {i : Nat} {row : JobFullRow} {seen : Nat} (hread : (v.tasks[i]?).bind holding = some row)
    (hdiff : Along cfg (fun u _ => Differs u row) bs v)
    (hbump : v.world.events < s.world.events) (hparked : parkedAt s i = some (row, seen)) :
    seen < s.world.events := by
  obtain ⟨τ, hi, hτ⟩ := Option.bind_eq_some_iff.mp hread
  have hstart := behind_start (reachable_seen ⟨as, hv⟩) hi hτ
  have hcond := (((Runs.along_append hv).mp hmiss).2.and hdiff).and hup
  obtain ⟨τ', hi', hbehind⟩ : ∃ τ', s.tasks[i]? = some τ' ∧
      Behind v.world.events row s.world τ' := by
    refine Runs.Along.invariant (I := fun u => ∃ τ', u.tasks[i]? = some τ' ∧
      Behind v.world.events row u.world τ') (fun u a u' hu ha hstep => ?_) hcond hs ⟨τ, hi, hstart⟩
    obtain ⟨τ', hi', hbehind⟩ := hu
    exact behind_step (step_moved hstep) ha.2 ha.1.1 ha.1.2 hi' hbehind
  unfold parkedAt at hparked
  rw [hi'] at hparked
  cases hbehind with
  | changed hseen =>
    cases hparked
    omega
  | _ => cases hparked

/-- A job is submitted and a client polls it before the worker starts. -/
def pollQueued : List Act := firstSubmit 0 jobA ++ [.arrive (.get jobA (some 25)), .task 1 .ok]

/-- The handler subscribes and parks, the worker claims the job and bumps. -/
theorem changes_signalled_sample : ∃ v s row seen,
    run sampleConfig (pollQueued ++ [.task 1 .ok, .task 1 .ok] ++ startAndClaim) State.init = some v ∧
    run sampleConfig [.worker .ok] v = some s ∧ parkedAt s 1 = some (row, seen) ∧
    seen < s.world.events := by
  have hrun : ((run sampleConfig (pollQueued ++ [.task 1 .ok, .task 1 .ok] ++ startAndClaim)
      State.init).bind fun v => (run sampleConfig [.worker .ok] v).bind fun s =>
        (parkedAt s 1).bind fun x =>
          if (v.tasks[1]?).bind holding = some x.1 ∧
              Along sampleConfig (fun u _ => Differs u x.1) [.worker .ok] v ∧
              v.world.events < s.world.events then some x.2 else none) = some 0 := by
    simp only [pollQueued, List.append_assoc, run_first]
    decide +kernel
  obtain ⟨v, hv, h⟩ := Option.bind_eq_some_iff.mp hrun
  obtain ⟨s, hs, h⟩ := Option.bind_eq_some_iff.mp h
  obtain ⟨⟨row, seen⟩, hparked, h⟩ := Option.bind_eq_some_iff.mp h
  obtain ⟨⟨hread, hdiff, hbump⟩, -⟩ := Option.ite_none_right_eq_some.mp h
  have hmiss : Along sampleConfig Unmissed
      (pollQueued ++ [.task 1 .ok, .task 1 .ok] ++ startAndClaim ++ [.worker .ok]) State.init := by
    simp only [pollQueued, List.append_assoc, along_first]
    decide +kernel
  exact ⟨v, s, row, seen, hv, hs, hparked, changes_signalled hv hs hmiss
    ⟨rfl, fun _ _ => trivial⟩ hread hdiff hbump hparked⟩

/-- The worker claims the job and bumps between the handler's read and its
subscription. -/
def claimBetween : List Act := [.worker .ok, .task 1 .ok, .task 1 .ok]

/-- The handler waits with the change stored and its bump seen: only the tick
ends the wait. -/
theorem change_missed : ∃ v s row seen,
    run sampleConfig (pollQueued ++ startAndClaim) State.init = some v ∧
    run sampleConfig claimBetween v = some s ∧ (v.tasks[1]?).bind holding = some row ∧
    Along sampleConfig (fun u _ => Differs u row) claimBetween v ∧ Differs s row ∧
    v.world.events < s.world.events ∧ parkedAt s 1 = some (row, seen) ∧ seen = s.world.events ∧
    (step sampleConfig s (.task 1 .ok)).isNone = true := by
  have hrun : ((run sampleConfig (pollQueued ++ startAndClaim) State.init).bind fun v =>
      (run sampleConfig claimBetween v).bind fun s => (parkedAt s 1).bind fun x =>
        if (v.tasks[1]?).bind holding = some x.1 ∧
            Along sampleConfig (fun u _ => Differs u x.1) claimBetween v ∧ Differs s x.1 ∧
            v.world.events < s.world.events ∧ x.2 = s.world.events ∧
            (step sampleConfig s (.task 1 .ok)).isNone = true then some x.2 else none) =
      some 1 := by
    simp only [pollQueued, List.append_assoc, run_first]
    decide +kernel
  obtain ⟨v, hv, h⟩ := Option.bind_eq_some_iff.mp hrun
  obtain ⟨s, hs, h⟩ := Option.bind_eq_some_iff.mp h
  obtain ⟨⟨row, seen⟩, hparked, h⟩ := Option.bind_eq_some_iff.mp h
  obtain ⟨⟨hread, hdiff, hdiffers, hbump, hseen, hblocked⟩, -⟩ := Option.ite_none_right_eq_some.mp h
  exact ⟨v, s, row, seen, hv, hs, hread, hdiff, hdiffers, hbump, hparked, hseen, hblocked⟩

end ZunServer.LongPoll
