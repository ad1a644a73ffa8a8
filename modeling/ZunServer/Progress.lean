import ZunServer.Drain

/-!
# The progress of a running job

The worker forwards the fractions of the progress frames into a channel. The
progress writer takes them out one by one and skips a step forward of less than
2%. The claim sets the stored progress to zero, where the writer starts from too,
and the worker waits for the writer before it goes on with the job.
-/
namespace ZunServer.Progress

open KeyedTable
open Schema Statements Database Comfy Calls Renditions Worker Handlers Server Rows Lifecycle
open WorkerSteps RowInvariant SingleRunner Drain

/-- The fraction that this step puts into the channel. -/
def forwards (s : State) : Act → Option ℚ
  | .worker (.frame (.progress value max)) => match s.worker with
    | .process _ (.awaitCompletion _ _) =>
      if s.world.writer.isSome then progressFraction value max else none
    | _ => none
  | _ => none

/-- The fraction that the writer takes out of the channel with this step. -/
def handles (s : State) : Act → Option ℚ
  | .writer _ => match s.world.writer with
    | some ⟨_, p :: _, _, false⟩ => some p
    | _ => none
  | _ => none

def claims (s : State) : Act → Bool
  | .worker _ => match s.worker with
    | .claim _ => true
    | _ => false
  | _ => false

/-- What the channel has received since the last claim, and what of it has been handled. -/
structure Log where
  received : List ℚ
  handled : List ℚ
  deriving DecidableEq, Repr

def Log.empty : Log := ⟨[], []⟩

def Log.record (l : Log) (x : State × Act) : Log :=
  if claims x.1 x.2 then .empty
  else ⟨l.received ++ (forwards x.1 x.2).toList, l.handled ++ (handles x.1 x.2).toList⟩

def channelLog (cfg : Config) (as : List Act) (s : State) : Log :=
  (Runs.visits (Server.step cfg) as s).foldl Log.record .empty

/-- The stored progress is not ahead of the latest fraction and less than 2% behind it;
before there is one it is zero. -/
def Lag (handled : List ℚ) (stored : ℚ) : Prop :=
  match handled.getLast? with
  | some p => 0 ≤ p - stored ∧ p - stored < 2 / 100
  | none => stored = 0

/-- What is not written is close to what is stored. -/
theorem lag_kept {handled : List ℚ} {p stored : ℚ} (h : ¬ (p < stored ∨ p - stored ≥ 2 / 100)) :
    Lag (handled ++ [p]) stored := by
  simp only [not_or, not_lt, ge_iff_le, not_le] at h
  simp only [Lag, List.getLast?_concat]
  exact ⟨sub_nonneg.mpr h.1, h.2⟩

theorem lag_written (handled : List ℚ) (p : ℚ) : Lag (handled ++ [p]) p := by
  simp only [Lag, List.getLast?_concat, sub_self]
  exact ⟨le_rfl, by decide +kernel⟩

/-- The job that the worker is processing. -/
def jobOf : WorkerPc → Option QueuedJob
  | .process job _ => some job
  | _ => none

theorem jobOf_eq_some {pc : WorkerPc} {job : QueuedJob} (h : jobOf pc = some job) :
    ∃ stage, pc = .process job stage := by
  cases pc with
  | process job' stage =>
    obtain rfl := Option.some.inj h
    exact ⟨stage, rfl⟩
  | _ => cases h

/-- What a step does to the progress writer, and what it logs. -/
inductive WriterMoved (s t : State) (a : Act) : Prop
  | same (ha : ∀ f, a ≠ .writer f) (hwr : t.world.writer = s.world.writer)
      (hf : forwards s a = none) (hh : handles s a = none)
      (hj : joinsWriter s.worker = true → joinsWriter t.worker = true ∧ jobOf t.worker = jobOf s.worker)
  | spawned {job : QueuedJob} {client pid : String} {f : Fate} (ha : a = .worker f)
      (hw : s.worker = .process job (.spawnWriter client pid))
      (hw' : t.worker = .process job (.awaitCompletion client pid))
      (hwr : t.world.writer = some ⟨job.id, [], 0, false⟩) (hf : forwards s a = none)
  | received {wr : Writer} {p : ℚ} {f : Fate} (ha : a = .worker f) (hw : t.worker = s.worker)
      (hj : joinsWriter s.worker = true) (hwr : s.world.writer = some wr)
      (hwr' : t.world.writer = some { wr with channel := wr.channel ++ [p] })
      (hf : forwards s a = some p)
  | joined {id : String} {last : ℚ} {f : Fate} (ha : a = .worker f)
      (hwr : s.world.writer = some ⟨id, [], last, false⟩) (hwr' : t.world.writer = none)
      (hf : forwards s a = none)
  | bumped {id : String} {ps : List ℚ} {last : ℚ} {f : Fate} (ha : a = .writer f)
      (hw : t.worker = s.worker) (hwr : s.world.writer = some ⟨id, ps, last, true⟩)
      (hwr' : t.world.writer = some ⟨id, ps, last, false⟩) (hdb : t.world.db = s.world.db)
  | skipped {id : String} {p : ℚ} {ps : List ℚ} {last : ℚ} {f : Fate} (ha : a = .writer f)
      (hw : t.worker = s.worker) (hwr : s.world.writer = some ⟨id, p :: ps, last, false⟩)
      (hp : ¬ (p < last ∨ p - last ≥ 2 / 100)) (hwr' : t.world.writer = some ⟨id, ps, last, false⟩)
      (hdb : t.world.db = s.world.db)
  | wrote {id : String} {p : ℚ} {ps : List ℚ} {last : ℚ} {f : Fate} (ha : a = .writer f)
      (hw : t.worker = s.worker) (hwr : s.world.writer = some ⟨id, p :: ps, last, false⟩)
      (hwr' : t.world.writer = some ⟨id, ps, p, true⟩)
      (hrow : t.world.db.jobs = s.world.db.jobs.update (writeProgress id p) ∨
        ∃ e, f = .sqlFails e)
  | died (ha : a = .crash) (h : t = s.restart)

/-- The calls that touch the writer. -/
def usesWriter : Call → Bool
  | .runtime (.spawnProgressWriter _) | .runtime (.nextFrame _)
  | .runtime .joinProgressWriter => true
  | _ => false

theorem exec_writer {w w' : World} {c : Call} {f : Fate} {x : c.Answer}
    (h : exec w c f = some (w', x)) (hc : usesWriter c = false) : w'.writer = w.writer := by
  rcases (exec_change h).writer with he | ⟨q, rfl, he | ⟨id, rfl, -⟩ | ⟨pid, wr, p, rfl, -⟩ | ⟨rfl, -⟩⟩
  · exact he
  · exact he
  all_goals cases hc

theorem task_usesWriter {cfg : Config} {now : Int} {τ : ServerTask} {c : Call}
    {k : c.Answer → ServerTask} (h : τ.next cfg now = some ⟨c, k⟩) : usesWriter c = false := by
  cases c with
  | runtime q =>
    have hq := task_runtime h
    cases q <;> first | rfl | cases hq
  | _ => rfl

theorem writerStep_moved {s t : State} {f : Fate} (h : writerStep s.world f = some t.world)
    (hw : t.worker = s.worker) : WriterMoved s t (.writer f) := by
  unfold writerStep at h
  split at h
  · cases h
  · rename_i hwr
    have hw' := Option.some.inj h
    exact .bumped rfl hw hwr (by rw [← hw']) (by rw [← hw'])
  · cases h
  · rename_i hwr
    split at h
    · obtain ⟨⟨w, x⟩, hex, hw'⟩ := Option.map_eq_some_iff.mp h
      refine .wrote rfl hw hwr (congrArg World.writer hw'.symm) ?_
      have hjobs : w.db.jobs = t.world.db.jobs := congrArg (fun w => w.db.jobs) hw'
      rcases exec_job hex with ⟨-, -, he⟩ | ⟨e, hf, -⟩
      · exact .inl (by rw [← hjobs, he]; rfl)
      · exact .inr ⟨e, hf⟩
    · rename_i hp
      have hw' := Option.some.inj h
      exact .skipped rfl hw hwr hp (by rw [← hw']) (by rw [← hw'])

/-- A frame of the prompt that the worker waits for. -/
theorem frame_moved {s t : State} {job : QueuedJob} {client pid : String} {f : Fate}
    {x : Option Ending} (hw : s.worker = .process job (.awaitCompletion client pid))
    (hex : execFrame s.world pid f = some (t.world, x))
    (hk : t.worker = match x with
      | none => .process job (.awaitCompletion client pid)
      | some r => .process job (.joinWriter client pid r)) : WriterMoved s t (.worker f) := by
  obtain ⟨w', pc, ts⟩ := t
  simp only at hex hk
  have hinside : joinsWriter pc = true ∧ jobOf pc = jobOf s.worker := by
    rw [hk, hw]
    cases x <;> exact ⟨rfl, rfl⟩
  have stays : w'.writer = s.world.writer → forwards s (.worker f) = none →
      WriterMoved s ⟨w', pc, ts⟩ (.worker f) := fun hwr hf => .same (by simp) hwr hf rfl fun _ => hinside
  cases f with
  | frame fr =>
    cases fr with
    | progress value max =>
      simp only [execFrame] at hex
      split at hex
      · rename_i p wr hp hwr
        cases hex
        refine .received rfl (by rw [hk, hw]) (by rw [hw]; rfl) hwr rfl ?_
        simp [forwards, hw, hwr, hp]
      · rename_i hnone
        cases hex
        refine stays rfl ?_
        simp only [forwards, hw]
        split
        · rename_i hsome
          obtain ⟨wr, hwr⟩ := Option.isSome_iff_exists.mp hsome
          cases hp : progressFraction value max with
          | none => rfl
          | some p => exact absurd hwr (hnone p wr hp)
        · rfl
    | executingNull | executionError d =>
      obtain ⟨-, hex⟩ := Option.ite_none_right_eq_some.mp hex
      cases hex
      exact stays rfl rfl
    | other | close | transportError e | streamEnd =>
      cases hex
      exact stays rfl rfl
  | elapsed =>
    cases hex
    exact stays rfl rfl
  | _ => cases hex

theorem not_joins {pc : WorkerPc} (h : joinsWriter pc = false) {P : Prop} :
    joinsWriter pc = true → P := fun h' => by
  rw [h] at h'
  cases h'

theorem forwards_elsewhere {s : State} (h : joinsWriter s.worker = false) (a : Act) :
    forwards s a = none := by
  unfold forwards
  split
  · split
    · rename_i hw
      rw [hw] at h
      cases h
    · rfl
  · rfl

theorem worker_moved {cfg : Config} {s t : State} {f : Fate} {l : List GeneratePc}
    (h : perform (s.worker.next cfg s.world.now) f s.world = some (t.world, t.worker, l)) :
    WriterMoved s t (.worker f) := by
  obtain ⟨c, k, x, hc, hex, hk⟩ := perform_eq_some.mp h
  -- everywhere else no frame is awaited and the writer is left alone
  have elsewhere : usesWriter c = false → joinsWriter s.worker = false →
      WriterMoved s t (.worker f) := fun hu hj =>
    .same (by simp) (exec_writer hex hu) (forwards_elsewhere hj _) rfl (not_joins hj)
  cases hpc : s.worker with
  | process job stage =>
    rw [hpc] at hc
    cases stage with
    | spawnWriter client pid =>
      have hj : joinsWriter s.worker = false := by rw [hpc]; rfl
      cases hc
      obtain ⟨w', pc, ts⟩ := t
      obtain ⟨rfl, rfl⟩ := Prod.mk.inj hk
      cases f <;> cases hex
      exact .spawned rfl hpc rfl rfl (forwards_elsewhere hj _)
    | awaitCompletion client pid =>
      cases hc
      refine frame_moved hpc hex ?_
      cases x <;> exact (Prod.mk.inj hk).1.symm
    | joinWriter client pid r =>
      have hf : forwards s (.worker f) = none := by
        cases f with
        | frame fr => cases fr <;> simp [forwards, hpc]
        | _ => rfl
      cases hc
      obtain ⟨w', pc, ts⟩ := t
      cases f with
      | ok =>
        simp only [exec, execRuntime] at hex
        split at hex
        · rename_i hwr
          cases hex
          exact .joined rfl hwr rfl hf
        · cases hex
      | _ => cases hex
    | _ =>
      cases hc
      exact elsewhere rfl (by rw [hpc]; rfl)
  | stopped | panicked job =>
    rw [hpc] at hc
    cases hc
  | _ =>
    rw [hpc] at hc
    cases hc
    exact elsewhere rfl (by rw [hpc]; rfl)

theorem writer_moved {cfg : Config} {s t : State} {a : Act} (hm : Moved cfg s t a) :
    WriterMoved s t a := by
  cases hm with
  | worker h tasks => exact worker_moved h
  | writer h worker tasks => exact writerStep_moved h worker
  | crash h => exact .died rfl h
  | task hi h worker tasks =>
    obtain ⟨c, k, x, hc, hex, -⟩ := perform_eq_some.mp h
    exact .same (by simp) (exec_writer hex (task_usesWriter hc)) rfl rfl (worker ▸ fun hj => ⟨hj, rfl⟩)
  | arrive world worker tasks | drop hi live world worker tasks =>
    exact .same (by simp) (by rw [world]) rfl rfl (worker ▸ fun hj => ⟨hj, rfl⟩)
  | env he worker tasks =>
    exact .same (by simp) (Env.apply_change he).writer rfl rfl (worker ▸ fun hj => ⟨hj, rfl⟩)

/-- A job in process has been claimed just now, or the worker was at it before. -/
theorem process_origin {cfg : Config} {s t : State} {a : Act} (hm : Moved cfg s t a)
    {job : QueuedJob} {stage : Stage} (ht : t.worker = .process job stage) :
    (s.worker = .claim job ∧ ∃ f, a = .worker f) ∨
      ∃ stage', s.worker = .process job stage' ∧ order stage' ≤ order stage := by
  rcases worker_cases hm with ⟨f, l, ha, hw, -⟩ | ⟨hw, -⟩ | ⟨-, rfl⟩
  · rw [ht] at hw
    generalize hpc : s.worker = pc at hw
    cases hw with
    | won hn hran => exact .inl ⟨rfl, f, ha⟩
    | claimFails hf he => cases he <;> exact .inl ⟨rfl, f, ha⟩
    | stage hs =>
      cases hs with
      | goes hg => exact .inr ⟨_, rfl, hg.order_le⟩
      | fails hl he =>
        have hlt := leaves_order hl
        simp only [order] at hlt
        cases he <;> exact .inr ⟨_, rfl, by simp only [order]; omega⟩
    | free _ h' => cases h'
  · exact .inr ⟨stage, hw ▸ ht, le_rfl⟩
  · cases ht

theorem claims_iff {s : State} {a : Act} :
    claims s a = true ↔ (∃ job, s.worker = .claim job) ∧ ∃ f, a = .worker f := by
  unfold claims
  constructor
  · intro h
    split at h
    · split at h
      · rename_i hw
        exact ⟨⟨_, hw⟩, _, rfl⟩
      · cases h
    · cases h
  · rintro ⟨⟨job, hw⟩, f, rfl⟩
    simp [hw]

theorem record_claim {l : Log} {s : State} {a : Act} (h : claims s a = true) :
    l.record (s, a) = .empty := if_pos h

theorem record_other {l : Log} {s : State} {a : Act} (h : claims s a = false) :
    l.record (s, a) = ⟨l.received ++ (forwards s a).toList, l.handled ++ (handles s a).toList⟩ :=
  if_neg (by simp [h])

theorem not_claims_of_process {s : State} {job : QueuedJob} {stage : Stage}
    (hw : s.worker = .process job stage) (a : Act) : claims s a = false := by
  by_contra h
  obtain ⟨⟨job', hw'⟩, -⟩ := claims_iff.mp (Bool.eq_true_of_not_eq_false h)
  rw [hw] at hw'
  cases hw'

structure Flow (l : Log) (s : State) : Prop where
  fresh : ∀ job stage, s.worker = .process job stage → order stage ≤ 8 → l = .empty
  closed : ∀ job stage, s.worker = .process job stage → s.world.writer = none →
    l.received = l.handled
  opened : ∀ wr, s.world.writer = some wr → joinsWriter s.worker = true ∧
    (∃ job, jobOf s.worker = some job ∧ job.id = wr.jobId) ∧ l.received = l.handled ++ wr.channel

theorem joins_order {job : QueuedJob} {stage : Stage} (h : joinsWriter (.process job stage) = true) :
    8 < order stage := by
  cases stage <;> cases h <;> simp [order]

/-- With a writer there, the worker is past the early stages and waits for it. -/
theorem Flow.of_writer {l : Log} {s : State} {wr : Writer} (hwr : s.world.writer = some wr)
    (hj : joinsWriter s.worker = true) (hjob : ∃ job, jobOf s.worker = some job ∧ job.id = wr.jobId)
    (hflow : l.received = l.handled ++ wr.channel) : Flow l s where
  fresh job stage hw hle := by
    rw [hw] at hj
    exact absurd (joins_order hj) (Nat.not_lt.mpr hle)
  closed _ _ _ hnone := by
    rw [hwr] at hnone
    cases hnone
  opened wr' hsome := by
    obtain rfl := Option.some.inj (hwr.symm.trans hsome)
    exact ⟨hj, hjob, hflow⟩

theorem Flow.no_writer {l : Log} {s : State} (h : Flow l s) (hj : joinsWriter s.worker = false) :
    s.world.writer = none := by
  by_contra hne
  obtain ⟨wr, hwr⟩ := Option.ne_none_iff_exists'.mp hne
  have hopen := (h.opened wr hwr).1
  rw [hj] at hopen
  cases hopen

/-- The worker is past the early stages as soon as there is a writer. -/
theorem Flow.late {l : Log} {s : State} (h : Flow l s) {wr : Writer} (hwr : s.world.writer = some wr)
    {cfg : Config} {t : State} {a : Act} (hm : Moved cfg s t a) {job : QueuedJob} {stage : Stage}
    (ht : t.worker = .process job stage) : ¬ order stage ≤ 8 := by
  have hj := (h.opened wr hwr).1
  rcases process_origin hm ht with ⟨hw, -⟩ | ⟨stage', hw, hle⟩
  · rw [hw] at hj
    cases hj
  · rw [hw] at hj
    have hlt := joins_order hj
    omega

/-- At a claim there is no writer. -/
theorem Flow.claim_none {cfg : Config} {l : Log} {s t : State} {a : Act} (h : Flow l s)
    (hm : Moved cfg s t a) (hclaim : claims s a = true) : t.world.writer = none := by
  obtain ⟨⟨job, hw⟩, f, rfl⟩ := claims_iff.mp hclaim
  have hnone := h.no_writer (by rw [hw]; rfl)
  cases writer_moved hm with
  | same _ hsame => rw [hsame, hnone]
  | spawned _ hw' =>
    rw [hw] at hw'
    cases hw'
  | received _ _ _ hsome =>
    rw [hnone] at hsome
    cases hsome
  | joined _ _ hnone' => exact hnone'
  | _ ha => cases ha

theorem Flow.step {cfg : Config} {l : Log} {s t : State} {a : Act} (h : Flow l s)
    (hm : Moved cfg s t a) : Flow (l.record (s, a)) t := by
  by_cases hclaim : claims s a = true
  · rw [record_claim hclaim]
    refine ⟨fun _ _ _ _ => rfl, fun _ _ _ _ => rfl, fun wr hwr => ?_⟩
    rw [h.claim_none hm hclaim] at hwr
    cases hwr
  rw [record_other (by simpa using hclaim)]
  have origin : ∀ {job stage}, t.worker = .process job stage →
      ∃ stage', s.worker = .process job stage' ∧ order stage' ≤ order stage := by
    intro job stage ht
    rcases process_origin hm ht with ⟨hw, hf⟩ | h
    · exact absurd (claims_iff.mpr ⟨⟨job, hw⟩, hf⟩) hclaim
    · exact h
  cases writer_moved hm with
  | same ha hwr hf hh hj =>
    rw [hf, hh]
    simp only [Option.toList_none, List.append_nil]
    refine ⟨fun job stage ht hle => ?_, fun job stage ht hnone => ?_, fun wr hsome => ?_⟩
    · obtain ⟨stage', hw, hle'⟩ := origin ht
      exact h.fresh job stage' hw (by omega)
    · obtain ⟨stage', hw, -⟩ := origin ht
      exact h.closed job stage' hw (hwr ▸ hnone)
    · obtain ⟨hjoin, hjob, hflow⟩ := h.opened wr (hwr ▸ hsome)
      obtain ⟨hjoin', hjob'⟩ := hj hjoin
      exact ⟨hjoin', hjob' ▸ hjob, hflow⟩
  | spawned ha hw hw' hwr hf =>
    subst ha
    rw [hf, h.fresh _ _ hw (by simp [order])]
    exact .of_writer hwr (by rw [hw']; rfl) ⟨_, by rw [hw']; rfl, rfl⟩ rfl
  | received ha hw hj hwr hwr' hf =>
    subst ha
    obtain ⟨-, hjob, hflow⟩ := h.opened _ hwr
    exact .of_writer hwr' (hw ▸ hj) (hw ▸ hjob) (by simp [hf, hflow, handles])
  | joined ha hwr hwr' hf =>
    subst ha
    rw [hf]
    obtain ⟨-, -, hflow⟩ := h.opened _ hwr
    refine ⟨fun _ _ ht hle => absurd hle (h.late hwr hm ht), fun _ _ _ _ => ?_, fun wr hsome => ?_⟩
    · simpa [handles] using hflow
    · rw [hwr'] at hsome
      cases hsome
  | bumped ha hw hwr hwr' | skipped ha hw hwr hp hwr' | wrote ha hw hwr hwr' =>
    subst ha
    obtain ⟨hj, hjob, hflow⟩ := h.opened _ hwr
    exact .of_writer hwr' (hw ▸ hj) (hw ▸ hjob) (by simp [hflow, handles, forwards, hwr])
  | died ha ht =>
    subst ht
    refine ⟨fun _ _ ht => ?_, fun _ _ ht => ?_, fun wr hsome => ?_⟩
    · cases ht
    · cases ht
    · cases hsome

/-- Of the statements that leave a row running, only the claim and the progress write touch
its progress. -/
theorem stmt_progress (st : JobStmt) {r : JobRow} (h : (st.update.row r).status = .running) :
    (∃ now id, st = .markRunning now id) ∨ (∃ id p, st = .writeProgress id p) ∨
      (r.status = .running ∧ (st.update.row r).progress = r.progress) := by
  revert h
  refine row_cases (P := fun r' => r'.status = .running →
    _ ∨ _ ∨ (r.status = .running ∧ r'.progress = r.progress)) _ r (fun hc h => ?_)
    fun h => .inr (.inr ⟨h, rfl⟩)
  cases st with
  | markRunning now id => exact .inl ⟨now, id, rfl⟩
  | writeProgress id p => exact .inr (.inl ⟨id, p, rfl⟩)
  | updateComfyPromptId id c | deleteJob now id | restoreJob id => exact .inr (.inr ⟨h, rfl⟩)
  | setDerivedPath col id rel => cases col <;> exact .inr (.inr ⟨h, rfl⟩)
  | _ => cases h

/-- The row is as the writer left it, and not far from the latest fraction. -/
def RowLag (l : Log) (wr : Option Writer) (r : JobRow) : Prop :=
  r.status = .running → Lag l.handled r.progress ∧ ∀ w ∈ wr, r.progress = w.lastWritten

@[simp] theorem rowLag_none {l : Log} {r : JobRow} :
    RowLag l none r ↔ (r.status = .running → Lag l.handled r.progress) := by
  simp [RowLag]

@[simp] theorem rowLag_some {l : Log} {wr : Writer} {r : JobRow} : RowLag l (some wr) r ↔
    (r.status = .running → Lag l.handled r.progress ∧ r.progress = wr.lastWritten) := by
  simp [RowLag]

structure Tracks (l : Log) (s : State) : Prop where
  flow : Flow l s
  inv : Inv s
  claim : ∀ job, s.worker = .claim job → OnRow s job.id fun r => r.status ≠ .running
  settled : ∀ job stage, s.worker = .process job stage → Settled s job.id
  row : ∀ job stage, s.worker = .process job stage → OnRow s job.id (RowLag l s.world.writer)

theorem claim_idle {cfg : Config} {l : Log} {s t : State} {a : Act} (h : Tracks l s)
    (hm : Moved cfg s t a) {job : QueuedJob} (ht : t.worker = .claim job) :
    OnRow t job.id fun r => r.status ≠ .running := by
  rcases worker_cases hm with ⟨f, l, -, hw, -⟩ | ⟨hw, hne, -⟩ | ⟨-, rfl⟩
  · rw [ht] at hw
    generalize hpc : s.worker = pc at hw
    cases hw with
    | fetched hr hq he =>
      rename_i row
      intro r hrow
      have hsame : row? t row.id = some row := by
        unfold row?
        rw [he]
        exact Table.find?_of_mem hr
      obtain rfl := Option.some.inj (hrow.symm.trans hsame)
      have hqueued := (of_decide_eq_true hq).1
      simp [hqueued]
    | claimFails hf he => cases he
    | stage hs =>
      cases hs with
      | fails _ he => cases he
    | free _ h' => cases h'
  · have hw' : s.worker = .claim job := hw ▸ ht
    refine (h.claim job hw').step hm (h.inv.claim job hw') fun st r hst _ hr hrun => ?_
    rcases stmt_running st hrun with hrun | ⟨now, rfl⟩
    · exact hr hrun
    · obtain ⟨-, -, -, ha⟩ := issues_markRunning hst
      exact hne _ ha
  · cases ht

/-- The claim sets the progress to zero. -/
theorem claimed_row {cfg : Config} {l : Log} {s t : State} {f : Fate} (h : Tracks l s)
    (hm : Moved cfg s t (.worker f)) {job : QueuedJob} (hw : s.worker = .claim job) :
    OnRow t job.id fun r => r.status = .running → r.progress = 0 := by
  have hnot := h.claim job hw
  have hstart : OnRow s job.id fun r => r.status = .running → r.progress = 0 :=
    fun r hr hrun => absurd hrun (hnot r hr)
  refine hstart.step hm (h.inv.claim job hw) fun st r hst _ hr => ?_
  generalize hact : Act.worker f = a at hst
  cases hst with
  | claim hw' =>
    apply row_cases (P := fun r' => r'.status = .running → r'.progress = 0)
    · exact fun _ _ => rfl
    · exact hr
  | reset hw' | storePromptId hw' | markDone hw' | requeue hw' | markFailed hw' =>
    rw [hw] at hw'
    cases hw'
  | _ => cases hact

/-- Whatever is not the claim or the writer leaves the progress of a running row. -/
theorem row_kept {cfg : Config} {l : Log} {s t : State} {a : Act} (h : Tracks l s)
    (hm : Moved cfg s t a) (ha : ∀ f, a ≠ .writer f) {job : QueuedJob} {stage : Stage}
    (hw : s.worker = .process job stage) : OnRow t job.id (RowLag l s.world.writer) := by
  refine (h.row job stage hw).step hm (h.settled job stage hw) fun st r hst _ hr hrun => ?_
  rcases stmt_progress st hrun with ⟨now, id, rfl⟩ | ⟨id, p, rfl⟩ | ⟨hrun', he⟩
  · obtain ⟨job', hw', -⟩ := issues_markRunning hst
    rw [hw] at hw'
    cases hw'
  · obtain ⟨f, hf⟩ := issues_writeProgress hst
    exact absurd hf (ha f)
  · rw [he]
    exact hr hrun'

/-- No progress write fails. -/
def progressWritten : Act → Bool
  | .writer (.sqlFails _) => false
  | _ => true

theorem row_written {s t : State} {id : String} {p : ℚ}
    (h : t.world.db.jobs = s.world.db.jobs.update (writeProgress id p)) {r : JobRow}
    (hr : row? t id = some r) (hrun : r.status = .running) : r.progress = p := by
  unfold row? at hr
  rw [h, Table.find?_update] at hr
  obtain ⟨r₀, hr₀, rfl⟩ := Option.map_eq_some_iff.mp hr
  have hid : r₀.id = id := Table.find?_key hr₀
  by_cases hc : (writeProgress id p).cond r₀ = true
  · rw [Update.row_of_cond _ hc]
    rfl
  · rw [Update.row_of_not _ (by simpa using hc)] at hrun
    exact absurd (decide_eq_true ⟨hid, hrun⟩) hc

theorem Tracks.row_step {cfg : Config} {l : Log} {s t : State} {a : Act} (h : Tracks l s)
    (hm : Moved cfg s t a) (hok : progressWritten a = true) {job : QueuedJob} {stage stage' : Stage}
    (hw : s.worker = .process job stage) (ht : t.worker = .process job stage') :
    OnRow t job.id (RowLag (l.record (s, a)) t.world.writer) := by
  rw [record_other (not_claims_of_process hw a)]
  have same_rows : t.world.db = s.world.db → OnRow t job.id (RowLag l s.world.writer) := by
    intro hdb r hr
    unfold row? at hr
    rw [hdb] at hr
    exact h.row job stage hw r hr
  intro r hr
  cases writer_moved hm with
  | same ha hwr hf hh =>
    rw [hwr, hh, Option.toList_none, List.append_nil]
    exact row_kept h hm ha hw r hr
  | spawned ha hw' hw'' hwr hf =>
    subst ha
    rw [hwr, rowLag_some]
    intro hrun
    have hlag := (row_kept h hm (by simp) hw r hr hrun).1
    have hzero : r.progress = 0 := by
      rw [h.flow.fresh _ _ hw' (by simp [order])] at hlag
      exact hlag
    exact ⟨by simpa [handles] using hlag, hzero⟩
  | received ha hw' hj hwr hwr' hf =>
    subst ha
    have hold := row_kept h hm (by simp) hw r hr
    rw [hwr, rowLag_some] at hold
    rw [hwr', rowLag_some]
    simpa [handles] using hold
  | joined ha hwr hwr' hf =>
    subst ha
    rw [hwr', rowLag_none]
    intro hrun
    simpa [handles] using (row_kept h hm (by simp) hw r hr hrun).1
  | bumped ha hw' hwr hwr' hdb =>
    subst ha
    have hold := same_rows hdb r hr
    rw [hwr, rowLag_some] at hold
    rw [hwr', rowLag_some]
    simpa [handles, hwr] using hold
  | skipped ha hw' hwr hp hwr' hdb =>
    rename_i last f
    subst ha
    have hold := same_rows hdb r hr
    rw [hwr, rowLag_some] at hold
    rw [hwr', rowLag_some]
    intro hrun
    have hstored : r.progress = last := (hold hrun).2
    rw [← hstored] at hp
    exact ⟨by simpa [handles, hwr] using lag_kept hp, hstored⟩
  | wrote ha hw' hwr hwr' hjobs =>
    rename_i p ps last f
    subst ha
    rw [hwr', rowLag_some]
    intro hrun
    obtain ⟨-, ⟨job', hjob, hid⟩, -⟩ := h.flow.opened _ hwr
    rw [hw] at hjob
    obtain rfl := Option.some.inj hjob
    have hstored : r.progress = p := by
      rcases hjobs with hjobs | ⟨e, rfl⟩
      · rw [hid] at hr
        exact row_written hjobs hr hrun
      · cases hok
    exact ⟨by simpa [handles, hwr, hstored] using lag_written l.handled _, hstored⟩
  | died ha ht' =>
    rw [ht'] at ht
    cases ht

theorem Tracks.step {cfg : Config} {l : Log} {s t : State} {a : Act} (h : Tracks l s)
    (hm : Moved cfg s t a) (hok : progressWritten a = true) : Tracks (l.record (s, a)) t where
  flow := h.flow.step hm
  inv := h.inv.step hm
  claim _ ht := claim_idle h hm ht
  settled job stage ht := by
    rcases process_origin hm ht with ⟨hw, -⟩ | ⟨stage', hw, -⟩
    · exact (h.inv.claim job hw).step hm
    · exact (h.settled job stage' hw).step hm
  row job stage ht := by
    rcases process_origin hm ht with ⟨hw, f, rfl⟩ | ⟨stage', hw, -⟩
    · have hclaim : claims s (.worker f) = true := claims_iff.mpr ⟨⟨job, hw⟩, f, rfl⟩
      rw [record_claim hclaim, h.flow.claim_none hm hclaim]
      exact fun r hr hrun => ⟨claimed_row h hm hw r hr hrun, fun _ hn => by cases hn⟩
    · exact h.row_step hm hok hw ht

theorem Flow.init : Flow .empty State.init where
  fresh _ _ h := by cases h
  closed _ _ h := by cases h
  opened _ h := by cases h

theorem Tracks.init : Tracks .empty State.init where
  flow := .init
  inv := Inv.init
  claim _ h := by cases h
  settled _ _ h := by cases h
  row _ _ h := by cases h

theorem run_tracks {cfg : Config} {as : List Act} {s : State}
    (h : run cfg as State.init = some s) (hok : ∀ a ∈ as, progressWritten a = true) :
    Tracks (channelLog cfg as State.init) s := by
  have hstart : Tracks (([] : List (State × Act)).foldl Log.record .empty) State.init := Tracks.init
  refine (Runs.Along.of_forall hok State.init).history_invariant
    (I := fun past u => Tracks (past.foldl Log.record .empty) u) (fun past u a v hu ha hstep => ?_)
    h hstart
  rw [List.foldl_concat]
  exact hu.step (step_moved hstep) ha

/-- The step changes the status of the job, or is the last one of its processing. -/
def Concludes (s t : State) (job : QueuedJob) : Prop :=
  (∃ r r', row? s job.id = some r ∧ row? t job.id = some r' ∧ r'.status ≠ r.status) ∨
    ∀ stage, t.worker ≠ .process job stage

/-- Neither the wait nor the join writes to the database. -/
theorem joins_db {cfg : Config} {s t : State} {f : Fate} (hm : Moved cfg s t (.worker f))
    (hj : joinsWriter s.worker = true) : t.world.db = s.world.db := by
  cases hm with
  | worker h tasks =>
    obtain ⟨c, k, x, hc, hex, -⟩ := perform_eq_some.mp h
    cases hw : s.worker with
    | process job stage =>
      rw [hw] at hc hj
      cases stage <;> cases hj <;> cases hc <;> exact (runtime_keeps hex).1
    | _ =>
      rw [hw] at hj
      cases hj

/-- The worker does not conclude while it waits for the prompt. -/
theorem not_concludes {cfg : Config} {s t : State} {f : Fate} (hm : Moved cfg s t (.worker f))
    (hj : joinsWriter s.worker = true) {job : QueuedJob} (ht : jobOf t.worker = some job) :
    ¬ Concludes s t job := by
  rintro (⟨r, r', hr, hr', hne⟩ | hout)
  · unfold row? at hr hr'
    rw [joins_db hm hj, hr] at hr'
    obtain rfl := Option.some.inj hr'
    exact hne rfl
  · obtain ⟨stage, hw⟩ := jobOf_eq_some ht
    exact hout stage hw

/-- In every run whose progress writes succeed, while the worker processes a job that is
running: the stored progress is never ahead of the latest fraction that has been handled and
less than 2% behind it; and all that was received has been handled before the worker changes
the status of the job or is through with it. -/
theorem progress_tracks {cfg : Config} {as : List Act} {s : State}
    (h : run cfg as State.init = some s) (hok : ∀ a ∈ as, progressWritten a = true)
    {job : QueuedJob} {stage : Stage} (hw : s.worker = .process job stage) :
    (∀ r, row? s job.id = some r → r.status = .running →
      ∀ p ∈ (channelLog cfg as State.init).handled.getLast?,
        0 ≤ p - r.progress ∧ p - r.progress < 2 / 100) ∧
    ∀ f t, step cfg s (.worker f) = some t → Concludes s t job →
      (channelLog cfg as State.init).received = (channelLog cfg as State.init).handled := by
  have htracks := run_tracks h hok
  constructor
  · intro r hr hrun p hp
    have hlag := (htracks.row job stage hw r hr hrun).1
    rw [Lag, hp] at hlag
    exact hlag
  · intro f t hstep hconcludes
    have hm := step_moved hstep
    cases hwr : s.world.writer with
    | none => exact htracks.flow.closed job stage hw hwr
    | some wr =>
      obtain ⟨hj, -, hflow⟩ := htracks.flow.opened wr hwr
      have hjob : jobOf s.worker = some job := by rw [hw]; rfl
      cases writer_moved hm with
      | same _ _ _ _ hjoins => exact absurd hconcludes (not_concludes hm hj ((hjoins hj).2.trans hjob))
      | received _ ht => exact absurd hconcludes (not_concludes hm hj (by rw [ht, hjob]))
      | spawned _ hw' =>
        rw [hw'] at hj
        cases hj
      | joined _ hwr' =>
        -- the join waits until the channel is empty
        rw [hwr] at hwr'
        cases hwr'
        simpa using hflow
      | _ ha => cases ha

/-- No fraction goes through the channel while the first job is submitted. -/
theorem channelLog_first (as : List Act) :
    channelLog sampleConfig (firstSubmit 0 jobA ++ as) State.init =
      channelLog sampleConfig as firstJob := by
  have hvisits : Runs.visits (step sampleConfig) (firstSubmit 0 jobA ++ as) State.init =
      firstVisits ++ Runs.visits (step sampleConfig) as firstJob := first_trace.visits_append as
  unfold channelLog
  rw [hvisits, List.foldl_append]
  rfl

/-- Half is done, then one per cent more, which is not written; the prompt ends, and the worker
is about to mark the job done. -/
def halfDone : List Act :=
  firstSubmit 0 jobA ++ (startAndClaim ++ processToSubmit clientA "p1" ++
    [.worker .ok, .worker .ok, .env (.comfy .start), .worker (.frame (.progress 1 2)), .writer .ok,
      .worker (.frame (.progress 51 100)), .writer .ok, .writer .ok, .env (.comfy .finish),
      .worker (.frame .executingNull), .worker .ok,
      .worker (.history (some ⟨true, some "success", [("9", [⟨outputName jobA, "", "output"⟩])]⟩)),
      .worker (.body [1, 2, 3]), .worker .ok, .worker (.dimensions (some (8, 8)))])

theorem progress_tracks_sample : ∃ s t r job stage,
    run sampleConfig halfDone State.init = some s ∧ s.worker = .process job stage ∧
    row? s job.id = some r ∧ r.status = .running ∧
    channelLog sampleConfig halfDone State.init = ⟨[1 / 2, 51 / 100], [1 / 2, 51 / 100]⟩ ∧
    0 ≤ 51 / 100 - r.progress ∧ 51 / 100 - r.progress < 2 / 100 ∧
    step sampleConfig s (.worker .ok) = some t ∧
    (channelLog sampleConfig halfDone State.init).received =
      (channelLog sampleConfig halfDone State.init).handled := by
  have hlog : channelLog sampleConfig halfDone State.init =
      ⟨[1 / 2, 51 / 100], [1 / 2, 51 / 100]⟩ := by
    rw [halfDone, channelLog_first]
    decide +kernel
  have hrun : ((run sampleConfig halfDone State.init).bind fun s =>
      (step sampleConfig s (.worker .ok)).bind fun t => (jobOf s.worker).bind fun job =>
        (row? s job.id).map fun r => (t.worker, r.status)) = some (.notifyJob, .running) := by
    simp only [halfDone, run_first]
    decide +kernel
  obtain ⟨s, hs, h⟩ := Option.bind_eq_some_iff.mp hrun
  obtain ⟨t, ht, h⟩ := Option.bind_eq_some_iff.mp h
  obtain ⟨job, hjob, h⟩ := Option.bind_eq_some_iff.mp h
  obtain ⟨r, hr, h⟩ := Option.map_eq_some_iff.mp h
  obtain ⟨hnotify, hrunning⟩ := Prod.mk.inj h
  obtain ⟨stage, hw⟩ := jobOf_eq_some hjob
  obtain ⟨hlag, hdone⟩ := progress_tracks hs (by decide) hw
  obtain ⟨hahead, hbehind⟩ := hlag r hr hrunning (51 / 100) (by rw [hlog]; rfl)
  exact ⟨s, t, r, job, stage, hs, hw, hr, hrunning, hlog, hahead, hbehind, ht,
    hdone .ok t ht (.inr fun stage' he => by rw [hnotify] at he; cases he)⟩

end ZunServer.Progress
