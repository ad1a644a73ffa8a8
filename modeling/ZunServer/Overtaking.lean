import ZunServer.Answers
import ZunServer.QueueOrder
import ZunServer.Resubmission

/-!
# What a place in the queue is worth

`get_job` tells a client how many jobs are in front of its own. While the job waits, each
claim of another one is paid for by a job that was in front, by one that came to be in
front later, or by the job that the worker had in hand when the client was told.
-/
namespace ZunServer.Overtaking

open KeyedTable
open Schema Statements Database Comfy Calls Renditions Worker Handlers CustomPrompts Purge Server
open Rows Lifecycle WorkerSteps RowInvariant Retention WakeUps Listing Drain QueueOrder Provenance
open Resubmission Answers

/-- The queued jobs in front of a place in the queue. -/
def ahead (createdAt : Int) (id : String) (s : State) : List String :=
  (s.world.db.jobs.rows.filter (queuedBefore createdAt id)).map JobRow.id

/-- Another job is claimed. -/
def overtakes (id : String) (s : State) (a : Act) : Nat := match s.worker with
  | .claim job => if job.id = id then 0 else claims job.id s a
  | _ => 0

/-- The jobs that a step puts in front. -/
def joins (cfg : Config) (createdAt : Int) (id : String) (s : State) (a : Act) : Nat :=
  match step cfg s a with
  | some t => ((ahead createdAt id t).filter (· ∉ ahead createdAt id s)).length
  | none => 0

/-- The worker has fetched another job, not yet claimed it, and that job is not in front. -/
def held (createdAt : Int) (id : String) (s : State) : Nat := match s.worker with
  | .claim job => if job.id = id ∨ job.id ∈ ahead createdAt id s then 0 else 1
  | _ => 0

/-- The job is there and queued. -/
def Waits (id : String) (s : State) : Prop := (row? s id).any runnable = true

instance (id : String) (s : State) : Decidable (Waits id s) :=
  inferInstanceAs (Decidable (_ = true))

/-- Why a job may come to be in front: it is restored, the worker puts it back, or it is
submitted before the second in which the other one was submitted is over. -/
inductive PutsAhead (createdAt : Int) (s : State) : Act → Prop
  | restored {a : Act} {r : JobRow} (h : restores s a = some r) (hq : r.status = .queued) :
      PutsAhead createdAt s a
  | reset (h : s.worker = .start) : PutsAhead createdAt s (.worker .ok)
  | requeued {job : QueuedJob} (h : s.worker = .process job .requeue) :
      PutsAhead createdAt s (.worker .ok)
  | submitted {a : Act} (h : inserts s a = true) (now : s.world.now ≤ createdAt) :
      PutsAhead createdAt s a

theorem mem_ahead {createdAt : Int} {id x : String} {s : State} :
    x ∈ ahead createdAt id s ↔ ∃ r, row? s x = some r ∧ queuedBefore createdAt id r = true := by
  constructor
  · intro h
    obtain ⟨r, hr, rfl⟩ := List.mem_map.mp h
    obtain ⟨hr, hbefore⟩ := List.mem_filter.mp hr
    exact ⟨r, mem_row hr, hbefore⟩
  · rintro ⟨r, hr, hbefore⟩
    obtain ⟨hmem, rfl⟩ := row_mem hr
    exact List.mem_map.mpr ⟨r, List.mem_filter.mpr ⟨hmem, hbefore⟩, rfl⟩

theorem ahead_nodup (createdAt : Int) (id : String) (s : State) : (ahead createdAt id s).Nodup :=
  (List.filter_sublist.map JobRow.id).nodup s.world.db.jobs.nodup

theorem queuedBefore_runnable {createdAt : Int} {id : String} {r : JobRow}
    (h : queuedBefore createdAt id r = true) : runnable r = true := by
  simp only [queuedBefore, decide_eq_true_eq] at h
  exact decide_eq_true ⟨h.1, h.2.1⟩

/-- What is new in a list, and what it has kept of another one. -/
theorem length_le_new {α : Type*} [DecidableEq α] {l m : List α} (hm : m.Nodup) :
    m.length + (l.filter (· ∉ m)).length ≤ (m.filter (· ∉ l)).length + l.length := by
  have hkept : (m.filter (· ∈ l)).length ≤ (l.filter (· ∈ m)).length := by
    refine ((hm.filter _).subperm fun x hx => ?_).length_le
    simp only [List.mem_filter, decide_eq_true_eq] at hx ⊢
    exact hx.symm
  have hl := List.length_eq_length_filter_add (l := l) (· ∈ m)
  have hm := List.length_eq_length_filter_add (l := m) (· ∈ l)
  simp only [← decide_not] at hl hm
  omega

theorem ahead_step {cfg : Config} {s t : State} {a : Act} (h : step cfg s a = some t)
    (createdAt : Int) (id : String) :
    (ahead createdAt id t).length ≤ joins cfg createdAt id s a + (ahead createdAt id s).length := by
  have hle := length_le_new (l := ahead createdAt id s) (ahead_nodup createdAt id t)
  simp only [joins, h]
  omega

/-- A job that leaves makes room. -/
theorem ahead_leaves {cfg : Config} {s t : State} {a : Act} (h : step cfg s a = some t)
    {createdAt : Int} {id x : String} (hx : x ∈ ahead createdAt id s)
    (hx' : x ∉ ahead createdAt id t) :
    (ahead createdAt id t).length + 1 ≤
      joins cfg createdAt id s a + (ahead createdAt id s).length := by
  have hle := length_le_new (l := ahead createdAt id s) (ahead_nodup createdAt id t)
  have hone : 0 < ((ahead createdAt id s).filter (· ∉ ahead createdAt id t)).length :=
    List.length_pos_of_mem (List.mem_filter.mpr ⟨hx, decide_eq_true hx'⟩)
  simp only [joins, h]
  omega

/-- The worker has a job to claim from its fetch, which finds the first in the queue. -/
theorem claim_origin {cfg : Config} {s t : State} {f : Fate} (hm : Moved cfg s t (.worker f))
    {job : QueuedJob} (ht : t.worker = .claim job) : t.world = s.world ∧
      ∃ row, job = .of row ∧ first? olderThan (s.world.db.jobs.rows.filter runnable) = some row := by
  cases hm with
  | worker h tasks =>
    rw [ht] at h
    have hpc : s.worker = .fetch := by
      have hw := worker_step h
      generalize hs : s.worker = pc at hw
      cases hw with
      | fetched => rfl
      | claimFails _ harm => cases harm
      | stage hst =>
        cases hst with
        | fails _ harm => cases harm
      | free _ hfree _ => cases hfree
    rw [hpc] at h
    obtain ⟨hw, -, hfetch⟩ := fetch_step h
    cases hfetch with
    | found hrow => exact ⟨hw, _, rfl, hrow⟩

/-- While the job waits, whatever is fetched is the job itself or is in front of it. -/
theorem held_fetched {cfg : Config} {s t : State} {f : Fate} (hm : Moved cfg s t (.worker f))
    {r : JobRow} (hr : row? s r.id = some r) (hrun : runnable r = true) :
    held r.createdAt r.id t = 0 := by
  unfold held
  split
  · rename_i job ht
    obtain ⟨hw, row, rfl, hrow⟩ := claim_origin hm ht
    obtain ⟨hmem, hrunnable⟩ := List.mem_filter.mp (first?_mem hrow)
    have hle := first?_le olderThan_iff hrow r (List.mem_filter.mpr ⟨(row_mem hr).1, hrun⟩)
    apply if_pos
    by_cases hid : row.id = r.id
    · exact .inl hid
    · right
      have hlt : rowKey row < rowKey r := lt_of_le_of_ne hle fun he => hid (rowKey_inj _ _ he)
      have holder := (olderThan_iff row r).mpr hlt
      have hrow' : row? t row.id = some row := by
        unfold row?
        rw [hw]
        exact mem_row hmem
      refine mem_ahead.mpr ⟨row, hrow', ?_⟩
      simp only [runnable, olderThan, queuedBefore, decide_eq_true_eq] at hrunnable holder ⊢
      exact ⟨hrunnable.1, hrunnable.2, holder⟩
  · rfl

theorem held_claim {createdAt : Int} {id : String} {s : State} {job : QueuedJob}
    (h : s.worker = .claim job) : held createdAt id s =
      if job.id = id ∨ job.id ∈ ahead createdAt id s then 0 else 1 := by simp only [held, h]

/-- The worker rests; when the job in its hand leaves the queue, that makes room. -/
theorem held_kept {cfg : Config} {s t : State} {a : Act} (h : step cfg s a = some t)
    (hw : t.worker = s.worker) (createdAt : Int) (id : String) :
    (ahead createdAt id t).length + held createdAt id t ≤
      joins cfg createdAt id s a + ((ahead createdAt id s).length + held createdAt id s) := by
  have hle := ahead_step h createdAt id
  cases hs : s.worker with
  | claim job =>
    rw [held_claim hs, held_claim (hw.trans hs)]
    by_cases hin' : job.id = id ∨ job.id ∈ ahead createdAt id t
    · rw [if_pos hin']
      omega
    · rw [if_neg hin']
      by_cases hin : job.id = id ∨ job.id ∈ ahead createdAt id s
      · have hmem := hin.resolve_left fun he => hin' (.inl he)
        have hroom := ahead_leaves h hmem fun hx => hin' (.inr hx)
        omega
      · rw [if_neg hin]
        omega
  | _ =>
    have hheld : held createdAt id t = 0 := by simp only [held, hw, hs]
    omega

/-- A claim takes a job from the front, or the one in the worker's hand. -/
theorem overtakes_paid {cfg : Config} {s t : State} {a : Act} (h : step cfg s a = some t)
    {createdAt : Int} {id : String} (hover : overtakes id s a ≠ 0) :
    overtakes id s a + ((ahead createdAt id t).length + held createdAt id t) ≤
      joins cfg createdAt id s a + ((ahead createdAt id s).length + held createdAt id s) := by
  have hle := ahead_step h createdAt id
  unfold overtakes at hover ⊢
  split at hover
  · rename_i job hs
    obtain ⟨hne, hclaim⟩ := ite_ne_left_iff.mp hover
    obtain ⟨job', r, -, hs', -, hr, -, hran, ht⟩ := claims_won (step_moved h) (Ne.symm hclaim)
    have hone := claims_le job.id s a
    have hheld : held createdAt id t = 0 := by simp only [held, ht]
    have hgone : job.id ∉ ahead createdAt id t := by
      rintro hx
      obtain ⟨r', hr', hbefore⟩ := mem_ahead.mp hx
      have hrunning := hran r' hr'
      simp only [queuedBefore, decide_eq_true_eq] at hbefore
      rw [hrunning] at hbefore
      cases hbefore.1
    rw [if_neg hne, held_claim hs]
    by_cases hin : job.id ∈ ahead createdAt id s
    · have hroom := ahead_leaves h hin hgone
      omega
    · rw [if_neg (not_or.mpr ⟨hne, hin⟩)]
      omega
  · exact absurd rfl hover

theorem overtakes_step {cfg : Config} {s t : State} {a : Act} (h : step cfg s a = some t)
    {r : JobRow} (hr : row? s r.id = some r) (hrun : runnable r = true) :
    overtakes r.id s a + ((ahead r.createdAt r.id t).length + held r.createdAt r.id t) ≤
      joins cfg r.createdAt r.id s a +
        ((ahead r.createdAt r.id s).length + held r.createdAt r.id s) := by
  have hm := step_moved h
  have hle := ahead_step h r.createdAt r.id
  by_cases hover : overtakes r.id s a = 0
  · rw [hover, Nat.zero_add]
    rcases worker_cases hm with ⟨f, l, rfl, -, -⟩ | ⟨hw, -, -⟩ | ⟨-, rfl⟩
    · rw [held_fetched hm hr hrun]
      omega
    · exact held_kept h hw r.createdAt r.id
    · have hheld : held r.createdAt r.id s.restart = 0 := rfl
      omega
  · exact overtakes_paid h hover

theorem stmt_undeletes {st : JobStmt} {r : JobRow} (hd : r.deletedAt ≠ none)
    (h : (st.update.row r).deletedAt = none) : st = .restoreJob r.id := by
  revert h
  refine row_cases (P := fun r' => r'.deletedAt = none → _) _ r (fun hc h => ?_) fun h => absurd h hd
  cases st with
  | restoreJob id =>
    simp only [JobStmt.update, restoreJob, decide_eq_true_eq] at hc
    rw [hc.1]
  | deleteJob now id => cases h
  | setDerivedPath col id rel => cases col <;> exact absurd h hd
  | _ => exact absurd h hd

theorem issues_restore {s : State} {a : Act} {id : String} (h : Issues s a (.restoreJob id)) :
    ∃ i now, s.tasks[i]? = some (.hide (.update .restore id now)) ∧ a = .task i .ok := by
  generalize hst : JobStmt.restoreJob id = st at h
  cases h with
  | @hide i k _ now hi =>
    cases k <;> cases hst
    exact ⟨i, now, hi, rfl⟩
  | _ => cases hst

/-- A statement that takes a row into the queue is that of a restore, of the startup reset or
of a requeue. -/
theorem stmt_puts {s : State} {a : Act} {st : JobStmt} (hst : Issues s a st) {r : JobRow}
    (hr : row? s r.id = some r) (hrun : runnable r = false)
    (hrun' : runnable (st.update.row r) = true) (createdAt : Int) : PutsAhead createdAt s a := by
  obtain ⟨hq', hlive'⟩ : (st.update.row r).status = .queued ∧ (st.update.row r).deletedAt = none :=
    of_decide_eq_true hrun'
  by_cases hq : r.status = .queued
  · have hd : r.deletedAt ≠ none := fun hd => of_decide_eq_false hrun ⟨hq, hd⟩
    obtain rfl := stmt_undeletes hd hlive'
    obtain ⟨i, now, hi, rfl⟩ := issues_restore hst
    exact .restored (restores_eq hi hr hd) hq
  · rcases (stmt_queued hq hq').2 with rfl | rfl
    · obtain ⟨hs, rfl⟩ := issues_reset hst
      exact .reset hs
    · obtain ⟨job, hs, -, rfl⟩ := issues_requeue hst
      exact .requeued hs

theorem joins_why {cfg : Config} {s : State} {a : Act} {createdAt : Int} {id : String}
    (hj : joins cfg createdAt id s a ≠ 0) : PutsAhead createdAt s a := by
  obtain ⟨t, h, x, hx⟩ : ∃ t, step cfg s a = some t ∧
      ∃ x, x ∈ (ahead createdAt id t).filter (· ∉ ahead createdAt id s) := by
    unfold joins at hj
    split at hj
    · rename_i t ht
      exact ⟨t, ht, List.exists_mem_of_length_pos (Nat.pos_of_ne_zero hj)⟩
    · exact absurd rfl hj
  obtain ⟨hmem, hnew⟩ := List.mem_filter.mp hx
  have hnew : x ∉ ahead createdAt id s := of_decide_eq_true hnew
  obtain ⟨r', hr', hbefore⟩ := mem_ahead.mp hmem
  have hsame : row? s x ≠ some r' := fun hr => hnew (mem_ahead.mpr ⟨r', hr, hbefore⟩)
  unfold row? at hr'
  cases (step_moved h).jobs with
  | same he =>
    rw [he] at hr'
    exact absurd hr' hsame
  | @update st hst he =>
    rw [he, Table.find?_update] at hr'
    obtain ⟨r, hr, rfl⟩ := Option.map_eq_some_iff.mp hr'
    obtain rfl : r.id = x := (row_mem hr).2
    refine stmt_puts hst hr ?_ (queuedBefore_runnable hbefore) createdAt
    by_contra hrun
    obtain ⟨hq, hlive⟩ : r.status = .queued ∧ r.deletedAt = none :=
      of_decide_eq_true (Bool.eq_true_of_not_eq_false hrun)
    refine hnew (mem_ahead.mpr ⟨r, hr, ?_⟩)
    simp only [queuedBefore, decide_eq_true_eq] at hbefore ⊢
    rw [(stmt_sameRequest st r).createdAt, st.update.row_key r] at hbefore
    exact ⟨hq, hlive, hbefore.2.2⟩
  | @insert i f p inputId n jobId ha hi hins =>
    rw [Table.find?_insert hins] at hr'
    split at hr'
    · cases hr'
      refine .submitted (by simp [ha, inserts, hi]) ?_
      simp only [queuedBefore, newJob, decide_eq_true_eq] at hbefore
      omega
    · exact absurd hr' hsame
  | delete ha hi he =>
    rw [he, Table.find?_delete] at hr'
    exact absurd (Option.filter_eq_some_iff.mp hr').1 hsame

theorem finish_ne (row row' : JobFullRow) (n : Nat) :
    GetPc.finish row ≠ .answered (.job row' (some n)) := by
  unfold GetPc.finish
  split <;> simp

theorem counted_call {w w' : World} {f : Fate} {pc : GetPc} {row : JobFullRow} {n : Nat}
    (h : perform pc.next f w = some (w', .answered (.job row (some n)))) :
    w' = w ∧ n = w.db.jobs.rows.countP (queuedBefore row.createdAt row.id) := by
  obtain ⟨c, k, x, hc, hex, hk⟩ := perform_eq_some.mp h
  cases pc with
  | countAhead row₀ =>
    cases hc
    rcases execSql_eq_some hex with ⟨db, a, -, hrun, rfl, rfl⟩ | ⟨rfl, e, rfl⟩
    · cases hrun
      cases hk
      exact ⟨rfl, rfl⟩
    · cases hk
  | selectRow id wait =>
    cases hc
    rcases x with e | _ | current
    · cases hk
    · cases hk
    · dsimp only at hk
      split at hk
      · cases hk
      · exact absurd hk (finish_ne _ _ _)
  | reread row₀ seen =>
    cases hc
    rcases x with e | _ | current
    · cases hk
    · cases hk
    · dsimp only at hk
      split at hk
      · exact absurd hk (finish_ne _ _ _)
      · cases hk
  | checkDeadline row₀ seen =>
    cases hc
    cases x
    · cases hk
    · exact absurd hk (finish_ne _ _ _)
  | subscribe row₀ | changed row₀ seen =>
    cases hc
    cases hk
  | answered r => cases hc

/-- The position in an answer is the number of jobs that are in front when it is given. -/
theorem answered_position {cfg : Config} {s t : State} {i : Nat} {f : Fate}
    (h : step cfg s (.task i f) = some t) {row : JobFullRow} {n : Nat}
    (ht : answerAt t i = some (row, some n)) : n = (ahead row.createdAt row.id t).length := by
  have hans := answerAt_eq_some ht
  cases step_moved h with
  | @task _ _ τ τ' hi hcall worker tasks =>
    have hlen : i < s.tasks.length := (List.getElem?_eq_some_iff.mp hi).1
    rw [tasks, List.getElem?_set_self hlen] at hans
    obtain rfl := Option.some.inj hans
    cases task_moved hcall with
    | get hp =>
      obtain ⟨hw, hn⟩ := counted_call hp
      rw [hn, ahead, List.length_map, hw, List.countP_eq_length_filter]

/-- In every run and for every answer of `get_job` with a queue position: as long as the job
waits, at most as many claims of other jobs come before it as the position said, and as
jobs come to be in front of it, and one more if the worker had then fetched a job behind it.
Only a restore, a requeue, the reset at startup or a submit within the second of its own
submit puts a job in front. -/
theorem position_kept {cfg : Config} {as bs : List Act} {s t u : State} {i : Nat} {f : Fate}
    {row : JobFullRow} {n : Nat} (hs : run cfg as State.init = some s)
    (ht : step cfg s (.task i f) = some t) (hans : answerAt t i = some (row, some n))
    (hu : run cfg bs t = some u)
    (hwaits : Runs.Along (step cfg) (fun v _ => Waits row.id v) bs t) :
    Runs.total (step cfg) (overtakes row.id) bs t ≤
      n + Runs.total (step cfg) (joins cfg row.createdAt row.id) bs t +
        held row.createdAt row.id t ∧
    ∀ x ∈ Runs.visits (step cfg) bs t, joins cfg row.createdAt row.id x.1 x.2 ≠ 0 →
      PutsAhead row.createdAt x.1 x.2 := by
  have hcons : Consistent t := (run_consistent hs).step (step_moved ht)
  have hstands : Stands row t := hcons.stands i _ row (answerAt_eq_some hans) rfl
  refine ⟨?_, fun x _ hj => joins_why hj⟩
  have hpaid : ∀ v a v', Stands row v → Waits row.id v → step cfg v a = some v' →
      overtakes row.id v a + ((ahead row.createdAt row.id v').length +
        held row.createdAt row.id v') ≤
      joins cfg row.createdAt row.id v a +
        ((ahead row.createdAt row.id v).length + held row.createdAt row.id v) := by
    intro v a v' hv hwait hstep
    obtain ⟨r, hr, hrun⟩ := (Option.any_eq_true _ _).mp hwait
    have hid : r.id = row.id := (row_mem hr).2
    have hcreated : r.createdAt = row.createdAt := (hv.2 r hr).createdAt
    rw [← hid, ← hcreated]
    exact overtakes_step hstep (hid ▸ hr) hrun
  have hbalance := hwaits.balance (fun v a v' hv _ hstep => hv.step (step_moved hstep)) hpaid hu
    hstands
  rw [answered_position ht hans]
  omega

/-- Two jobs are submitted, and a client asks about the second one. -/
def askSecond : List Act :=
  firstSubmit 0 jobA ++ nextSubmit 1 jobB ++ [.arrive (.get jobB none), .task 2 .ok]

theorem position_kept_sample : ∃ s t u row, run sampleConfig askSecond State.init = some s ∧
    step sampleConfig s (.task 2 .ok) = some t ∧ answerAt t 2 = some (row, some 1) ∧
    run sampleConfig startAndClaim t = some u ∧
    Runs.total (step sampleConfig) (overtakes row.id) startAndClaim t = 1 ∧
    Runs.total (step sampleConfig) (overtakes row.id) startAndClaim t ≤
      1 + Runs.total (step sampleConfig) (joins sampleConfig row.createdAt row.id) startAndClaim t +
        held row.createdAt row.id t := by
  have hrun : ((run sampleConfig askSecond State.init).bind fun s =>
      (step sampleConfig s (.task 2 .ok)).bind fun t =>
      (run sampleConfig startAndClaim t).bind fun _ => (answerAt t 2).map fun x =>
        (x.2, Runs.total (step sampleConfig) (overtakes x.1.id) startAndClaim t,
          decide (Along sampleConfig (fun v _ => Waits x.1.id v) startAndClaim t))) =
      some (some 1, 1, true) := by
    simp only [askSecond, List.append_assoc, run_first]
    decide +kernel
  obtain ⟨s, hs, h⟩ := Option.bind_eq_some_iff.mp hrun
  obtain ⟨t, ht, h⟩ := Option.bind_eq_some_iff.mp h
  obtain ⟨u, hu, h⟩ := Option.bind_eq_some_iff.mp h
  obtain ⟨⟨row, pos⟩, hans, h⟩ := Option.map_eq_some_iff.mp h
  simp only [Prod.mk.injEq, decide_eq_true_eq] at h
  obtain ⟨rfl, hone, hwaits⟩ := h
  exact ⟨s, t, u, row, hs, ht, hans, hu, hone, (position_kept hs ht hans hu hwaits).1⟩

end ZunServer.Overtaking
