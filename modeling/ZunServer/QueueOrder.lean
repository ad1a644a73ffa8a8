import ZunServer.Drain

/-!
# The place in the queue

`get_job` counts the queued jobs in front of a job with one statement, the worker
picks the next job with another. Both go by `created_at` and then by `id`, which
no write touches: a job that is put back stands among the others where it stood.
-/
namespace ZunServer.QueueOrder

open KeyedTable
open Schema Statements Database Calls Handlers Server Rows Lifecycle Listing Drain

def fetchOldestQueued (t : Jobs) : Option QueuedJob :=
  (first? olderThan (t.rows.filter runnable)).map QueuedJob.of

theorem run_fetchOldestQueued (db : Db) :
    Sql.run db .fetchOldestQueued = .ok (db, fetchOldestQueued db.jobs) := rfl

/-- At each of these times a job is fetched and, by its claim, taken off the queue. -/
def takes : List Int → Jobs → List QueuedJob
  | [], _ => []
  | now :: clock, t => match fetchOldestQueued t with
    | none => []
    | some job => job :: takes clock (t.update (markRunning now job.id))

theorem runnable_claimed (now : Int) (id : String) (r : JobRow) :
    runnable ((markRunning now id).row r) = (decide (r.id ≠ id) && runnable r) := by
  by_cases hid : r.id = id
  · by_cases hrun : r.status = .queued ∧ r.deletedAt = none
    · simp [Update.row, markRunning, runnable, hid, hrun]
    · simp [Update.row, markRunning, runnable, hid, hrun]
  · simp [Update.row, markRunning, hid]

/-- A claim takes its job off the queue and no other. -/
theorem claim_filter (t : Jobs) (now : Int) (id : String) :
    (t.update (markRunning now id)).rows.filter runnable =
      (t.rows.filter runnable).filter fun r => r.id ≠ id := by
  rw [Table.update, List.filter_map, List.filter_filter]
  have hrunnable : runnable ∘ (markRunning now id).row =
      fun r => decide (r.id ≠ id) && runnable r := funext (runnable_claimed now id)
  have hsame : ∀ r ∈ t.rows.filter (fun r => decide (r.id ≠ id) && runnable r),
      (markRunning now id).row r = r := by
    intro r hr
    have hid : r.id ≠ id := by simp at hr; exact hr.2.1
    simp [Update.row, markRunning, hid]
  rw [hrunnable, List.map_congr_left hsame, List.map_id']

theorem takes_inTurn (clock : List Int) (t : Jobs) :
    (takes clock t).map QueuedJob.id =
      (inTurn JobRow.id olderThan clock.length (t.rows.filter runnable)).map JobRow.id := by
  induction clock generalizing t with
  | nil => rfl
  | cons now clock ih =>
    cases hm : first? olderThan (t.rows.filter runnable) with
    | none => simp [takes, fetchOldestQueued, inTurn, hm]
    | some m =>
      simp only [takes, fetchOldestQueued, inTurn, hm, Option.map_some, List.length_cons,
        List.map_cons, ih, claim_filter]
      rfl

theorem rowKey_inj (a b : JobRow) (h : rowKey a = rowKey b) : a.id = b.id :=
  congrArg (fun k => (ofLex k).2) h

theorem queued_nodup (t : Jobs) : ((t.rows.filter runnable).map JobRow.id).Nodup :=
  (List.filter_sublist.map JobRow.id).nodup t.nodup

/-- What `get_job` counts are the rows in front of the job in the worker's order. -/
theorem countAhead_eq (t : Jobs) (r : JobRow) :
    t.rows.countP (queuedBefore r.createdAt r.id) =
      (t.rows.filter runnable).countP (olderThan · r) := by
  rw [List.countP_filter]
  apply List.countP_congr
  intro x _
  simp only [queuedBefore, olderThan, runnable, decide_eq_true_eq, Bool.and_eq_true]
  tauto

/-- A queued job is taken after as many others as `get_job` counts. -/
theorem taken_after {t : Jobs} {r : JobRow} (hr : t.find? r.id = some r) (hrun : runnable r = true)
    {clock : List Int} (hlen : t.rows.countP (queuedBefore r.createdAt r.id) < clock.length) :
    ((takes clock t).map QueuedJob.id).idxOf? r.id =
      some (t.rows.countP (queuedBefore r.createdAt r.id)) := by
  have hmem : r ∈ t.rows.filter runnable :=
    List.mem_filter.mpr ⟨(Table.find?_eq_some.mp hr).1, hrun⟩
  rw [countAhead_eq] at hlen ⊢
  rw [takes_inTurn]
  exact idxOf_inTurn olderThan_iff rowKey_inj (queued_nodup t) hmem hlen

/-- Where the handler is while it answers for this row and nothing else moves. -/
def Answers (db : Db) (r : JobRow) : GetPc → Prop
  | .selectRow id _ => id = r.id
  | .subscribe row | .checkDeadline row _ | .changed row _ | .reread row _ | .countAhead row =>
    row = .of r
  | .answered resp => ∀ row pos, resp = .job row pos →
    row = .of r ∧ pos = some (db.jobs.rows.countP (queuedBefore r.createdAt r.id))

theorem answers_finish {db : Db} {r : JobRow} (h : r.status = .queued) :
    Answers db r (.finish (.of r)) := by
  simp [GetPc.finish, JobFullRow.of, h, Answers]

theorem answers_fail (db : Db) (r : JobRow) (e : String) : Answers db r (.fail e) := by
  simp [Answers, GetPc.fail]

theorem answers_step {w w' : World} {r : JobRow} (hr : w.db.jobs.find? r.id = some r)
    (hq : r.status = .queued) (hlive : r.deletedAt = none) {pc pc' : GetPc} {f : Fate}
    (h : Answers w.db r pc) (hp : perform pc.next f w = some (w', pc')) :
    w'.db = w.db ∧ Answers w.db r pc' := by
  obtain ⟨c, k, x, hc, hex, rfl⟩ := perform_eq_some.mp hp
  have hrow : (w.db.jobs.find? r.id).filter (fun r => r.deletedAt = none) = some r := by
    simp [hr, Option.filter, hlive]
  cases pc with
  | selectRow id wait =>
    cases hc
    obtain rfl : id = r.id := h
    rcases execSql_eq_some hex with ⟨db, a, -, hrun, rfl, rfl⟩ | ⟨rfl, e, rfl⟩
    · cases hrun
      refine ⟨rfl, ?_⟩
      simp only [hrow, Option.map_some]
      split
      · rfl
      · exact answers_finish hq
    · exact ⟨rfl, answers_fail _ _ _⟩
  | subscribe row =>
    cases hc
    cases f <;> cases hex
    exact ⟨rfl, h⟩
  | checkDeadline row seen =>
    cases hc
    obtain rfl : row = .of r := h
    cases f <;> cases hex
    · exact ⟨rfl, rfl⟩
    · exact ⟨rfl, answers_finish hq⟩
  | changed row seen =>
    cases hc
    cases f with
    | ok =>
      obtain ⟨-, hex⟩ := Option.ite_none_right_eq_some.mp hex
      cases hex
      exact ⟨rfl, h⟩
    | elapsed =>
      cases hex
      exact ⟨rfl, h⟩
    | _ => cases hex
  | reread row seen =>
    cases hc
    obtain rfl : row = .of r := h
    rcases execSql_eq_some hex with ⟨db, a, -, hrun, rfl, rfl⟩ | ⟨rfl, e, rfl⟩
    · cases hrun
      have hsame : (w.db.jobs.find? (JobFullRow.of r).id).filter (fun r => r.deletedAt = none) =
          some r := hrow
      refine ⟨rfl, ?_⟩
      simp only [hsame, Option.map_some, ne_eq, not_true_eq_false, if_false]
      rfl
    · exact ⟨rfl, answers_fail _ _ _⟩
  | countAhead row =>
    cases hc
    obtain rfl : row = .of r := h
    rcases execSql_eq_some hex with ⟨db, a, -, hrun, rfl, rfl⟩ | ⟨rfl, e, rfl⟩
    · cases hrun
      refine ⟨rfl, ?_⟩
      rintro row pos he
      cases he
      exact ⟨rfl, rfl⟩
    · exact ⟨rfl, answers_fail _ _ _⟩
  | answered resp => cases hc

/-- `get_job` on its own. -/
def getAlone : World × GetPc → Fate → Option (World × GetPc) := alone fun _ pc => pc.next

theorem get_position {w w' : World} {r : JobRow} (hr : w.db.jobs.find? r.id = some r)
    (hq : r.status = .queued) (hlive : r.deletedAt = none) {wait : Option Nat} {fs : List Fate}
    {row : JobFullRow} {pos : Option Nat}
    (h : Runs.run getAlone fs (w, .selectRow r.id wait) = some (w', .answered (.job row pos))) :
    row = .of r ∧ pos = some (w.db.jobs.rows.countP (queuedBefore r.createdAt r.id)) := by
  have hinv : w'.db = w.db ∧ Answers w.db r (.answered (.job row pos)) := by
    refine Runs.invariant (I := fun x : World × GetPc => x.1.db = w.db ∧ Answers w.db r x.2)
      (fun x f y hx hs => ?_) h ⟨rfl, rfl⟩
    obtain ⟨hdb, hpc⟩ := hx
    rw [← hdb] at hr hpc ⊢
    exact answers_step hr hq hlive hpc hs
  exact hinv.2 row pos rfl

theorem get_finishes {w : World} {r : JobRow} (hq : r.status = .queued) :
    ∃ pos, Runs.run getAlone [.ok] (w, .finish (.of r)) =
      some (w, .answered (.job (.of r) (some pos))) := by
  have hfinish : GetPc.finish (.of r) = .countAhead (.of r) := if_pos hq
  rw [hfinish]
  exact ⟨_, rfl⟩

/-- It does come to an answer, at the latest when the wait is over. -/
theorem get_answers {w : World} {r : JobRow} (hr : w.db.jobs.find? r.id = some r)
    (hq : r.status = .queued) (hlive : r.deletedAt = none) (wait : Option Nat) :
    ∃ fs pos, Runs.run getAlone fs (w, .selectRow r.id wait) =
      some (w, .answered (.job (.of r) (some pos))) := by
  obtain ⟨pos, hpos⟩ := get_finishes (w := w) hq
  have hexec : exec w (.sql (.fetchJobRow r.id)) .ok = some (w, .ok (some (.of r))) := by
    simp [exec, execSql, Sql.run, hr, Option.filter, hlive]
  have hread : getAlone (w, .selectRow r.id wait) .ok = some (w,
      if 0 < min (wait.getD 0) maxWaitSeconds ∧ (JobFullRow.of r).status.live = true then
        .subscribe (.of r) else .finish (.of r)) := by
    simp only [getAlone, alone, GetPc.next, perform, Option.bind_some, hexec, Option.map_some]
  split at hread
  · exact ⟨[.ok, .ok, .elapsed, .ok], pos, Runs.run_cons_some.mpr ⟨_, hread, hpos⟩⟩
  · exact ⟨[.ok, .ok], pos, Runs.run_cons_some.mpr ⟨_, hread, hpos⟩⟩

/-- The queued jobs in the order in which they are taken; the clock plays no part in it. -/
def queueOrder (t : Jobs) : List String :=
  (takes (List.replicate t.rows.length 0) t).map QueuedJob.id

/-- Their keys. -/
def queueKeys (t : Jobs) : List Key :=
  (inTurn JobRow.id olderThan t.rows.length (t.rows.filter runnable)).map rowKey

theorem queueOrder_eq (t : Jobs) : queueOrder t = (queueKeys t).map fun k => (ofLex k).2 := by
  rw [queueOrder, takes_inTurn, List.length_replicate, queueKeys, List.map_map]
  rfl

theorem queueKeys_sorted (t : Jobs) : (queueKeys t).Pairwise (· < ·) :=
  List.pairwise_map.mpr (inTurn_sorted olderThan_iff rowKey_inj _ _)

theorem mem_queueKeys {t : Jobs} {k : Key} :
    k ∈ queueKeys t ↔ ∃ r ∈ t.rows, runnable r = true ∧ rowKey r = k := by
  simp only [queueKeys, List.mem_map, mem_inTurn (queued_nodup t) (List.length_filter_le _ _),
    List.mem_filter, and_assoc]

theorem mem_queueOrder {t : Jobs} {id : String} :
    id ∈ queueOrder t ↔ ∃ r ∈ t.rows, runnable r = true ∧ r.id = id := by
  rw [queueOrder_eq, List.mem_map]
  constructor
  · rintro ⟨k, hk, rfl⟩
    obtain ⟨r, hr, hrun, rfl⟩ := mem_queueKeys.mp hk
    exact ⟨r, hr, hrun, rfl⟩
  · rintro ⟨r, hr, hrun, rfl⟩
    exact ⟨rowKey r, mem_queueKeys.mpr ⟨r, hr, hrun, rfl⟩, rfl⟩

theorem filter_queueOrder (t : Jobs) (l : List String) : (queueOrder t).filter (· ∈ l) =
    ((queueKeys t).filter fun k => (ofLex k).2 ∈ l).map fun k => (ofLex k).2 := by
  rw [queueOrder_eq, List.filter_map]
  rfl

/-- The jobs that are queued both times stand in the same order; if they are the same jobs,
each has its old place. -/
structure SameOrder (t u : Jobs) : Prop where
  common : (queueOrder t).filter (· ∈ queueOrder u) = (queueOrder u).filter (· ∈ queueOrder t)
  same : (∀ id, id ∈ queueOrder t ↔ id ∈ queueOrder u) → queueOrder t = queueOrder u

theorem common_keys {t u : Jobs} (h : Agree t u) {k : Key} (hk : k ∈ queueKeys t)
    (hid : (ofLex k).2 ∈ queueOrder u) : k ∈ queueKeys u ∧ (ofLex k).2 ∈ queueOrder t := by
  obtain ⟨r, hr, hrun, rfl⟩ := mem_queueKeys.mp hk
  obtain ⟨r', hr', hrun', he⟩ := mem_queueOrder.mp hid
  have hkey : rowKey r = rowKey r' := h.rowKey hr hr' he.symm
  exact ⟨mem_queueKeys.mpr ⟨r', hr', hrun', hkey.symm⟩, mem_queueOrder.mpr ⟨r, hr, hrun, rfl⟩⟩

/-- A job that keeps its `created_at` keeps its place. -/
theorem sameOrder_of_agree {t u : Jobs} (h : Agree t u) : SameOrder t u := by
  have hkeys : (queueKeys t).filter (fun k => (ofLex k).2 ∈ queueOrder u) =
      (queueKeys u).filter fun k => (ofLex k).2 ∈ queueOrder t := by
    apply ((queueKeys_sorted t).filter _).sortedLT.eq_of_mem_iff
      ((queueKeys_sorted u).filter _).sortedLT
    intro k
    simp only [List.mem_filter, decide_eq_true_eq]
    exact ⟨fun hk => common_keys h hk.1 hk.2, fun hk => common_keys (symm h) hk.1 hk.2⟩
  have hcommon : (queueOrder t).filter (· ∈ queueOrder u) =
      (queueOrder u).filter (· ∈ queueOrder t) := by
    rw [filter_queueOrder t, filter_queueOrder u, hkeys]
  refine ⟨hcommon, fun hmem => ?_⟩
  have hall : ∀ {l m : List String}, (∀ id ∈ l, id ∈ m) → l.filter (· ∈ m) = l := by
    intro l m hlm
    rw [List.filter_eq_self]
    exact fun id hid => decide_eq_true (hlm id hid)
  rwa [hall fun id hid => (hmem id).mp hid, hall fun id hid => (hmem id).mpr hid] at hcommon

theorem later_write {t t' u : Jobs} (a : JobsWrite) (h : write t a = some t') (hu : Later t' u) :
    Later t u := by
  obtain ⟨ws, hws⟩ := hu
  exact ⟨a :: ws, Runs.run_cons_some.mpr ⟨t', h, hws⟩⟩

theorem later_then {t u u' : Jobs} (a : JobsWrite) (h : Later t u) (hu : write u a = some u') :
    Later t u' := by
  obtain ⟨ws, hws⟩ := h
  exact ⟨ws ++ [a], Runs.run_trans hws (Runs.run_cons_some.mpr ⟨u', hu, rfl⟩)⟩

/-- Either way of putting a job back does put it on the queue. -/
theorem queued_again {u : Jobs} {id : String} {back : JobStmt} {r : JobRow}
    (hback : back = .requeue id ∨ back = .resetRunningJobs) (hr : u.find? id = some r)
    (hrunning : r.status = .running) (hlive : r.deletedAt = none) :
    id ∈ queueOrder (u.update back.update) := by
  obtain ⟨hmem, rfl⟩ := Table.find?_eq_some.mp hr
  refine mem_queueOrder.mpr ⟨back.update.row r, Table.mem_update.mpr ⟨r, hmem, rfl⟩, ?_,
    back.update.row_key r⟩
  rcases hback with rfl | rfl <;>
    simp [JobStmt.update, requeue, resetRunningJobs, Update.row, runnable, hrunning, hlive]

/-- `get_job` answers for a queued job with the number of jobs that the worker takes before it.
A job that was claimed and is put back, whatever is written in between, is queued again, unless
it runs no more by then, and stands among the other queued jobs where it stood; and the queue keeps
its order in every run of the server, with its restarts. -/
theorem queue_position (cfg : Config) :
    (∀ (w : World) (r : JobRow) (wait : Option Nat), w.db.jobs.find? r.id = some r →
      r.status = .queued → r.deletedAt = none →
      (∃ fs pos, Runs.run getAlone fs (w, .selectRow r.id wait) =
        some (w, .answered (.job (.of r) (some pos)))) ∧
      ∀ fs w' row pos,
        Runs.run getAlone fs (w, .selectRow r.id wait) = some (w', .answered (.job row pos)) →
        ∃ n, pos = some n ∧ ∀ clock, n < clock.length →
          ((takes clock w.db.jobs).map QueuedJob.id).idxOf? r.id = some n) ∧
    (∀ (t u : Jobs) (now : Int) (id : String) (back : JobStmt),
      back = .requeue id ∨ back = .resetRunningJobs → Later (t.update (markRunning now id)) u →
      SameOrder t (u.update back.update) ∧
      ∀ r, u.find? id = some r → r.status = .running → r.deletedAt = none →
        id ∈ queueOrder (u.update back.update)) ∧
    ∀ (s t : State) (as : List Act), Reachable cfg s → run cfg as s = some t →
      SameOrder s.world.db.jobs t.world.db.jobs := by
  refine ⟨fun w r wait hr hq hlive => ⟨get_answers hr hq hlive wait, ?_⟩, ?_, ?_⟩
  · intro fs w' row pos h
    obtain ⟨-, rfl⟩ := get_position hr hq hlive h
    have hrun : runnable r = true := decide_eq_true ⟨hq, hlive⟩
    exact ⟨_, rfl, fun clock hlen => taken_after hr hrun hlen⟩
  · intro t u now id back hback hlater
    have hwhole : Later t (u.update back.update) :=
      later_then (.stmt back) (later_write (.stmt (.markRunning now id)) rfl hlater) rfl
    exact ⟨sameOrder_of_agree hwhole.grown.agree, fun r => queued_again hback⟩
  · intro s t as hs h
    exact sameOrder_of_agree (agree_of_run hs h)

/-- The first of two jobs is claimed, and then the process is started again. -/
def claimFirst : List Act := List.replicate 3 (.worker .ok)
def restart : List Act := .crash :: List.replicate 2 (.worker .ok)

/-- ComfyUI is not there when the worker comes to it. -/
def backendDown : List Act :=
  List.replicate 3 (.worker .ok) ++ [.worker (.unreachable "connection refused"), .worker .ok]

def sampleWorld : World := { State.init.world with db := { Db.empty with jobs := sampleJobs } }

/-- Three jobs of which two came in the same second: the older of these is claimed and put back
by a requeue. Then a run of the server that puts a job back, by a requeue or at its restart. -/
theorem queue_position_sample :
    ((takes [300, 300, 300] sampleJobs).map QueuedJob.id).idxOf? Server.jobB = some 1 ∧
    (SameOrder sampleJobs ((sampleJobs.update (markRunning 300 Server.jobA)).update
      (requeue Server.jobA)) ∧
      Server.jobA ∈ queueOrder ((sampleJobs.update (markRunning 300 Server.jobA)).update
        (requeue Server.jobA))) ∧
    ∀ back ∈ [backendDown, restart], ∃ s m t, run sampleConfig twoQueued State.init = some s ∧
      run sampleConfig claimFirst s = some m ∧ queueOrder m.world.db.jobs = [Server.jobB] ∧
      run sampleConfig back m = some t ∧
      queueOrder t.world.db.jobs = [Server.jobA, Server.jobB] ∧
      SameOrder s.world.db.jobs t.world.db.jobs := by
  obtain ⟨hposition, hback, hruns⟩ := queue_position sampleConfig
  refine ⟨?_, ?_, fun back hmem => ?_⟩
  · have hr : sampleWorld.db.jobs.find? (sampleJob Server.jobB 100).id =
        some (sampleJob Server.jobB 100) := by decide +kernel
    have hcount : sampleWorld.db.jobs.rows.countP (queuedBefore 100 Server.jobB) = 1 := by
      decide +kernel
    obtain ⟨⟨fs, pos, hrun⟩, hall⟩ := hposition sampleWorld _ none hr rfl rfl
    obtain ⟨n, hn, htakes⟩ := hall fs _ _ _ hrun
    have hone : n = 1 := by
      rw [← hcount]
      exact Option.some.inj (hn.symm.trans (get_position hr rfl rfl hrun).2)
    rw [← hone]
    exact htakes [300, 300, 300] (by simp [hone])
  · obtain ⟨horder, hqueued⟩ :=
      hback sampleJobs _ 300 Server.jobA (.requeue Server.jobA) (.inl rfl) ⟨[], rfl⟩
    refine ⟨horder, ?_⟩
    have hrow : (((sampleJobs.update (markRunning 300 Server.jobA)).find? Server.jobA).map
        fun r => (r.status, r.deletedAt)) = some (.running, none) := by decide +kernel
    obtain ⟨r, hr, he⟩ := Option.map_eq_some_iff.mp hrow
    obtain ⟨hrunning, hlive⟩ := Prod.mk.inj he
    exact hqueued r hr hrunning hlive
  · have hall : ∀ back ∈ [backendDown, restart], ((run sampleConfig twoQueued State.init).bind
        fun s => (run sampleConfig claimFirst s).bind fun m => (run sampleConfig back m).map fun t =>
          (queueOrder m.world.db.jobs, queueOrder t.world.db.jobs)) =
        some ([Server.jobB], [Server.jobA, Server.jobB]) := by
      simp only [twoQueued, List.append_assoc, run_first]
      decide +kernel
    obtain ⟨s, hs, h⟩ := Option.bind_eq_some_iff.mp (hall back hmem)
    obtain ⟨m, hm, h⟩ := Option.bind_eq_some_iff.mp h
    obtain ⟨t, ht, h⟩ := Option.map_eq_some_iff.mp h
    simp only [Prod.mk.injEq] at h
    exact ⟨s, m, t, hs, hm, h.1, ht, h.2,
      hruns s t (claimFirst ++ back) ⟨_, hs⟩ (Runs.run_trans hm ht)⟩

end ZunServer.QueueOrder
