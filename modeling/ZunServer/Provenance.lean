import ZunServer.Attempts
import ZunServer.ContentAddressed

/-!
# Where a result comes from

One attempt at a job hands ComfyUI the input image, submits the workflow, asks
for the history of the prompt and takes the image it finds there. The trail of
a run keeps what ComfyUI answered to each of these. The row of a finished job
and the bytes of its output file are those of one attempt of the trail, and
they stay that way.
-/
namespace ZunServer.Provenance

open KeyedTable
open Schema Statements Database Comfy Calls Renditions Worker Handlers Server Rows Lifecycle
open WorkerSteps RowInvariant JobFiles FileWrites InputCache FirstUpload ContentAddressed Attempts
open scoped List

/-- What ComfyUI has answered to `process_job`. -/
inductive Event where
  /-- The image is stored under the name. -/
  | uploaded (b : Bytes) (name : String)
  | submitted (workflow : EditWorkflow) (promptId : String)
  | listed (promptId : String) (entry : HistoryEntry)
  | served (img : HistoryImage) (b : Bytes)
  deriving DecidableEq, Repr

def event : State × Act → Option Event
  | (s, .worker f) => match s.worker, f with
    | .process _ (.uploadImage _ _ b), .name name => some (.uploaded b name)
    | .process job (.submitPrompt name _), .name pid =>
      some (.submitted ⟨job.workflow, job.promptText, name, job.id, job.seed⟩ pid)
    | .process _ (.getHistory _ pid), .history (some entry) => some (.listed pid entry)
    | .process _ (.view _ _ img), .body b => some (.served img b)
    | _, _ => none
  | _ => none

def trail (past : List (State × Act)) : List Event := past.filterMap event

/-- One attempt at a job, as far as ComfyUI takes part in it. -/
structure Attempt where
  image : Bytes
  name : String
  promptId : String
  entry : HistoryEntry
  img : HistoryImage
  result : Bytes

/-- What such an attempt leaves in the trail, in this order. -/
def Attempt.events (a : Attempt) (job : QueuedJob) : List Event :=
  [.uploaded a.image a.name,
    .submitted ⟨job.workflow, job.promptText, a.name, job.id, job.seed⟩ a.promptId,
    .listed a.promptId a.entry, .served a.img a.result]

/-- The row and the output file of a finished job are those of the attempt. -/
structure Finished (cfg : Config) (tr : List Event) (w : World) (r : JobRow) (a : Attempt)
    (out : DataPath) : Prop where
  output : r.outputPath = some out
  promptId : r.comfyPromptId = some a.promptId
  events : a.events (.of r) <:+: tr
  image : RowIs (cfg.sha256Hex a.image) w r.inputId
  ended : a.promptId ∈ w.comfy.ended
  succeeded : a.entry.succeeded = true
  primary : a.entry.primaryOutput (outputPrefix r.id) = some a.img
  path : dataPath .outputs a.img.filename = .ok out
  bytes : ∀ b, w.files out = some b → b = a.result

theorem trail_append (past : List (State × Act)) (x : State × Act) :
    trail (past ++ [x]) = trail past ++ (event x).toList := by
  simp only [trail, List.filterMap_append]
  cases h : event x <;> simp [h]

theorem trail_quiet {x : State × Act} (he : event x = none) (past : List (State × Act)) :
    trail (past ++ [x]) = trail past := by
  rw [trail_append, he, Option.toList_none, List.append_nil]

theorem trail_mono {es : List Event} {past : List (State × Act)} (h : es <:+: trail past)
    (x : State × Act) : es <:+: trail (past ++ [x]) := by
  rw [trail_append]
  exact h.trans (List.infix_append' [] _ _)

theorem trail_next {es : List Event} {past : List (State × Act)} {x : State × Act} {e : Event}
    (h : es <:+ trail past) (he : event x = some e) : es ++ [e] <:+ trail (past ++ [x]) := by
  obtain ⟨before, h⟩ := h
  refine ⟨before, ?_⟩
  rw [trail_append, he, ← h, List.append_assoc]
  rfl

/-- How many events of the attempt lie behind a stage. -/
def behind : Stage → Nat
  | .newClientId _ | .connectWs _ _ | .submitPrompt _ _ => 1
  | .storePromptId _ _ | .spawnWriter _ _ | .awaitCompletion _ _ | .joinWriter _ _ _
  | .interrupt _ _ | .getHistory _ _ => 2
  | .view _ _ _ => 3
  | .writeOutput _ _ | .readDimensions _ | .markDone _ _ _ => 4
  | _ => 0

/-- The prompt id of the attempt stands in the row. -/
def StoredId (s : State) (job : QueuedJob) (a : Attempt) : Prop :=
  OnRow s job.id fun r => r.comfyPromptId = some a.promptId

def Listed (job : QueuedJob) (a : Attempt) : Prop :=
  a.entry.succeeded = true ∧ a.entry.primaryOutput (outputPrefix job.id) = some a.img

/-- The file at the path has no other bytes than these. -/
def HasOnly (w : World) (out : DataPath) (b : Bytes) : Prop := ∀ b', w.files out = some b' → b' = b

/-- What the worker works with at a stage is what the attempt has brought. -/
def Knows (s : State) (job : QueuedJob) (a : Attempt) : Stage → Prop
  | .newClientId name | .connectWs name _ | .submitPrompt name _ => name = a.name
  | .storePromptId _ pid => pid = a.promptId
  | .spawnWriter _ pid | .awaitCompletion _ pid | .interrupt _ pid =>
    pid = a.promptId ∧ StoredId s job a
  | .joinWriter _ pid r => pid = a.promptId ∧ StoredId s job a ∧
    (r = .completed → a.promptId ∈ s.world.comfy.ended)
  | .getHistory _ pid => pid = a.promptId ∧ StoredId s job a ∧ a.promptId ∈ s.world.comfy.ended
  | .view _ _ img => img = a.img ∧ StoredId s job a ∧ a.promptId ∈ s.world.comfy.ended ∧
    Listed job a
  | .writeOutput out b => b = a.result ∧ dataPath .outputs a.img.filename = .ok out ∧
    StoredId s job a ∧ a.promptId ∈ s.world.comfy.ended ∧ Listed job a
  | .readDimensions out | .markDone out _ _ => HasOnly s.world out a.result ∧
    dataPath .outputs a.img.filename = .ok out ∧ StoredId s job a ∧
    a.promptId ∈ s.world.comfy.ended ∧ Listed job a
  | _ => True

structure Underway (cfg : Config) (tr : List Event) (s : State) (job : QueuedJob) (stage : Stage)
    (a : Attempt) : Prop where
  events : (a.events job).take (behind stage) <:+ tr
  image : 1 ≤ behind stage → RowIs (cfg.sha256Hex a.image) s.world job.inputId
  knows : Knows s job a stage

/-- What the answer was, at the stages where it is kept. -/
def Answered (w w' : World) (f : Fate) (job : QueuedJob) : Stage → Stage → Prop
  | .uploadImage _ _ _, .newClientId name => f = .name name
  | .submitPrompt _ _, .storePromptId _ pid => f = .name pid
  | .storePromptId _ pid, .spawnWriter _ _ =>
    w'.db.jobs = w.db.jobs.update (updateComfyPromptId job.id pid)
  | .getHistory _ _, .view _ _ img => ∃ entry : HistoryEntry, f = .history (some entry) ∧
    entry.succeeded = true ∧ entry.primaryOutput (outputPrefix job.id) = some img
  | .view _ _ _, .writeOutput _ b => f = .body b
  | .writeOutput out b, .readDimensions _ => w'.files = w.files.put out (some b)
  | _, _ => True

theorem errorArm_ne {stage : Stage} (hc : claimed stage = true) (job job' : QueuedJob)
    (e : AnyError) (l l' : List GeneratePc) : (errorArm job e, l) ≠ (.process job' stage, l') := by
  intro he
  have harm := errorArm_cases job e
  rw [(Prod.mk.inj he).1] at harm
  cases harm <;> cases hc

theorem answered_history {w w' : World} {f : Fate} {job : QueuedJob} {client pid : String}
    {stage : Stage} (hc : claimed stage = true) {entry : Option HistoryEntry}
    (hf : f = .history entry) (h : afterHistory job client pid entry = .process job stage) :
    Answered w w' f job (.getHistory client pid) stage := by
  have herr : ∀ e, errorArm job e ≠ .process job stage := fun e he =>
    errorArm_ne hc job job e [] [] (by rw [he])
  unfold afterHistory at h
  split at h
  · exact absurd h (herr _)
  · rename_i entry
    split at h
    · exact absurd h (herr _)
    · rename_i hs
      split at h
      · exact absurd h (herr _)
      · rename_i img himg
        cases h
        exact ⟨entry, hf, not_not.mp hs, himg⟩

theorem answered {cfg : Config} {job : QueuedJob} {stage stage' : Stage} {f : Fate} {w w' : World}
    {l : List GeneratePc}
    (h : perform (stage.next cfg w.now job) f w = some (w', .process job stage', l))
    (hc : claimed stage' = true) : Answered w w' f job stage stage' := by
  obtain ⟨c, k, x, hk, hex, he⟩ := perform_eq_some.mp h
  have herr := errorArm_ne hc job job
  cases stage with
  | uploadImage path sha b =>
    cases hk
    rcases x with e | name
    · exact absurd he (herr _ _ _)
    · cases he
      cases f <;> simp only [exec, execComfy, reduceCtorEq, Option.some.injEq, Prod.mk.injEq,
        Except.ok.injEq, and_false] at hex
      obtain ⟨-, rfl⟩ := hex
      rfl
  | submitPrompt name client =>
    cases hk
    rcases x with e | pid
    · exact absurd he (herr _ _ _)
    · cases he
      exact submitted_name hex
  | storePromptId client pid =>
    cases hk
    rcases exec_job hex with ⟨-, rfl, rfl⟩ | ⟨e, -, rfl, -⟩
    · cases he
      rfl
    · exact absurd he (herr _ _ _)
  | getHistory client pid =>
    cases hk
    rcases x with e | entry
    · exact absurd he (herr _ _ _)
    · have hf : f = .history entry := by
        cases f <;> simp only [exec, execComfy, reduceCtorEq, Option.some.injEq, Prod.mk.injEq,
          Except.ok.injEq, and_false] at hex
        obtain ⟨-, rfl⟩ := hex
        rfl
      exact answered_history hc hf (Prod.mk.inj he).1
  | view client pid img =>
    cases hk
    rcases x with e | b
    · exact absurd he (herr _ _ _)
    · dsimp only at he
      split at he
      · exact absurd he (herr _ _ _)
      · cases he
        cases f <;> simp only [exec, execComfy, reduceCtorEq, Option.some.injEq, Prod.mk.injEq,
          Except.ok.injEq, and_false] at hex
        obtain ⟨-, rfl⟩ := hex
        rfl
  | writeOutput out b =>
    cases hk
    rcases x with e | ⟨⟩
    · exact absurd he (herr _ _ _)
    · cases he
      cases f <;> simp only [exec, execFile, reduceCtorEq, Option.some.injEq, Prod.mk.injEq,
        and_false] at hex
      rw [← hex.1]
      rfl
  | _ => cases stage' <;> trivial

theorem answered_moved {cfg : Config} {s t : State} {f : Fate} (hm : Moved cfg s t (.worker f))
    {job : QueuedJob} {stage stage' : Stage} (hs : s.worker = .process job stage)
    (ht : t.worker = .process job stage') (hc : claimed stage' = true) :
    Answered s.world t.world f job stage stage' := by
  cases hm with
  | worker h _ =>
    rw [hs, ht] at h
    exact answered h hc

theorem issues_reset {s : State} {a : Act} (h : Issues s a .resetRunningJobs) :
    s.worker = .start ∧ a = .worker .ok := by
  generalize hst : JobStmt.resetRunningJobs = st at h
  cases h with
  | reset hw => exact ⟨hw, rfl⟩
  | hide hi =>
    rename_i k _ _
    cases k <;> cases hst
  | _ => cases hst

theorem issues_requeue {s : State} {a : Act} {id : String} (h : Issues s a (.requeue id)) :
    ∃ job, s.worker = .process job .requeue ∧ job.id = id ∧ a = .worker .ok := by
  generalize hst : JobStmt.requeue id = st at h
  cases h with
  | requeue hw => exact ⟨_, hw, (JobStmt.requeue.inj hst).symm, rfl⟩
  | hide hi =>
    rename_i k _ _
    cases k <;> cases hst
  | _ => cases hst

theorem issues_promptId {s : State} {a : Act} {id pid : String}
    (h : Issues s a (.updateComfyPromptId id pid)) :
    ∃ job client, s.worker = .process job (.storePromptId client pid) ∧ job.id = id ∧
      a = .worker .ok := by
  generalize hst : JobStmt.updateComfyPromptId id pid = st at h
  cases h with
  | storePromptId hw =>
    obtain ⟨rfl, rfl⟩ := JobStmt.updateComfyPromptId.inj hst
    exact ⟨_, _, hw, rfl, rfl⟩
  | hide hi =>
    rename_i k _ _
    cases k <;> cases hst
  | _ => cases hst

theorem issues_markDone {s : State} {a : Act} {now : Int} {id : String} {out : DataPath}
    {w h : Option Int} (hst : Issues s a (.markDone now id out w h)) :
    ∃ job, s.worker = .process job (.markDone out w h) ∧ job.id = id ∧ a = .worker .ok := by
  generalize he : JobStmt.markDone now id out w h = st at hst
  cases hst with
  | markDone hw =>
    obtain ⟨-, rfl, rfl, rfl, rfl⟩ := JobStmt.markDone.inj he
    exact ⟨_, hw, rfl, rfl⟩
  | hide hi =>
    rename_i k _ _
    cases k <;> cases he
  | _ => cases he

/-- Three statements write the prompt id. -/
theorem stmt_promptId {st : JobStmt} {r : JobRow} (hreset : st ≠ .resetRunningJobs)
    (hrequeue : st ≠ .requeue r.id) (hstore : ∀ pid, st ≠ .updateComfyPromptId r.id pid) :
    (st.update.row r).comfyPromptId = r.comfyPromptId := by
  refine row_cases (P := fun r' => r'.comfyPromptId = r.comfyPromptId) _ r (fun hc => ?_) rfl
  cases st with
  | resetRunningJobs => exact absurd rfl hreset
  | requeue id =>
    simp only [JobStmt.update, requeue, decide_eq_true_eq] at hc
    exact absurd (by rw [hc.1]) hrequeue
  | updateComfyPromptId id pid =>
    simp only [JobStmt.update, updateComfyPromptId, decide_eq_true_eq] at hc
    exact absurd (by rw [hc]) (hstore pid)
  | setDerivedPath col id rel => cases col <;> rfl
  | _ => rfl

/-- Only a completion makes a row done. -/
theorem stmt_done {st : JobStmt} {r : JobRow} (h : (st.update.row r).status = .done) :
    r.status = .done ∨ r.status = .running ∧ ∃ now out w ht, st = .markDone now r.id out w ht ∧
      (st.update.row r).outputPath = some out := by
  revert h
  refine row_cases (P := fun r' => r'.status = .done → _) _ r (fun hc h => ?_) .inl
  cases st with
  | markDone now id out w ht =>
    have hc' := hc
    simp only [JobStmt.update, markDone, decide_eq_true_eq] at hc'
    refine .inr ⟨hc'.2, now, out, w, ht, by rw [hc'.1], ?_⟩
    rw [Update.row_of_cond _ hc]
    rfl
  | updateComfyPromptId id c | writeProgress id p | deleteJob now id | restoreJob id => exact .inl h
  | setDerivedPath col id rel =>
    simp only [JobStmt.update, setDerivedPath] at h
    cases col <;> exact .inl h
  | _ => cases h

theorem HasOnly.step {cfg : Config} {s t : State} {a : Act} (hfiled : Filed s) (hm : Moved cfg s t a)
    {out : DataPath} (hsub : out.sub = .outputs) {b : Bytes}
    (hw : ∀ job b', a = .worker .ok → s.worker ≠ .process job (.writeOutput out b'))
    (h : HasOnly s.world out b) : HasOnly t.world out b := by
  have removed : ∀ p, t.world.files = s.world.files.put p none → HasOnly t.world out b := by
    intro p he b' hb'
    by_cases hp : out = p
    · rw [he, hp, Files.put_same] at hb'
      cases hb'
    · rw [he, Files.put_other _ _ _ _ hp] at hb'
      exact h b' hb'
  cases FileWrites.file_step hm with
  | same he =>
    intro b' hb'
    exact h b' (he ▸ hb')
  | wrote hwr he =>
    rename_i p b'
    have hp : out ≠ p := by
      rintro rfl
      obtain ⟨job, ha, hpc⟩ := hwr.of_output hfiled hsub
      exact hw job b' ha hpc
    intro b'' hb''
    rw [he, Files.put_other _ _ _ _ hp] at hb''
    exact h b'' hb''
  | purged hi hp he => exact removed _ he
  | vanished he => exact removed _ he

/-- What the worker knows stays true while others move, and while it moves on itself. -/
theorem Knows.mono {s t : State} {job : QueuedJob} {a : Attempt} {stage : Stage}
    (hid : (∀ client pid, stage ≠ .storePromptId client pid) → StoredId s job a → StoredId t job a)
    (hended : a.promptId ∈ s.world.comfy.ended → a.promptId ∈ t.world.comfy.ended)
    (hfile : (∀ out b, stage ≠ .writeOutput out b) → ∀ out, out.sub = .outputs →
      HasOnly s.world out a.result → HasOnly t.world out a.result)
    (h : Knows s job a stage) : Knows t job a stage := by
  cases stage with
  | spawnWriter client pid | awaitCompletion client pid | interrupt client pid =>
    exact ⟨h.1, hid (by simp) h.2⟩
  | joinWriter client pid r => exact ⟨h.1, hid (by simp) h.2.1, fun hr => hended (h.2.2 hr)⟩
  | getHistory client pid => exact ⟨h.1, hid (by simp) h.2.1, hended h.2.2⟩
  | view client pid img => exact ⟨h.1, hid (by simp) h.2.1, hended h.2.2.1, h.2.2.2⟩
  | writeOutput out b => exact ⟨h.1, h.2.1, hid (by simp) h.2.2.1, hended h.2.2.2.1, h.2.2.2.2⟩
  | readDimensions out | markDone out w ht =>
    obtain ⟨hbytes, hpath, hst, hend, hlist⟩ := h
    have hsub : out.sub = .outputs := by rw [dataPath_ok hpath]
    exact ⟨hfile (by simp) out hsub hbytes, hpath, hid (by simp) hst, hended hend, hlist⟩
  | _ => exact h

def Unfinished (s : State) (id : String) : Prop := OnRow s id fun r => r.status ≠ .done

structure Traced (cfg : Config) (past : List (State × Act)) (s : State) : Prop where
  inv : Inv s
  addressed : Addressed cfg s
  fetched : FetchedOk s
  worker : ∀ job stage, s.worker = .process job stage → claimed stage = true →
    Unfinished s job.id ∧ ∃ a, Underway cfg (trail past) s job stage a
  done : ∀ r ∈ s.world.db.jobs.rows, r.status = .done →
    ∃ a out, Finished cfg (trail past) s.world r a out

theorem claimed_first {cfg : Config} {s t : State} {a : Act} (hm : Moved cfg s t a)
    {job job' : QueuedJob} (hs : s.worker = .claim job') {stage : Stage}
    (ht : t.worker = .process job stage) (hc : claimed stage = true) :
    stage = .notifyRunning ∨ s.worker = .process job stage := by
  rcases worker_cases hm with ⟨f, l, -, hw, -⟩ | ⟨hw, -, -⟩ | ⟨-, rfl⟩
  · rw [hs, ht] at hw
    cases hw with
    | won _ _ => exact .inl rfl
    | claimFails _ he => cases he <;> cases hc
    | free h _ => cases h
  · exact .inr (hw ▸ ht)
  · cases ht

/-- The row of the job in hand is not done, whoever moves. -/
theorem unfinished_step {cfg : Config} {past : List (State × Act)} {s t : State} {a : Act}
    (h : Traced cfg past s) (hm : Moved cfg s t a) {job : QueuedJob} {stage : Stage}
    (ht : t.worker = .process job stage) (hc : claimed stage = true) : Unfinished t job.id := by
  have stays : ∀ stage', s.worker = .process job stage' → claimed stage' = true →
      (∀ out w ht, stage' = .markDone out w ht → a ≠ .worker .ok) → Unfinished t job.id := by
    intro stage' hs hc' hne
    have hset := (h.inv.process job stage' hs hc').1
    refine (h.worker job stage' hs hc').1.step hm hset fun st r hst _ hr hd => ?_
    rcases stmt_done hd with hd | ⟨-, now, out, w, ht', rfl, -⟩
    · exact hr hd
    · obtain ⟨job', hs', -, ha⟩ := issues_markDone hst
      rw [hs] at hs'
      cases hs'
      exact hne out w ht' rfl ha
  rcases stage_origin hm ht hc with ⟨hn, hran, -⟩ | ⟨f, stage', -, hs, hg⟩ | ⟨hs, hne⟩
  · exact (claim_won hn hran).mono fun r hr => by simp [hr]
  · refine stays stage' hs hg.claimed.1 fun out w ht' he => ?_
    subst he
    cases hg
  · exact stays stage hs hc fun _ _ _ _ => hne .ok

theorem storedId_step {cfg : Config} {past : List (State × Act)} {s t : State} {a : Act}
    (h : Traced cfg past s) (hm : Moved cfg s t a) {job : QueuedJob} {stage : Stage}
    (hs : s.worker = .process job stage) (hc : claimed stage = true)
    (hne : ∀ client pid, stage ≠ .storePromptId client pid) {att : Attempt}
    (hid : StoredId s job att) : StoredId t job att := by
  refine hid.step hm (h.inv.process job stage hs hc).1 fun st r hst hr he => ?_
  refine (stmt_promptId (fun he => ?_) (fun he => ?_) fun pid he => ?_).trans he
  · subst he
    rw [(issues_reset hst).1] at hs
    cases hs
  · subst he
    obtain ⟨job', hs', -⟩ := issues_requeue hst
    rw [hs'] at hs
    cases hs
    cases hc
  · subst he
    obtain ⟨job', client, hs', -, -⟩ := issues_promptId hst
    rw [hs'] at hs
    cases hs
    exact hne client pid rfl

/-- What the worker knows at its stage still holds after the step. -/
theorem knows_step {cfg : Config} {past : List (State × Act)} {s t : State} {a : Act}
    (h : Traced cfg past s) (hm : Moved cfg s t a) {job : QueuedJob} {stage : Stage}
    (hs : s.worker = .process job stage) (hc : claimed stage = true) {att : Attempt}
    (hk : Knows s job att stage) : Knows t job att stage := by
  refine hk.mono (fun hne => storedId_step h hm hs hc hne) (ended_mono hm) fun hne out hsub => ?_
  refine HasOnly.step h.addressed.filed hm hsub fun job' b' _ hs' => ?_
  rw [hs] at hs'
  cases hs'
  exact hne out b' rfl

theorem storedId_stored {s t : State} {job : QueuedJob} {att : Attempt}
    (h : t.world.db.jobs = s.world.db.jobs.update (updateComfyPromptId job.id att.promptId)) :
    StoredId t job att := by
  intro r hr
  unfold row? at hr
  rw [h, Table.find?_update] at hr
  obtain ⟨r₀, hr₀, rfl⟩ := Option.map_eq_some_iff.mp hr
  have hcond : (updateComfyPromptId job.id att.promptId).cond r₀ = true :=
    decide_eq_true (Table.find?_key hr₀)
  rw [Update.row_of_cond _ hcond]
  rfl

/-- From one stage to the next, with what the answer has brought. -/
theorem underway_next {cfg : Config} {past : List (State × Act)} {s t : State} {f : Fate}
    (h : Traced cfg past s) (hm : Moved cfg s t (.worker f)) {job : QueuedJob} {stage stage' : Stage}
    (hs : s.worker = .process job stage) (ht : t.worker = .process job stage')
    (hg : GoesOn s.world t.world f job stage stage') :
    ∃ a, Underway cfg (trail (past ++ [(s, .worker f)])) t job stage' a := by
  obtain ⟨hc, hc'⟩ := hg.claimed
  have hans := answered_moved hm hs ht hc'
  obtain ⟨-, a, hevents, himage, hknows⟩ := h.worker job stage hs hc
  have hrow : 1 ≤ behind stage → RowIs (cfg.sha256Hex a.image) t.world job.inputId :=
    fun hb => (himage hb).step hm
  have hknows' := knows_step h hm hs hc hknows
  have hkept : event (s, .worker f) = none →
      (a.events job).take (behind stage) <:+ trail (past ++ [(s, .worker f)]) := fun he => by
    rw [trail_quiet he]
    exact hevents
  -- the stages that bring nothing keep the attempt, the others fill in one field of it
  cases hg with
  | notified | selected | read => exact ⟨a, hkept (by simp [event, hs]), hrow, trivial⟩
  | uploaded =>
    rename_i path sha name b
    have hholds := h.addressed.worker
    rw [hs] at hholds
    refine ⟨{ a with image := b, name := name }, ?_, fun _ => ?_, rfl⟩
    · have he : event (s, .worker f) = some (.uploaded b name) := by
        simp only [event, hs, show f = .name name from hans]
      exact trail_next List.nil_suffix he
    · dsimp only
      rw [hholds.1]
      exact hholds.2.step hm
  | drew | connected => exact ⟨a, hkept (by simp [event, hs]), hrow, hknows'⟩
  | submitted hf =>
    rename_i name client pid
    obtain rfl : name = a.name := hknows
    refine ⟨{ a with promptId := pid }, ?_, fun _ => hrow le_rfl, rfl⟩
    have he : event (s, .worker f) = some (.submitted ⟨job.workflow, job.promptText, a.name, job.id,
        job.seed⟩ pid) := by
      simp only [event, hs, hf]
    exact trail_next hevents he
  | storedId =>
    obtain rfl := hknows'
    exact ⟨a, hkept (by simp [event, hs]), hrow, rfl, storedId_stored hans⟩
  | spawned | waits => exact ⟨a, hkept (by simp [event, hs]), hrow, hknows'⟩
  | ended hr =>
    refine ⟨a, hkept (by simp [event, hs]), hrow, hknows'.1, hknows'.2, fun he => ended_mono hm ?_⟩
    rw [← hknows'.1]
    exact hr he
  | timedOut => exact ⟨a, hkept (by simp [event, hs]), hrow, hknows'.1, hknows'.2.1⟩
  | completed =>
    exact ⟨a, hkept (by simp [event, hs]), hrow, hknows'.1, hknows'.2.1, hknows'.2.2 rfl⟩
  | matched _ =>
    rename_i client pid img _
    obtain ⟨entry, hf, hsucc, himg⟩ := hans
    obtain ⟨rfl, hid, hend⟩ := hknows'
    refine ⟨{ a with entry := entry, img := img }, ?_, fun _ => hrow (by simp [behind]), rfl, hid, hend, hsucc, himg⟩
    have he : event (s, .worker f) = some (.listed a.promptId entry) := by
      simp only [event, hs, hf]
    exact trail_next hevents he
  | viewed hout =>
    rename_i client pid img out b
    obtain ⟨rfl, hid, hend, hlist⟩ := hknows'
    refine ⟨{ a with result := b }, ?_, fun _ => hrow (by simp [behind]), rfl, hout, hid, hend, hlist⟩
    have he : event (s, .worker f) = some (.served a.img b) := by
      simp only [event, hs, show f = .body b from hans]
    exact trail_next hevents he
  | wrote _ =>
    rename_i out b
    obtain ⟨rfl, hout, hrest⟩ := hknows'
    refine ⟨a, hkept (by simp [event, hs]), hrow, fun b' hb' => ?_, hout, hrest⟩
    rw [show t.world.files = _ from hans, Files.put_same] at hb'
    exact (Option.some.inj hb').symm
  | measured => exact ⟨a, hkept (by simp [event, hs]), hrow, hknows'⟩

def Attempt.blank : Attempt := ⟨[], "", "", ⟨false, none, []⟩, ⟨"", "", ""⟩, []⟩

theorem underway_step {cfg : Config} {past : List (State × Act)} {s t : State} {a : Act}
    (h : Traced cfg past s) (hm : Moved cfg s t a) {job : QueuedJob} {stage : Stage}
    (ht : t.worker = .process job stage) (hc : claimed stage = true) :
    ∃ att, Underway cfg (trail (past ++ [(s, a)])) t job stage att := by
  have stays : s.worker = .process job stage → (∀ f, a ≠ .worker f) →
      ∃ att, Underway cfg (trail (past ++ [(s, a)])) t job stage att := by
    intro hs hne
    obtain ⟨-, att, hatt⟩ := h.worker job stage hs hc
    refine ⟨att, ?_, fun hb => (hatt.image hb).step hm, knows_step h hm hs hc hatt.knows⟩
    have he : event (s, a) = none := by
      cases a with
      | worker f => exact absurd rfl (hne f)
      | _ => rfl
    rw [trail_quiet he]
    exact hatt.events
  rcases stage_origin hm ht hc with ⟨-, -, hs⟩ | ⟨f, stage', rfl, hs, hg⟩ | ⟨hs, hne⟩
  · rcases claimed_first hm hs ht hc with rfl | hs'
    · exact ⟨.blank, List.nil_suffix, fun hb => absurd hb (by simp [behind]), trivial⟩
    · rw [hs] at hs'
      cases hs'
  · exact underway_next h hm hs ht hg
  · exact stays hs hne

/-- The worker is in the middle of no attempt at the job. -/
def Elsewhere (s : State) (id : String) : Prop :=
  ∀ job stage, s.worker = .process job stage → claimed stage = true → job.id ≠ id

theorem Traced.elsewhere {cfg : Config} {past : List (State × Act)} {s : State}
    (h : Traced cfg past s) {r : JobRow} (hr : r ∈ s.world.db.jobs.rows) (hdone : r.status = .done) :
    Elsewhere s r.id := fun job stage hs hc hid =>
  (h.worker job stage hs hc).1 r (by rw [hid]; exact mem_row hr) hdone

/-- A write to the output of a job is the worker's, in the middle of an attempt at it. -/
theorem writing_output {s : State} (hinv : Inv s) (hfiled : Filed s) {id : String} (hid : isUuid id)
    {out : DataPath} (hout : IsOutput id out) (hidle : Elsewhere s id) (job : QueuedJob) (b : Bytes) :
    s.worker ≠ .process job (.writeOutput out b) := by
  intro hs
  have hwriting := hfiled.worker
  rw [hs] at hwriting
  have hset := (hinv.process job _ hs rfl).1
  exact hidle job _ hs rfl (hwriting.unique (hinv.ids.uuid _ hset.1) hid hout)

theorem HasOnly.of_done {cfg : Config} {past : List (State × Act)} {s t : State} {a : Act}
    (h : Traced cfg past s) (hm : Moved cfg s t a) {r : JobRow} (hr : r ∈ s.world.db.jobs.rows)
    (hdone : r.status = .done) {out : DataPath} (hout : r.outputPath = some out) {b : Bytes}
    (hb : HasOnly s.world out b) : HasOnly t.world out b := by
  have hplaced : IsOutput r.id out := (h.addressed.filed.rows r hr).output out hout
  have hid := h.inv.ids.uuid _ (h.inv.ids.rows r hr).1
  exact hb.step h.addressed.filed hm hplaced.sub fun job b' _ =>
    writing_output h.inv h.addressed.filed hid hplaced (h.elsewhere hr hdone) job b'

theorem Finished.keep {cfg : Config} {past : List (State × Act)} {s t : State} {a : Act}
    (h : Traced cfg past s) (hm : Moved cfg s t a) {r r' : JobRow} (hr : r ∈ s.world.db.jobs.rows)
    (hdone : r.status = .done) (hjob : QueuedJob.of r' = .of r) (hout : r'.outputPath = r.outputPath)
    (hid : r'.comfyPromptId = r.comfyPromptId) {att : Attempt} {out : DataPath}
    (hf : Finished cfg (trail past) s.world r att out) :
    Finished cfg (trail (past ++ [(s, a)])) t.world r' att out where
  output := hout.trans hf.output
  promptId := hid.trans hf.promptId
  events := by
    rw [hjob]
    exact trail_mono hf.events _
  image := by
    rw [show r'.inputId = r.inputId from congrArg QueuedJob.inputId hjob]
    exact hf.image.step hm
  ended := ended_mono hm hf.ended
  succeeded := hf.succeeded
  primary := by
    rw [show r'.id = r.id from congrArg QueuedJob.id hjob]
    exact hf.primary
  path := hf.path
  bytes := HasOnly.of_done h hm hr hdone hf.output hf.bytes

/-- No statement touches the output or the prompt id of a job that is done. -/
theorem stmt_result {s : State} {a : Act} {st : JobStmt} (hst : Issues s a st) {r : JobRow}
    (hdone : r.status = .done) (hidle : Elsewhere s r.id) :
    (st.update.row r).outputPath = r.outputPath ∧
      (st.update.row r).comfyPromptId = r.comfyPromptId := by
  refine row_cases (P := fun r' => r'.outputPath = r.outputPath ∧
    r'.comfyPromptId = r.comfyPromptId) _ r (fun hc => ?_) ⟨rfl, rfl⟩
  cases st with
  | resetRunningJobs => exact Status.noConfusion (hdone.symm.trans (of_decide_eq_true hc))
  | requeue id | markDone now id out w ht =>
    simp only [JobStmt.update, requeue, markDone, decide_eq_true_eq] at hc
    exact Status.noConfusion (hdone.symm.trans hc.2)
  | updateComfyPromptId id pid =>
    simp only [JobStmt.update, updateComfyPromptId, decide_eq_true_eq] at hc
    obtain ⟨job, client, hs, hid, -⟩ := issues_promptId hst
    exact absurd (hid.trans hc.symm) (hidle job _ hs rfl)
  | setDerivedPath col id rel => cases col <;> exact ⟨rfl, rfl⟩
  | _ => exact ⟨rfl, rfl⟩

/-- The completion of the attempt in hand. -/
theorem finished_now {cfg : Config} {past : List (State × Act)} {s t : State} {a : Act}
    (h : Traced cfg past s) (hm : Moved cfg s t a) {now : Int} {out : DataPath} {w ht : Option Int}
    {r : JobRow} (hst : Issues s a (.markDone now r.id out w ht)) (hr : r ∈ s.world.db.jobs.rows)
    (hout : ((JobStmt.markDone now r.id out w ht).update.row r).outputPath = some out) :
    ∃ att, Finished cfg (trail (past ++ [(s, a)])) t.world
      ((JobStmt.markDone now r.id out w ht).update.row r) att out := by
  obtain ⟨job, hs, hid, -⟩ := issues_markDone hst
  have hjob : QueuedJob.of r = job :=
    (h.fetched.row job (by rw [hs]; rfl)).2 r (by rw [hid]; exact mem_row hr)
  obtain ⟨-, att, hevents, himage, hknows⟩ := h.worker job _ hs rfl
  obtain ⟨hbytes, hpath, hstored, hend, hlist⟩ := knows_step h hm hs rfl hknows
  have hof := stmt_queuedJob (.markDone now r.id out w ht) r
  have hprompt : ((JobStmt.markDone now r.id out w ht).update.row r).comfyPromptId =
      r.comfyPromptId := stmt_promptId (by simp) (by simp) (by simp)
  refine ⟨att, hout, hprompt.trans (hknows.2.2.1 r (by rw [hid]; exact mem_row hr)), ?_, ?_, hend,
    hlist.1, ?_, hpath, hbytes⟩
  · rw [hof, hjob]
    exact trail_mono hevents.isInfix _
  · rw [show ((JobStmt.markDone now r.id out w ht).update.row r).inputId = job.inputId from
      congrArg QueuedJob.inputId (hof.trans hjob)]
    exact (himage (by simp [behind])).step hm
  · rw [show ((JobStmt.markDone now r.id out w ht).update.row r).id = job.id from
      congrArg QueuedJob.id (hof.trans hjob)]
    exact hlist.2

theorem done_step {cfg : Config} {past : List (State × Act)} {s t : State} {a : Act}
    (h : Traced cfg past s) (hm : Moved cfg s t a) {r : JobRow} (hr : r ∈ t.world.db.jobs.rows)
    (hdone : r.status = .done) :
    ∃ att out, Finished cfg (trail (past ++ [(s, a)])) t.world r att out := by
  have stays : r ∈ s.world.db.jobs.rows →
      ∃ att out, Finished cfg (trail (past ++ [(s, a)])) t.world r att out := by
    intro hr
    obtain ⟨att, out, hf⟩ := h.done r hr hdone
    exact ⟨att, out, hf.keep h hm hr hdone rfl rfl rfl⟩
  cases hm.jobs with
  | same he => exact stays (he ▸ hr)
  | update hst he =>
    rename_i st
    rw [he] at hr
    obtain ⟨r₀, hr₀, rfl⟩ := Table.mem_update.mp hr
    rcases stmt_done hdone with hdone₀ | ⟨-, now, out, w, ht, rfl, hout⟩
    · obtain ⟨att, out, hf⟩ := h.done r₀ hr₀ hdone₀
      obtain ⟨hout, hid⟩ := stmt_result hst hdone₀ (h.elsewhere hr₀ hdone₀)
      exact ⟨att, out, hf.keep h hm hr₀ hdone₀ (stmt_queuedJob st r₀) hout hid⟩
    · obtain ⟨att, hf⟩ := finished_now h hm hst hr₀ hout
      exact ⟨att, out, hf⟩
  | insert ha hi hins =>
    rw [(Table.insert?_eq_some.mp hins).2] at hr
    rcases List.mem_append.mp hr with hr | hr
    · exact stays hr
    · obtain rfl := List.mem_singleton.mp hr
      cases hdone
  | delete ha hi he =>
    rw [he] at hr
    exact stays (Table.mem_delete.mp hr).1

theorem Traced.init (cfg : Config) : Traced cfg [] State.init where
  inv := Inv.init
  addressed := Addressed.init cfg
  fetched := ⟨IdsOk.init, fun _ hjob => by cases hjob⟩
  worker job stage h := by cases h
  done r h := by simp [State.init, World.empty, Db.empty, Table.empty] at h

theorem Traced.step {cfg : Config} {past : List (State × Act)} {s t : State} {a : Act}
    (h : Traced cfg past s) (hm : Moved cfg s t a) : Traced cfg (past ++ [(s, a)]) t where
  inv := h.inv.step hm
  addressed := h.addressed.step hm
  fetched := h.fetched.step hm
  worker _ _ ht hc := ⟨unfinished_step h hm ht hc, underway_step h hm ht hc⟩
  done _ hr hdone := done_step h hm hr hdone

theorem run_traced {cfg : Config} {as : List Act} {s : State}
    (h : run cfg as State.init = some s) : Traced cfg (Runs.visits (step cfg) as State.init) s := by
  have hend := Runs.history_invariant (I := Traced cfg)
    (fun past u a v hu hs => hu.step (step_moved hs)) h (Traced.init cfg)
  simpa using hend

/-- In every run: a job that is done has been through one attempt in which ComfyUI
stored an image with the hash of the job's input, accepted the job's own workflow,
text and seed for it, ended that prompt and reported it a success, and served the
first image named after the job. The row has the prompt's id, and its output file,
as long as it is there, holds those bytes. -/
theorem result_provenance {cfg : Config} {as : List Act} {s : State}
    (h : run cfg as State.init = some s) : ∀ r ∈ s.world.db.jobs.rows, r.status = .done →
      ∃ a out, Finished cfg (trail (Runs.visits (step cfg) as State.init)) s.world r a out :=
  (run_traced h).done

theorem result_provenance_done : ∃ s r a out, run sampleConfig doneRun State.init = some s ∧
    r ∈ s.world.db.jobs.rows ∧ s.world.files out = some [1, 2, 3] ∧ a.result = [1, 2, 3] ∧
    Finished sampleConfig (trail (Runs.visits (step sampleConfig) doneRun State.init)) s.world r a
      out := by
  have hrun : ((run sampleConfig doneRun State.init).bind fun s => (row? s jobA).bind fun r =>
      r.outputPath.map fun out => (r.status, s.world.files out)) = some (.done, some [1, 2, 3]) := by
    simp only [doneRun, List.append_assoc, run_first]
    decide +kernel
  obtain ⟨s, hs, h⟩ := Option.bind_eq_some_iff.mp hrun
  obtain ⟨r, hr, h⟩ := Option.bind_eq_some_iff.mp h
  obtain ⟨out, hout, h⟩ := Option.map_eq_some_iff.mp h
  obtain ⟨hdone, hfile⟩ := Prod.mk.inj h
  have hmem := (row_mem hr).1
  obtain ⟨a, out', hf⟩ := result_provenance hs r hmem hdone
  obtain rfl := Option.some.inj (hf.output.symm.trans hout)
  exact ⟨s, r, a, out', hs, hmem, hfile, (hf.bytes _ hfile).symm, hf⟩

/-- The job is done, and its output file holds what it held or is gone. -/
structure Final (id : String) (r : JobRow) (out : DataPath) (x : Option Bytes) (s : State) : Prop where
  inv : Inv s
  filed : Filed s
  settled : Settled s id
  row : OnRow s id fun r' => r'.status = .done ∧ r'.outputPath = r.outputPath ∧
    r'.comfyPromptId = r.comfyPromptId
  idle : Elsewhere s id
  file : s.world.files out = x ∨ s.world.files out = none

theorem elsewhere_step {cfg : Config} {s t : State} {a : Act} (hm : Moved cfg s t a) {id : String}
    (hrow : OnRow s id fun r => r.status = .done) (h : Elsewhere s id) : Elsewhere t id := by
  intro job stage ht hc hid
  rcases stage_origin hm ht hc with ⟨hn, -, -⟩ | ⟨f, stage', -, hs, hg⟩ | ⟨hs, -⟩
  · obtain ⟨r, hr, hcond⟩ := (JobStmt.affected_eq_one rfl).mp hn
    simp only [JobStmt.update, markRunning, decide_eq_true_eq] at hcond
    have hdone : r.status = .done := hrow r (hid ▸ hr)
    exact Status.noConfusion (hdone.symm.trans hcond.2.1)
  · exact h job stage' hs hg.claimed.1 hid
  · exact h job stage hs hc hid

theorem Final.step {cfg : Config} {id : String} {r : JobRow} {out : DataPath} {x : Option Bytes}
    {s t : State} {a : Act} (hout : IsOutput id out) (h : Final id r out x s) (hm : Moved cfg s t a) :
    Final id r out x t where
  inv := h.inv.step hm
  filed := h.filed.step hm
  settled := h.settled.step hm
  row := h.row.step hm h.settled fun st q hst hq ⟨hdone, hpath, hpid⟩ => by
    have hid : q.id = id := Table.find?_key hq
    obtain ⟨hpath', hpid'⟩ := stmt_result hst hdone (hid ▸ h.idle)
    exact ⟨done_stmt st hdone, hpath'.trans hpath, hpid'.trans hpid⟩
  idle := elsewhere_step hm (h.row.mono fun _ hq => hq.1) h.idle
  file := by
    have removed : ∀ p, t.world.files = s.world.files.put p none →
        t.world.files out = x ∨ t.world.files out = none := by
      intro p he
      rw [he]
      by_cases hp : out = p
      · exact .inr (by rw [hp, Files.put_same])
      · rw [Files.put_other _ _ _ _ hp]
        exact h.file
    cases FileWrites.file_step hm with
    | same he => exact he ▸ h.file
    | wrote hw he =>
      rename_i p b
      have hp : out ≠ p := by
        rintro rfl
        obtain ⟨job, -, hs⟩ := hw.of_output h.filed hout.sub
        exact writing_output h.inv h.filed (h.inv.ids.uuid _ h.settled.1) hout h.idle job b hs
      rw [he, Files.put_other _ _ _ _ hp]
      exact h.file
    | purged hi hp he => exact removed _ he
    | vanished he => exact removed _ he

/-- From any reachable state, however the run goes on: while the row of a job that
was done is there it has the same output and prompt id, and the output file has
the bytes it had or is gone; it is never written again, not even once the row is
purged. -/
theorem result_immutable {cfg : Config} {s t : State} {as : List Act} (hs : Reachable cfg s)
    {id : String} {r : JobRow} {out : DataPath} (hr : row? s id = some r) (hdone : r.status = .done)
    (hout : r.outputPath = some out) (h : run cfg as s = some t) :
    (OnRow t id fun r' => r'.status = .done ∧ r'.outputPath = some out ∧
      r'.comfyPromptId = r.comfyPromptId) ∧
    (t.world.files out = s.world.files out ∨ t.world.files out = none) := by
  obtain ⟨hmem, rfl⟩ := row_mem hr
  have hinv := reachable_inv hs
  have hplaced : IsOutput r.id out := ((reachable_filed hs).rows r hmem).output out hout
  have hstart : Final r.id r out (s.world.files out) s := by
    obtain ⟨as₀, h₀⟩ := hs
    refine ⟨hinv, reachable_filed ⟨as₀, h₀⟩, hinv.ids.settled hr, fun r' hr' => ?_,
      (run_traced h₀).elsewhere hmem hdone, .inl rfl⟩
    obtain rfl := Option.some.inj (hr.symm.trans hr')
    exact ⟨hdone, rfl, rfl⟩
  have hend : Final r.id r out (s.world.files out) t :=
    Runs.invariant (I := Final r.id r out (s.world.files out))
      (fun u a v hu hstep => hu.step hplaced (step_moved hstep)) h hstart
  exact ⟨hend.row.mono fun r' hr' => ⟨hr'.1, hr'.2.1.trans hout, hr'.2.2⟩, hend.file⟩

/-- The output of the finished job is removed by hand, and the server starts again. -/
theorem result_immutable_purged : ∃ s t r out, run sampleConfig doneRun State.init = some s ∧
    row? s jobA = some r ∧ r.outputPath = some out ∧ s.world.files out = some [1, 2, 3] ∧
    run sampleConfig [.env (.vanish out), .crash] s = some t ∧ t.world.files out = none ∧
    (t.world.files out = s.world.files out ∨ t.world.files out = none) := by
  have hrun : ((run sampleConfig doneRun State.init).bind fun s => (row? s jobA).bind fun r =>
      r.outputPath.map fun out => (r.status, s.world.files out)) = some (.done, some [1, 2, 3]) := by
    simp only [doneRun, List.append_assoc, run_first]
    decide +kernel
  obtain ⟨s, hs, h⟩ := Option.bind_eq_some_iff.mp hrun
  obtain ⟨r, hr, h⟩ := Option.bind_eq_some_iff.mp h
  obtain ⟨out, hout, h⟩ := Option.map_eq_some_iff.mp h
  obtain ⟨hdone, hfile⟩ := Prod.mk.inj h
  obtain ⟨t, ht⟩ : ∃ t, run sampleConfig [.env (.vanish out), .crash] s = some t := ⟨_, rfl⟩
  have hgone : t.world.files out = none := by
    obtain rfl := Option.some.inj ht
    exact Files.put_same _ _ _
  exact ⟨s, t, r, out, hs, hr, hout, hfile, ht, hgone,
    (result_immutable ⟨_, hs⟩ hr hdone hout ht).2⟩

end ZunServer.Provenance
