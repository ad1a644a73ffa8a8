import Mathlib.Algebra.Order.Field.Rat

/-!
# The ComfyUI backend

ComfyUI runs submitted prompts one at a time in the order of submission.
`/interrupt` stops whatever prompt is executing when it arrives and does
nothing when none is. A prompt whose terminal event has happened (completed,
failed or stopped) is in `ended`.
-/
namespace ZunServer.Comfy

/-- What `build_edit_workflow` puts into a template. -/
structure EditWorkflow where
  template : String
  promptText : String
  inputImage : String
  jobId : String
  seed : Int
  deriving DecidableEq, Repr

/-- A prompt ComfyUI has accepted. `workflow` is `none` for one that no job of
this server asked for: the warm-up, or another user of the same ComfyUI. -/
structure Prompt where
  promptId : String
  clientId : String
  workflow : Option EditWorkflow
  deriving DecidableEq, Repr

def Prompt.job (p : Prompt) : Option String := p.workflow.map EditWorkflow.jobId

structure Backend where
  executing : Option Prompt
  pending : List Prompt
  ended : List String
  deriving DecidableEq, Repr

namespace Backend

def idle : Backend := ⟨none, [], []⟩

/-- The prompts that are executing or waiting to. -/
def unfinished (b : Backend) : List Prompt := b.executing.toList ++ b.pending

/-- Every prompt id ComfyUI has handed out. -/
def known (b : Backend) : List String := b.unfinished.map Prompt.promptId ++ b.ended

/-- Accept a prompt under a new id. -/
def accept (b : Backend) (p : Prompt) : Option Backend :=
  if p.promptId ∈ b.known then none else some { b with pending := b.pending ++ [p] }

/-- The executing prompt stops, whether it is done, failed or interrupted. -/
def stop (b : Backend) : Backend :=
  match b.executing with
  | some p => { b with executing := none, ended := p.promptId :: b.ended }
  | none => b

inductive Event where
  | start
  | finish
  | foreign (p : Prompt)
  deriving DecidableEq, Repr

/-- What ComfyUI does on its own. -/
def step (b : Backend) : Event → Option Backend
  | .start => match b.executing, b.pending with
    | none, p :: ps => some { b with executing := some p, pending := ps }
    | _, _ => none
  | .finish => if b.executing.isSome then some b.stop else none
  | .foreign p => if p.workflow = none then b.accept p else none

theorem accept_eq_some {b b' : Backend} {p : Prompt} :
    b.accept p = some b' ↔ p.promptId ∉ b.known ∧ b' = { b with pending := b.pending ++ [p] } := by
  unfold accept
  split <;> simp_all [eq_comm]

theorem mem_unfinished_accept {b b' : Backend} {p q : Prompt} (h : b.accept p = some b') :
    q ∈ b'.unfinished ↔ q ∈ b.unfinished ∨ q = p := by
  obtain ⟨_, rfl⟩ := accept_eq_some.mp h
  simp [unfinished, or_assoc]

theorem unfinished_stop (b : Backend) : ∀ p ∈ b.stop.unfinished, p ∈ b.unfinished := by
  intro p hp
  unfold stop at hp
  split at hp
  · simp only [unfinished, Option.toList_none, List.nil_append] at hp
    exact List.mem_append_right _ hp
  · exact hp

theorem ended_stop (b : Backend) {pid : String} (h : pid ∈ b.ended) : pid ∈ b.stop.ended := by
  unfold stop
  split
  · exact List.mem_cons_of_mem _ h
  · exact h

theorem ended_step {b b' : Backend} {e : Event} (h : b.step e = some b') {pid : String}
    (hp : pid ∈ b.ended) : pid ∈ b'.ended := by
  cases e with
  | start =>
    simp only [step] at h
    split at h
    · obtain rfl := Option.some.inj h
      exact hp
    · cases h
  | finish =>
    simp only [step] at h
    split at h
    · obtain rfl := Option.some.inj h
      exact b.ended_stop hp
    · cases h
  | foreign q =>
    simp only [step] at h
    split at h
    · obtain ⟨-, rfl⟩ := accept_eq_some.mp h
      exact hp
    · cases h

/-- Left alone, ComfyUI takes up no prompt of a job. -/
theorem unfinished_step {b b' : Backend} {e : Event} (h : b.step e = some b') :
    ∀ p ∈ b'.unfinished, p ∈ b.unfinished ∨ p.workflow = none := by
  intro p hp
  cases e with
  | start =>
    simp only [step] at h
    split at h
    · rename_i q qs he hq
      obtain rfl := Option.some.inj h
      left
      simpa [unfinished, he, hq] using hp
    · cases h
  | finish =>
    simp only [step] at h
    split at h
    · obtain rfl := Option.some.inj h
      exact Or.inl (b.unfinished_stop p hp)
    · cases h
  | foreign q =>
    simp only [step] at h
    split at h
    · rename_i hq
      rcases (mem_unfinished_accept h).mp hp with hp | rfl
      · exact Or.inl hp
      · exact Or.inr hq
    · cases h

end Backend

structure HistoryImage where
  filename : String
  subfolder : String
  type : String
  deriving DecidableEq, Repr

/-- `HistoryEntry`; the outputs stand in the order the `HashMap` is walked. -/
structure HistoryEntry where
  completed : Bool
  statusStr : Option String
  outputs : List (String × List HistoryImage)
  deriving DecidableEq, Repr

def HistoryEntry.succeeded (e : HistoryEntry) : Bool := e.statusStr = some "success"

/-- The first image whose file name starts with the prefix of the job. -/
def HistoryEntry.primaryOutput (e : HistoryEntry) (filenamePrefix : String) : Option HistoryImage :=
  (e.outputs.flatMap Prod.snd).find? (fun img => filenamePrefix.toList.isPrefixOf img.filename.toList)

theorem HistoryEntry.primaryOutput_prefix {e : HistoryEntry} {pre : String} {img : HistoryImage}
    (h : e.primaryOutput pre = some img) : pre.toList <+: img.filename.toList := by
  have := List.find?_some h
  simpa using this

/-- One turn of the loop of `await_completion`, seen from the given prompt. -/
inductive Frame where
  | progress (value max : ℚ)
  | executingNull
  | executionError (details : String)
  | other
  | close
  | transportError (e : String)
  | streamEnd
  deriving DecidableEq, Repr

/-- The fraction a progress frame forwards, as an exact number: `(value / max).clamp(0.0, 1.0)`. -/
def progressFraction (value max : ℚ) : Option ℚ :=
  if max > 0 then some (Max.max 0 (Min.min 1 (value / max))) else none

theorem progressFraction_bounds {value max q : ℚ} (h : progressFraction value max = some q) :
    0 ≤ q ∧ q ≤ 1 := by
  unfold progressFraction at h
  split at h
  · obtain rfl := Option.some.inj h
    exact ⟨le_max_left _ _, max_le (by decide) (min_le_left _ _)⟩
  · cases h

end ZunServer.Comfy
