import Mathlib.Data.List.TakeWhile
import ZunServer.Calls
import ZunServer.EventLoop
import ZunServer.Serde

/-!
# `await_completion`

ComfyUI sends the frames of every prompt over the WebSocket. The loop waits for
the end of one prompt and forwards the fractions of its progress frames, rounded
as the machine rounds them. The server model hands the worker one `Frame` at a
time and keeps the fraction exact; here is what a frame is read from, and that a
step of the server agrees with the loop on it but for the rounding.
-/
namespace ZunServer.Completion

open Serde BinaryFloat
open Schema Comfy Calls

/-- A WebSocket message. -/
inductive Message where
  | text (t : String)
  | binary (b : Bytes)
  | ping (b : Bytes)
  | pong (b : Bytes)
  | close
  | frame (b : Bytes)

/-- What `ws.next()` comes back with: `none` at the end of the stream, or a message, or
the text of a transport error. -/
abbrev Next := Option (Except String Message)

/-- `serde_json::from_str::<Value>`, and the text of a value. -/
structure Parser where
  fromStr : String → Option Json
  toText : Json → String

/-- `(value / max).clamp(0.0, 1.0) as f32`, for a positive `max`. -/
def forwarded (value max : ℚ) : Option ℚ :=
  if max > 0 then some (f32.round (Max.max 0 (Min.min 1 (f64.round (value / max))))) else none

/-- A fraction as it is sent: divided in an `f64` and cast to an `f32`. -/
def toF32 (q : ℚ) : ℚ := f32.round (f64.round q)

theorem forwarded_eq (value max : ℚ) :
    forwarded value max = (progressFraction value max).map toF32 := by
  unfold forwarded progressFraction toF32
  split
  · rw [Format.clamp_round]
    rfl
  · rfl

/-- What is sent of a fraction is one, and is not far from it. -/
theorem toF32_near {q : ℚ} (h₀ : 0 ≤ q) (h₁ : q ≤ 1) :
    0 ≤ toF32 q ∧ toF32 q ≤ 1 ∧ |toF32 q - q| ≤ 1 / 2 ^ 23 := by
  have hnonneg := Format.round_nonneg (F := f64) h₀
  have hle := Format.round_le_one (F := f64) h₀ h₁
  refine ⟨Format.round_nonneg hnonneg, Format.round_le_one hnonneg hle, ?_⟩
  have hcast : |toF32 q - f64.round q| ≤ 1 / 2 ^ 24 := Format.abs_round_sub_le hnonneg hle
  have hdiv : |f64.round q - q| ≤ 1 / 2 ^ 53 := Format.abs_round_sub_le h₀ h₁
  calc |toF32 q - q| ≤ |toF32 q - f64.round q| + |f64.round q - q| := abs_sub_le _ _ _
    _ ≤ 1 / 2 ^ 24 + 1 / 2 ^ 53 := add_le_add hcast hdiv
    _ ≤ 1 / 2 ^ 23 := by norm_num

def executionError (details : String) : String := s!"comfyui execution_error: {details}"

/-- `await_completion`, with a sender or without: the result, if there is one yet, and what has
been sent. -/
def awaitCompletion (parser : Parser) (promptId : String) (progress : Bool) :
    List Next → Option (Except String Unit) × List ℚ
  | [] => (none, [])
  | none :: _ => (some (.error "comfy ws stream ended before completion"), [])
  | some (.error e) :: _ => (some (.error s!"comfy ws error: {e}"), [])
  | some (.ok msg) :: rest => match msg with
    | .text t => match parser.fromStr t with
      | none => awaitCompletion parser promptId progress rest
      | some v =>
        if ((v.get "data").get "prompt_id").asStr ≠ some promptId then
          awaitCompletion parser promptId progress rest
        else if (v.get "type").asStr = some "executing" ∧ ((v.get "data").get "node").isNull then
          (some (.ok ()), [])
        else if (v.get "type").asStr = some "progress" then
          match progress, ((v.get "data").get "value").asF64, ((v.get "data").get "max").asF64 with
          | true, some value, some max => match forwarded value max with
            | some p =>
              let later := awaitCompletion parser promptId progress rest
              (later.1, p :: later.2)
            | none => awaitCompletion parser promptId progress rest
          | _, _, _ => awaitCompletion parser promptId progress rest
        else if (v.get "type").asStr = some "execution_error" then
          (some (.error (executionError (parser.toText (v.get "data")))), [])
        else awaitCompletion parser promptId progress rest
    | .close => (some (.error "comfy ws closed before completion"), [])
    | _ => awaitCompletion parser promptId progress rest

section

variable (parser : Parser) (promptId : String)

/-- The value of a text frame of this prompt. -/
def frameOf : Next → Option Json
  | some (.ok (.text t)) =>
    (parser.fromStr t).filter fun v => ((v.get "data").get "prompt_id").asStr = some promptId
  | _ => none

/-- An `executing` frame of this prompt whose node is null or absent. -/
def Completes (x : Next) : Prop :=
  ∃ v ∈ frameOf parser promptId x,
    (v.get "type").asStr = some "executing" ∧ ((v.get "data").get "node").isNull = true

/-- The stream closes or fails or ends here. -/
def Breaks : Next → Prop
  | none | some (.error _) | some (.ok .close) => True
  | _ => False

/-- An `execution_error` frame of this prompt. -/
def Errs (x : Next) : Prop :=
  ∃ v ∈ frameOf parser promptId x, (v.get "type").asStr = some "execution_error"

/-- The fraction of a progress frame of this prompt with a numeric value and a positive maximum. -/
def fraction (x : Next) : Option ℚ :=
  (frameOf parser promptId x).bind fun v =>
    if (v.get "type").asStr = some "progress" then
      ((v.get "data").get "value").asF64.bind fun value =>
        ((v.get "data").get "max").asF64.bind fun max =>
          if max > 0 then some (Min.min 1 (Max.max 0 (value / max))) else none
    else none

/-- A text frame of this prompt, or where the stream closes or fails or ends. -/
def relevant : Next → Bool
  | none | some (.error _) | some (.ok .close) => true
  | x => (frameOf parser promptId x).isSome

/-- What is sent of a frame that does not end the wait. -/
def sent (progress : Bool) (x : Next) : EventLoop.Verdict (Except String Unit) ℚ :=
  match progress, fraction parser promptId x with
  | true, some p => .emit (toF32 p)
  | _, _ => .skip

@[simp] theorem sent_result (progress : Bool) (x : Next) :
    (sent parser promptId progress x).result = none := by
  unfold sent
  split <;> rfl

@[simp] theorem sent_emitted (progress : Bool) (x : Next) :
    (sent parser promptId progress x).emitted =
      if progress then (fraction parser promptId x).map toF32 else none := by
  unfold sent
  cases progress <;> cases fraction parser promptId x <;> rfl

/-- What the loop makes of a frame. -/
def judge (progress : Bool) (x : Next) : EventLoop.Verdict (Except String Unit) ℚ :=
  match x with
  | none => .finish (.error "comfy ws stream ended before completion")
  | some (.error e) => .finish (.error s!"comfy ws error: {e}")
  | some (.ok .close) => .finish (.error "comfy ws closed before completion")
  | x => match frameOf parser promptId x with
    | none => .skip
    | some v =>
      if (v.get "type").asStr = some "executing" ∧ ((v.get "data").get "node").isNull then
        .finish (.ok ())
      else if (v.get "type").asStr = some "execution_error" then
        .finish (.error (executionError (parser.toText (v.get "data"))))
      else sent parser promptId progress x

theorem progressFraction_eq (value max : ℚ) : progressFraction value max =
    if max > 0 then some (Min.min 1 (Max.max 0 (value / max))) else none := by
  unfold progressFraction
  split
  · rw [max_min_distrib_left, max_eq_right zero_le_one]
  · rfl

theorem fraction_frame {x : Next} {v : Json} (hx : frameOf parser promptId x = some v)
    (htype : (v.get "type").asStr = some "progress") :
    fraction parser promptId x = ((v.get "data").get "value").asF64.bind fun value =>
      ((v.get "data").get "max").asF64.bind fun max => progressFraction value max := by
  simp only [fraction, hx, htype, progressFraction_eq, Option.bind_some, if_true]

theorem fraction_other {x : Next} {v : Json} (hx : frameOf parser promptId x = some v)
    (htype : (v.get "type").asStr ≠ some "progress") : fraction parser promptId x = none := by
  simp only [fraction, hx, htype, Option.bind_some, if_false]

theorem fraction_bounds {x : Next} {q : ℚ} (h : fraction parser promptId x = some q) :
    0 ≤ q ∧ q ≤ 1 := by
  obtain ⟨v, hx, h⟩ := Option.bind_eq_some_iff.mp h
  obtain ⟨-, h⟩ := Option.ite_none_right_eq_some.mp h
  obtain ⟨value, -, h⟩ := Option.bind_eq_some_iff.mp h
  obtain ⟨max, -, h⟩ := Option.bind_eq_some_iff.mp h
  rw [← progressFraction_eq] at h
  exact progressFraction_bounds h

theorem judge_frame {progress : Bool} {t : String} {v : Json}
    (hx : frameOf parser promptId (some (.ok (.text t))) = some v) :
    judge parser promptId progress (some (.ok (.text t))) =
      if (v.get "type").asStr = some "executing" ∧ ((v.get "data").get "node").isNull then
        .finish (.ok ())
      else if (v.get "type").asStr = some "execution_error" then
        .finish (.error (executionError (parser.toText (v.get "data"))))
      else sent parser promptId progress (some (.ok (.text t))) := by
  simp only [judge, hx]

theorem judge_progress {progress : Bool} {t : String} {v : Json}
    (hx : frameOf parser promptId (some (.ok (.text t))) = some v)
    (htype : (v.get "type").asStr = some "progress") :
    judge parser promptId progress (some (.ok (.text t))) =
      match progress, ((v.get "data").get "value").asF64.bind fun value =>
        ((v.get "data").get "max").asF64.bind fun max => progressFraction value max with
      | true, some p => .emit (toF32 p)
      | _, _ => .skip := by
  rw [judge_frame parser promptId hx, if_neg (by simp [htype]), if_neg (by simp [htype])]
  unfold sent
  rw [fraction_frame parser promptId hx htype]

theorem judge_other {progress : Bool} {t : String} {v : Json}
    (hx : frameOf parser promptId (some (.ok (.text t))) = some v)
    (hdone : ¬ ((v.get "type").asStr = some "executing" ∧ ((v.get "data").get "node").isNull))
    (hprog : (v.get "type").asStr ≠ some "progress") :
    judge parser promptId progress (some (.ok (.text t))) =
      if (v.get "type").asStr = some "execution_error" then
        .finish (.error (executionError (parser.toText (v.get "data"))))
      else .skip := by
  rw [judge_frame parser promptId hx, if_neg hdone]
  unfold sent
  rw [fraction_other parser promptId hx hprog]
  cases progress <;> rfl

/-- One turn of the loop. -/
theorem awaitCompletion_cons (progress : Bool) (x : Next) (rest : List Next) :
    awaitCompletion parser promptId progress (x :: rest) =
      match judge parser promptId progress x with
      | .skip => awaitCompletion parser promptId progress rest
      | .emit p => ((awaitCompletion parser promptId progress rest).1,
          p :: (awaitCompletion parser promptId progress rest).2)
      | .finish r => (some r, []) := by
  rcases x with _ | e | msg
  · rfl
  · rfl
  cases msg with
  | text t =>
    cases hv : parser.fromStr t with
    | none =>
      have hx : frameOf parser promptId (some (.ok (.text t))) = none := by simp [frameOf, hv]
      simp only [awaitCompletion, judge, hv, hx]
    | some v =>
      by_cases hid : ((v.get "data").get "prompt_id").asStr = some promptId
      · have hx : frameOf parser promptId (some (.ok (.text t))) = some v := by
          simp [frameOf, hv, hid]
        rw [awaitCompletion, hv]
        simp only
        rw [if_neg (not_not.mpr hid)]
        by_cases hdone : (v.get "type").asStr = some "executing" ∧
            ((v.get "data").get "node").isNull
        · rw [if_pos hdone, judge_frame parser promptId hx, if_pos hdone]
        rw [if_neg hdone]
        by_cases hprog : (v.get "type").asStr = some "progress"
        · rw [if_pos hprog, judge_progress parser promptId hx hprog]
          cases progress with
          | false => rfl
          | true =>
            cases ((v.get "data").get "value").asF64 with
            | none => rfl
            | some value =>
              cases ((v.get "data").get "max").asF64 with
              | none => rfl
              | some max =>
                simp only [Option.bind_some, forwarded_eq]
                cases progressFraction value max <;> rfl
        · rw [if_neg hprog, judge_other parser promptId hx hdone hprog]
          by_cases herr : (v.get "type").asStr = some "execution_error"
          · rw [if_pos herr, if_pos herr]
          · rw [if_neg herr, if_neg herr]
      · have hx : frameOf parser promptId (some (.ok (.text t))) = none := by
          simp [frameOf, hv, hid]
        simp only [awaitCompletion, judge, hv, hx]
        rw [if_pos hid]
  | close => rfl
  | binary b | ping b | pong b | frame b => rfl

/-- The loop judges frame by frame. -/
theorem awaitCompletion_eq (progress : Bool) (items : List Next) :
    awaitCompletion parser promptId progress items =
      EventLoop.loop (judge parser promptId progress) items := by
  induction items with
  | nil => rfl
  | cons x rest ih =>
    rw [awaitCompletion_cons, EventLoop.loop, ih]
    cases judge parser promptId progress x <;> rfl

/-- The stream ends or fails here, or the frame is passed over, or it is a frame of this prompt. -/
theorem next_cases (progress : Bool) (x : Next) :
    (Breaks x ∧ frameOf parser promptId x = none ∧
      ∃ e, judge parser promptId progress x = .finish (.error e)) ∨
    (¬ Breaks x ∧ frameOf parser promptId x = none ∧
      judge parser promptId progress x = .skip) ∨
    ∃ v, ¬ Breaks x ∧ frameOf parser promptId x = some v ∧
      judge parser promptId progress x =
        if (v.get "type").asStr = some "executing" ∧ ((v.get "data").get "node").isNull then
          .finish (.ok ())
        else if (v.get "type").asStr = some "execution_error" then
          .finish (.error (executionError (parser.toText (v.get "data"))))
        else sent parser promptId progress x := by
  rcases x with _ | e | msg
  · exact .inl ⟨trivial, rfl, _, rfl⟩
  · exact .inl ⟨trivial, rfl, _, rfl⟩
  · cases msg with
    | text t =>
      cases hx : frameOf parser promptId (some (.ok (.text t))) with
      | none => exact .inr (.inl ⟨id, rfl, by simp only [judge, hx]⟩)
      | some v => exact .inr (.inr ⟨v, id, rfl, judge_frame parser promptId hx⟩)
    | close => exact .inl ⟨trivial, rfl, _, rfl⟩
    | _ => exact .inr (.inl ⟨id, rfl, rfl⟩)

theorem relevant_iff {x : Next} :
    relevant parser promptId x = true ↔ Breaks x ∨ (frameOf parser promptId x).isSome = true := by
  rcases x with _ | e | msg
  · simp [relevant, Breaks]
  · simp [relevant, Breaks]
  · cases msg <;> simp [relevant, Breaks]

theorem judge_irrelevant {progress : Bool} {x : Next} (h : relevant parser promptId x = false) :
    judge parser promptId progress x = .skip := by
  have hnot := (relevant_iff parser promptId).not.mp (Bool.eq_false_iff.mp h)
  rcases next_cases parser promptId progress x with ⟨hb, -, -⟩ | ⟨-, -, hj⟩ | ⟨v, -, hx, -⟩
  · exact absurd (.inl hb) hnot
  · exact hj
  · exact absurd (.inr (by simp [hx])) hnot

theorem judge_ok (progress : Bool) {x : Next} :
    (judge parser promptId progress x).result = some (.ok ()) ↔ Completes parser promptId x := by
  rcases next_cases parser promptId progress x with ⟨-, hx, e, hj⟩ | ⟨-, hx, hj⟩ | ⟨v, -, hx, hj⟩
  · simp [hj, Completes, hx]
  · simp [hj, Completes, hx]
  · rw [hj]
    by_cases hdone : (v.get "type").asStr = some "executing" ∧ ((v.get "data").get "node").isNull
    · simp [Completes, hx, hdone]
    · have hnot : ¬ Completes parser promptId x := by
        simpa [Completes, hx] using hdone
      simp only [if_neg hdone, hnot, iff_false]
      split <;> simp

theorem judge_error (progress : Bool) {x : Next} :
    (∃ e, (judge parser promptId progress x).result = some (.error e)) ↔
      Breaks x ∨ Errs parser promptId x := by
  rcases next_cases parser promptId progress x with ⟨hb, hx, e, hj⟩ | ⟨hb, hx, hj⟩ | ⟨v, hb, hx, hj⟩
  · simp [hj, hb]
  · simp [hj, hb, Errs, hx]
  · rw [hj]
    by_cases hdone : (v.get "type").asStr = some "executing" ∧ ((v.get "data").get "node").isNull
    · simp [hb, Errs, hx, hdone]
    · by_cases herr : (v.get "type").asStr = some "execution_error"
      · simp [Errs, hx, herr]
      · simp [hb, Errs, hx, hdone, herr]

theorem judge_emitted {progress : Bool} {x : Next}
    (h : (judge parser promptId progress x).result = none) :
    (judge parser promptId progress x).emitted =
      if progress then (fraction parser promptId x).map toF32 else none := by
  rcases next_cases parser promptId progress x with ⟨-, -, e, hj⟩ | ⟨-, hx, hj⟩ | ⟨v, -, hx, hj⟩
  · rw [hj] at h
    cases h
  · rw [hj]
    cases progress <;> simp [fraction, hx]
  · rw [hj] at h ⊢
    by_cases hdone : (v.get "type").asStr = some "executing" ∧ ((v.get "data").get "node").isNull
    · rw [if_pos hdone] at h
      cases h
    · by_cases herr : (v.get "type").asStr = some "execution_error"
      · rw [if_neg hdone, if_pos herr] at h
        cases h
      · rw [if_neg hdone, if_neg herr, sent_emitted]

/-- A frame that ends the wait. -/
def Decides (x : Next) : Prop := Completes parser promptId x ∨ Breaks x ∨ Errs parser promptId x

theorem judge_result_none (progress : Bool) {x : Next} :
    (judge parser promptId progress x).result = none ↔
      ¬ Decides parser promptId x := by
  rw [Decides, ← judge_ok parser promptId progress,
    ← judge_error parser promptId progress]
  cases (judge parser promptId progress x).result with
  | none => simp
  | some r => cases r <;> simp

/-- The wait ends well just when the end of the prompt comes before its failure and before the
end of the stream. -/
theorem completes_first {progress : Bool} {items : List Next} :
    (awaitCompletion parser promptId progress items).1 = some (.ok ()) ↔
      ∃ pre x post, items = pre ++ x :: post ∧ Completes parser promptId x ∧
        ∀ y ∈ pre, ¬ (Breaks y ∨ Errs parser promptId y) := by
  have hfirst := EventLoop.loop_first (judge parser promptId progress) (· = .ok ()) items
  simp only [exists_eq_right, judge_ok] at hfirst
  rw [awaitCompletion_eq, hfirst]
  refine exists₃_congr fun pre x post => and_congr_right fun _ => and_congr_right fun _ =>
    forall₂_congr fun y _ => ?_
  rw [← judge_error parser promptId progress]
  constructor
  · rintro hy ⟨e, he⟩
    cases hy _ he
  · intro hy r hr
    cases r with
    | ok u => rfl
    | error e => exact absurd ⟨e, hr⟩ hy

theorem fails_first {progress : Bool} {items : List Next} :
    (∃ e, (awaitCompletion parser promptId progress items).1 = some (.error e)) ↔
      ∃ pre x post, items = pre ++ x :: post ∧ (Breaks x ∨ Errs parser promptId x) ∧
        ∀ y ∈ pre, ¬ Completes parser promptId y := by
  have hfirst := EventLoop.loop_first (judge parser promptId progress) (∃ e, · = .error e) items
  have herror : ∀ r : Option (Except String Unit),
      (∃ b, r = some b ∧ ∃ e, b = .error e) ↔ ∃ e, r = some (.error e) := by
    intro r
    constructor
    · rintro ⟨b, hr, e, rfl⟩
      exact ⟨e, hr⟩
    · rintro ⟨e, hr⟩
      exact ⟨_, hr, e, rfl⟩
  simp only [herror, judge_error] at hfirst
  rw [awaitCompletion_eq, hfirst]
  refine exists₃_congr fun pre x post => and_congr_right fun _ => and_congr_right fun _ =>
    forall₂_congr fun y _ => ?_
  rw [← judge_ok parser promptId progress]
  constructor
  · intro hy hok
    obtain ⟨e, he⟩ := hy _ hok
    cases he
  · intro hy r hr
    cases r with
    | ok u => exact absurd hr hy
    | error e => exact ⟨e, rfl⟩

/-- What is sent are the fractions up to the frame that ends the wait. -/
theorem sent_fractions (progress : Bool) (items : List Next) :
    ∃ pre post, items = pre ++ post ∧ (∀ x ∈ pre, ¬ Decides parser promptId x) ∧
      (∀ x ∈ post.head?, Decides parser promptId x) ∧
      (awaitCompletion parser promptId progress items).2 =
        if progress then (pre.filterMap (fraction parser promptId)).map toF32 else [] := by
  let undecided := fun x => (judge parser promptId progress x).result.isNone
  have hpre : ∀ x ∈ items.takeWhile undecided,
      (judge parser promptId progress x).result = none := by
    intro x hx
    have hnone : undecided x = true := List.mem_takeWhile_imp hx
    exact Option.isNone_iff_eq_none.mp hnone
  refine ⟨items.takeWhile undecided, items.dropWhile undecided,
    (List.takeWhile_append_dropWhile).symm, fun x hx => ?_, fun x hx => ?_, ?_⟩
  · exact (judge_result_none parser promptId progress).mp (hpre x hx)
  · have hhead := List.head?_dropWhile_not undecided items
    rw [hx] at hhead
    by_contra hnot
    rw [← judge_result_none parser promptId progress] at hnot
    simp [undecided, hnot] at hhead
  · rw [awaitCompletion_eq, EventLoop.loop_snd,
      List.filterMap_congr fun x hx => judge_emitted parser promptId (hpre x hx)]
    cases progress <;> simp [List.map_filterMap]

/-- Other prompts' frames and all that is not text may come and go; the wait ends well just when
the end of this prompt comes before its failure and before the stream closes, fails or ends, ends
with an error just when one of these comes first, and else goes on; what is sent are the fractions
of this prompt's progress frames up to there, in order, each rounded to an `f64` and then to an
`f32`, which leaves a number from 0 to 1 and moves it by `1 / 2 ^ 23` at most. -/
theorem awaitCompletion_spec (progress : Bool) (items : List Next) :
    awaitCompletion parser promptId progress (items.filter (relevant parser promptId)) =
      awaitCompletion parser promptId progress items ∧
    ((awaitCompletion parser promptId progress items).1 = some (.ok ()) ↔
      ∃ pre x post, items = pre ++ x :: post ∧ Completes parser promptId x ∧
        ∀ y ∈ pre, ¬ (Breaks y ∨ Errs parser promptId y)) ∧
    ((∃ e, (awaitCompletion parser promptId progress items).1 = some (.error e)) ↔
      ∃ pre x post, items = pre ++ x :: post ∧ (Breaks x ∨ Errs parser promptId x) ∧
        ∀ y ∈ pre, ¬ Completes parser promptId y) ∧
    ((awaitCompletion parser promptId progress items).1 = none ↔
      ∀ x ∈ items, ¬ Decides parser promptId x) ∧
    ∃ pre post, items = pre ++ post ∧ (∀ x ∈ pre, ¬ Decides parser promptId x) ∧
      (∀ x ∈ post.head?, Decides parser promptId x) ∧
      (awaitCompletion parser promptId progress items).2 =
        (if progress then (pre.filterMap (fraction parser promptId)).map toF32 else []) ∧
      ∀ q ∈ pre.filterMap (fraction parser promptId),
        0 ≤ toF32 q ∧ toF32 q ≤ 1 ∧ |toF32 q - q| ≤ 1 / 2 ^ 23 := by
  obtain ⟨pre, post, hsplit, hpre, hpost, hsent⟩ := sent_fractions parser promptId progress items
  refine ⟨?_, completes_first parser promptId, fails_first parser promptId, ?_,
    pre, post, hsplit, hpre, hpost, hsent, fun q hq => ?_⟩
  · rw [awaitCompletion_eq, awaitCompletion_eq]
    exact EventLoop.loop_filter _ (fun x => judge_irrelevant parser promptId) items
  · rw [awaitCompletion_eq, EventLoop.loop_waits]
    exact forall₂_congr fun x _ => judge_result_none parser promptId progress
  · obtain ⟨x, -, hx⟩ := List.mem_filterMap.mp hq
    obtain ⟨h₀, h₁⟩ := fraction_bounds parser promptId hx
    exact toF32_near h₀ h₁

/-- The frame of the server model that is read from what `ws.next()` came back with. -/
def readFrame : Next → Frame
  | none => .streamEnd
  | some (.error e) => .transportError e
  | some (.ok .close) => .close
  | x => match frameOf parser promptId x with
    | none => .other
    | some v =>
      if (v.get "type").asStr = some "executing" ∧ ((v.get "data").get "node").isNull then
        .executingNull
      else if (v.get "type").asStr = some "progress" then
        match ((v.get "data").get "value").asF64, ((v.get "data").get "max").asF64 with
        | some value, some max => .progress value max
        | _, _ => .other
      else if (v.get "type").asStr = some "execution_error" then
        .executionError (parser.toText (v.get "data"))
      else .other

def ending : Except String Unit → Ending
  | .ok _ => .completed
  | .error e => .failed e

theorem readFrame_frame {t : String} {v : Json}
    (hx : frameOf parser promptId (some (.ok (.text t))) = some v) :
    readFrame parser promptId (some (.ok (.text t))) =
      if (v.get "type").asStr = some "executing" ∧ ((v.get "data").get "node").isNull then
        .executingNull
      else if (v.get "type").asStr = some "progress" then
        match ((v.get "data").get "value").asF64, ((v.get "data").get "max").asF64 with
        | some value, some max => .progress value max
        | _, _ => .other
      else if (v.get "type").asStr = some "execution_error" then
        .executionError (parser.toText (v.get "data"))
      else .other := by
  simp only [readFrame, hx]

/-- What a step of the server does on a frame, and what the loop makes of it: the server keeps a
fraction that the loop rounds. -/
def Agrees (w : World) (wr : Writer) (frame : Frame)
    (verdict : EventLoop.Verdict (Except String Unit) ℚ) : Prop :=
  ∃ q : Option ℚ, verdict.emitted = q.map toF32 ∧
    execFrame w promptId (.frame frame) =
      some ({ w with writer := some { wr with channel := wr.channel ++ q.toList } },
        verdict.result.map ending)

/-- A frame of which nothing is sent leaves the world. -/
theorem agrees_silent {w : World} {wr : Writer} (hw : w.writer = some wr) {frame : Frame}
    {verdict : EventLoop.Verdict (Except String Unit) ℚ} (hemit : verdict.emitted = none)
    (hexec : execFrame w promptId (.frame frame) = some (w, verdict.result.map ending)) :
    Agrees promptId w wr frame verdict := by
  refine ⟨none, hemit, hexec.trans ?_⟩
  rw [Option.toList_none, List.append_nil, ← hw]

theorem agrees_progress {w : World} {wr : Writer} (hw : w.writer = some wr) (value max : ℚ) :
    Agrees promptId w wr (.progress value max) (match true, progressFraction value max with
      | true, some p => .emit (toF32 p)
      | _, _ => .skip) := by
  cases hq : progressFraction value max with
  | none => exact agrees_silent promptId hw rfl (by simp [execFrame, hq])
  | some q => exact ⟨some q, rfl, by simp [execFrame, hq, hw]⟩

/-- A step of the server on the frame does what the loop makes of it. -/
theorem execFrame_readFrame {w : World} {wr : Writer} (hp : promptId ∈ w.comfy.ended)
    (hw : w.writer = some wr) (x : Next) :
    Agrees promptId w wr (readFrame parser promptId x) (judge parser promptId true x) := by
  have silent {frame : Frame} {verdict : EventLoop.Verdict (Except String Unit) ℚ} :=
    @agrees_silent promptId w wr hw frame verdict
  rcases x with _ | e | msg
  · exact silent rfl rfl
  · exact silent rfl rfl
  · cases msg with
    | text t =>
      cases hx : frameOf parser promptId (some (.ok (.text t))) with
      | none =>
        simp only [readFrame, judge, hx]
        exact silent rfl rfl
      | some v =>
        rw [readFrame_frame parser promptId hx]
        by_cases hdone : (v.get "type").asStr = some "executing" ∧
            ((v.get "data").get "node").isNull
        · rw [if_pos hdone, judge_frame parser promptId hx, if_pos hdone]
          exact silent rfl (if_pos hp)
        rw [if_neg hdone]
        by_cases hprog : (v.get "type").asStr = some "progress"
        · rw [if_pos hprog, judge_progress parser promptId hx hprog]
          cases ((v.get "data").get "value").asF64 with
          | none => exact silent rfl rfl
          | some value =>
            cases ((v.get "data").get "max").asF64 with
            | none => exact silent rfl rfl
            | some max => exact agrees_progress promptId hw value max
        · rw [if_neg hprog, judge_other parser promptId hx hdone hprog]
          by_cases herr : (v.get "type").asStr = some "execution_error"
          · rw [if_pos herr, if_pos herr]
            exact silent rfl (if_pos hp)
          · rw [if_neg herr, if_neg herr]
            exact silent rfl rfl
    | close => exact silent rfl rfl
    | binary b | ping b | pong b | frame b => exact silent rfl rfl

end

end ZunServer.Completion
