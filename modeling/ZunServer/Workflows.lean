import ZunServer.Serde
import ZunServer.Calls

/-!
# Workflow templates

The registry that `load_registry` builds of the embedded templates, and the
substitution of the placeholders of an edit workflow, which takes two passes.
-/
namespace ZunServer.Workflows

open Serde
open Schema Calls Comfy

def enabledWorkflows : List String := ["flux3_klein_edit", "flux2_klein_edit"]

/-- `workflow_support`: whatever has a template is supported. -/
def workflowSupport : WorkflowSupport := ⟨true, none⟩

/-- `load_embedded_template`: the files are those of the embedded directory, `fromStr` is
`serde_json::from_str`. -/
def loadEmbeddedTemplate (embedded : String → Option Bytes) (fromStr : String → Except String Json)
    (name : String) : Except String Json :=
  if name.toList = [] ∨ '/' ∈ name.toList ∨ '\\' ∈ name.toList ∨ ['.', '.'] <:+: name.toList then
    .error s!"invalid workflow name: {debug name}"
  else
    let filename := name ++ ".json"
    match embedded filename with
    | none => .error s!"embedded workflow not found: {filename}"
    | some file => match String.fromUTF8? file.toByteArray with
      | none => .error s!"embedded {filename} is not valid UTF-8"
      | some raw => match fromStr raw with
        | .error e => .error s!"parse embedded {filename}: {e}"
        | .ok template => .ok template

/-- `load_registry`, with the templates by name. -/
def loadRegistry (embedded : String → Option Bytes) (fromStr : String → Except String Json) :
    Except String (WorkflowRegistry × List (String × Json)) := do
  let templates ← enabledWorkflows.mapM fun name => do
    let template ← loadEmbeddedTemplate embedded fromStr name
    pure (name, template)
  pure (⟨templates.map Prod.fst, templates.map fun t => (t.1, workflowSupport)⟩, templates)

/-- What a registry that loads is, whatever the templates say. -/
theorem loadRegistry_ok {embedded : String → Option Bytes} {fromStr : String → Except String Json}
    {w : WorkflowRegistry} {templates : List (String × Json)}
    (h : loadRegistry embedded fromStr = .ok (w, templates)) :
    w = ⟨enabledWorkflows, enabledWorkflows.map (·, workflowSupport)⟩ := by
  simp only [loadRegistry, enabledWorkflows, List.mapM_cons, List.mapM_nil] at h
  cases h₃ : loadEmbeddedTemplate embedded fromStr "flux3_klein_edit" with
  | error e =>
    rw [h₃] at h
    cases h
  | ok t₃ =>
    rw [h₃] at h
    cases h₂ : loadEmbeddedTemplate embedded fromStr "flux2_klein_edit" with
    | error e =>
      rw [h₂] at h
      cases h
    | ok t₂ =>
      rw [h₂] at h
      cases h
      rfl

/-- Where every supported name has its template, a workflow that passes the check of a
request has one in the worker. -/
def Complete (w : WorkflowRegistry) : Prop :=
  ∀ name, w.supports name = .ok () → w.supportedTemplate name = .ok name

theorem loadRegistry_complete {embedded : String → Option Bytes}
    {fromStr : String → Except String Json} {w : WorkflowRegistry} {templates : List (String × Json)}
    (h : loadRegistry embedded fromStr = .ok (w, templates)) : Complete w := by
  obtain rfl := loadRegistry_ok h
  intro name hname
  have hmem : name ∈ enabledWorkflows := by
    simp only [WorkflowRegistry.supports, enabledWorkflows, List.map_cons, List.map_nil] at hname
    by_contra hnot
    simp only [enabledWorkflows, List.mem_cons, List.not_mem_nil, or_false, not_or] at hnot
    simp [List.lookup_cons, beq_eq_false_iff_ne.mpr hnot.1, beq_eq_false_iff_ne.mpr hnot.2] at hname
  simp [WorkflowRegistry.supportedTemplate, hname, hmem]

def prompt : String := "PROMPT_PLACEHOLDER"
def inputImage : String := "INPUT_IMAGE_PLACEHOLDER"
def filenamePrefix : String := "FILENAME_PREFIX_PLACEHOLDER"
def seedToken : String := "SEED_PLACEHOLDER"

/-- `patch_placeholders`: a string that is a needle, as a whole, becomes its replacement. -/
def patchPlaceholders (subs : List (String × String)) (value : Json) : Json :=
  value.mapStrings fun s => .string ((subs.lookup s).getD s)

/-- `patch_seed_placeholder`. -/
def patchSeedPlaceholder (seed : Int) (value : Json) : Json :=
  value.mapStrings fun s => if s = seedToken then .int seed else .string s

/-- `build_edit_workflow`. -/
def buildEditWorkflow (template : Json) (promptText inputImageName jobId : String) (seed : Int) :
    Json :=
  let filename := "zun_" ++ jobId
  patchSeedPlaceholder seed (patchPlaceholders
    [(prompt, promptText), (inputImage, inputImageName), (filenamePrefix, filename)] template)

/-- The JSON that goes to ComfyUI for a workflow that the worker submits. -/
def body (templates : String → Json) (w : EditWorkflow) : Json :=
  buildEditWorkflow (templates w.template) w.promptText w.inputImage w.jobId w.seed

/-- What is asked of the leaves of a template: each token its own value, at once. -/
def filled (promptText inputImageName jobId : String) (seed : Int) (s : String) : Json :=
  if s = prompt then .string promptText
  else if s = inputImage then .string inputImageName
  else if s = filenamePrefix then .string ("zun_" ++ jobId)
  else if s = seedToken then .int seed
  else .string s

/-- The name of the output is not a token: it begins in lower case. -/
theorem filename_ne_seedToken (jobId : String) : "zun_" ++ jobId ≠ seedToken := by
  intro h
  have hhead : ("zun_" ++ jobId).toList.head? = seedToken.toList.head? := by rw [h]
  simp [seedToken] at hhead

/-- The two passes on one leaf: only a text that is the token of the second one goes wrong. -/
theorem patch_leaf (promptText inputImageName jobId : String) (seed : Int) (s : String) :
    buildEditWorkflow (.string s) promptText inputImageName jobId seed =
        filled promptText inputImageName jobId seed s ↔
      (s = prompt → promptText ≠ seedToken) ∧ (s = inputImage → inputImageName ≠ seedToken) := by
  have hfilename := filename_ne_seedToken jobId
  simp only [buildEditWorkflow, patchSeedPlaceholder, patchPlaceholders, Json.mapStrings]
  by_cases hprompt : s = prompt
  · subst hprompt
    by_cases hseed : promptText = seedToken <;>
      simp [filled, hseed, prompt, inputImage]
  by_cases himage : s = inputImage
  · subst himage
    by_cases hseed : inputImageName = seedToken <;>
      simp [filled, hseed, List.lookup_cons, prompt, inputImage]
  by_cases hprefix : s = filenamePrefix
  · subst hprefix
    simp [filled, hfilename, List.lookup_cons, prompt, inputImage, filenamePrefix]
  have hnone : List.lookup s [(prompt, promptText), (inputImage, inputImageName),
      (filenamePrefix, "zun_" ++ jobId)] = none := by
    simp [List.lookup_cons, beq_eq_false_iff_ne.mpr hprompt, beq_eq_false_iff_ne.mpr himage,
      beq_eq_false_iff_ne.mpr hprefix]
  simp [filled, hnone, hprompt, himage, hprefix]

/-- The passes together walk the template once. -/
theorem buildEditWorkflow_eq (template : Json) (promptText inputImageName jobId : String)
    (seed : Int) :
    buildEditWorkflow template promptText inputImageName jobId seed =
      template.mapStrings fun s =>
        buildEditWorkflow (.string s) promptText inputImageName jobId seed := by
  simp only [buildEditWorkflow, patchSeedPlaceholder, patchPlaceholders]
  exact Json.mapStrings_mapStrings _ _ template

/-- The two passes are the one substitution exactly where no value that the first puts in is
the token of the second. -/
theorem buildEditWorkflow_fills (template : Json) (promptText inputImageName jobId : String)
    (seed : Int) :
    buildEditWorkflow template promptText inputImageName jobId seed =
        template.mapStrings (filled promptText inputImageName jobId seed) ↔
      (prompt ∈ template.strings → promptText ≠ seedToken) ∧
        (inputImage ∈ template.strings → inputImageName ≠ seedToken) := by
  rw [buildEditWorkflow_eq, Json.mapStrings_eq_iff]
  constructor
  · intro h
    constructor
    · intro hprompt
      exact ((patch_leaf _ _ _ _ _).mp (h prompt hprompt)).1 rfl
    · intro himage
      exact ((patch_leaf _ _ _ _ _).mp (h inputImage himage)).2 rfl
  · rintro ⟨hprompt, himage⟩ s hs
    apply (patch_leaf _ _ _ _ _).mpr
    constructor
    · rintro rfl
      exact hprompt hs
    · rintro rfl
      exact himage hs

/-- A user may write the seed token as the prompt: the text node then gets the number. -/
theorem prompt_becomes_seed :
    buildEditWorkflow (.object [("text", .string prompt)]) seedToken "in.jpg" "abc-123" 7 ≠
      Json.mapStrings (filled seedToken "in.jpg" "abc-123" 7)
        (.object [("text", .string prompt)]) := by
  simp [buildEditWorkflow, patchSeedPlaceholder, patchPlaceholders, Json.mapStrings,
    Json.mapObject, filled]

/-- What a list of substitutions makes of a string. -/
def substitute (subs : List (String × String)) (s : String) : String := (subs.lookup s).getD s

theorem patchPlaceholders_eq (subs : List (String × String)) (v : Json) :
    patchPlaceholders subs v = v.mapStrings fun s => .string (substitute subs s) := rfl

@[simp] theorem substitute_nil (s : String) : substitute [] s = s := rfl

@[simp] theorem substitute_cons (n r : String) (subs : List (String × String)) (s : String) :
    substitute ((n, r) :: subs) s = if s = n then r else substitute subs s := by
  by_cases h : s = n
  · simp [substitute, h]
  · simp [substitute, List.lookup_cons, beq_eq_false_iff_ne.mpr h, h]

theorem substitute_other {subs : List (String × String)} {s : String}
    (h : s ∉ subs.map Prod.fst) : substitute subs s = s := by
  induction subs with
  | nil => rfl
  | cons p subs ih =>
    simp only [List.map_cons, List.mem_cons, not_or] at h
    rw [substitute_cons, if_neg h.1, ih h.2]

/-- The needle found first decides; what it puts in is looked up again by the second list. -/
theorem substitute_append (s₁ s₂ : List (String × String)) (s : String)
    (h : ∀ p ∈ s₁, p.2 ∉ s₂.map Prod.fst) :
    substitute s₂ (substitute s₁ s) = substitute (s₁ ++ s₂) s := by
  induction s₁ with
  | nil => rfl
  | cons p s₁ ih =>
    rw [List.cons_append, substitute_cons, substitute_cons]
    by_cases hp : s = p.1
    · rw [if_pos hp, if_pos hp]
      exact substitute_other (h p (by simp))
    · rw [if_neg hp, if_neg hp]
      exact ih fun p' hp' => h p' (List.mem_cons_of_mem p hp')

/-- Two calls walk the value once. -/
theorem patchPlaceholders_twice (s₁ s₂ : List (String × String)) (v : Json) :
    patchPlaceholders s₂ (patchPlaceholders s₁ v) =
      v.mapStrings fun s => .string (substitute s₂ (substitute s₁ s)) := by
  simp only [patchPlaceholders_eq]
  exact Json.mapStrings_mapStrings _ _ v

/-- Two calls are the one call with both lists as long as no replacement of the first is a
needle of the second; whatever the lists are, only needles are touched. -/
theorem patchPlaceholders_append (s₁ s₂ : List (String × String)) (v : Json) :
    ((∀ p ∈ s₁, ∀ q ∈ s₂, p.2 ≠ q.1) →
      patchPlaceholders s₂ (patchPlaceholders s₁ v) = patchPlaceholders (s₁ ++ s₂) v) ∧
    v.SameShape ((s₁ ++ s₂).map Prod.fst) (patchPlaceholders s₂ (patchPlaceholders s₁ v)) ∧
    v.SameShape ((s₁ ++ s₂).map Prod.fst) (patchPlaceholders (s₁ ++ s₂) v) := by
  rw [patchPlaceholders_twice]
  refine ⟨fun h => ?_, ?_, ?_⟩
  · have hapart : ∀ p ∈ s₁, p.2 ∉ s₂.map Prod.fst := by
      intro p hp hmem
      obtain ⟨q, hq, he⟩ := List.mem_map.mp hmem
      exact h p hp q hq he.symm
    apply Json.mapStrings_eq_iff.mpr
    intro s _
    rw [substitute_append s₁ s₂ s hapart]
    rfl
  · apply Json.sameShape_mapStrings
    intro s hs
    simp only [List.map_append, List.mem_append, not_or] at hs
    rw [substitute_other hs.1, substitute_other hs.2]
  · exact Json.sameShape_mapStrings (fun s hs => substitute_other hs) v

theorem patchPlaceholders_append_sample :
    patchPlaceholders [("LORA_PLACEHOLDER", "a.safetensors")] (patchPlaceholders
        [(prompt, "x")] (.object [("text", .string prompt), ("lora", .string "LORA_PLACEHOLDER")])) =
      .object [("text", .string "x"), ("lora", .string "a.safetensors")] := by
  rw [(patchPlaceholders_append _ _ _).1 (by simp)]
  simp [patchPlaceholders, Json.mapStrings, Json.mapObject, List.lookup_cons, prompt]

end ZunServer.Workflows
