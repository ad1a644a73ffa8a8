import ZunServer.Serde
import ZunServer.Redact
import ZunServer.Calls

/-!
# The prompt catalog

`create`, `update` and `delete` of `custom_prompts.rs`, from the JSON body to
the answer. A body that does not deserialise is answered by the extractor and
reaches no handler.
-/
namespace ZunServer.CustomPrompts

open Serde
open Schema Statements Database Calls

def maxLabelLen : Nat := 1000
def maxDescriptionLen : Nat := 4000

structure CreatePrompt where
  label : String
  description : Option String
  text : String
  workflow : String
  timeoutSeconds : Option Int
  deriving DecidableEq, Repr

def CreatePrompt.de : De CreatePrompt
  | .object o => do
    let label ← field none "label" De.string o
    let description ← field (some none) "description" De.string.option o
    let text ← field none "text" De.string o
    let workflow ← field none "workflow" De.string o
    let timeoutSeconds ← field (some none) "timeout_seconds" De.i64.option o
    pure ⟨label, description, text, workflow, timeoutSeconds⟩
  | .array l => do
    let label ← element none De.string l 0
    let description ← element (some none) De.string.option l 1
    let text ← element none De.string l 2
    let workflow ← element none De.string l 3
    let timeoutSeconds ← element (some none) De.i64.option l 4
    if 5 < l.length then none else pure ⟨label, description, text, workflow, timeoutSeconds⟩
  | _ => none

structure UpdatePrompt where
  label : Option String
  description : Option (Option String)
  text : Option String
  workflow : Option String
  timeoutSeconds : Option (Option Int)
  deriving DecidableEq, Repr

def UpdatePrompt.de : De UpdatePrompt
  | .object o => do
    let label ← field (some none) "label" De.string.option o
    let description ← field (some none) "description" De.string.option.option o
    let text ← field (some none) "text" De.string.option o
    let workflow ← field (some none) "workflow" De.string.option o
    let timeoutSeconds ← field (some none) "timeout_seconds" De.i64.option.option o
    pure ⟨label, description, text, workflow, timeoutSeconds⟩
  | .array l => do
    let label ← element (some none) De.string.option l 0
    let description ← element (some none) De.string.option.option l 1
    let text ← element (some none) De.string.option l 2
    let workflow ← element (some none) De.string.option l 3
    let timeoutSeconds ← element (some none) De.i64.option.option l 4
    if 5 < l.length then none else pure ⟨label, description, text, workflow, timeoutSeconds⟩
  | _ => none

/-- A check, and the message of the `400` it answers when it fails. -/
abbrev Check := Except String Unit

def validateLen (name value : String) (max : Nat) : Check :=
  if value.utf8ByteSize > max then .error s!"{name} must be at most {max} bytes" else .ok ()

def validateNonEmpty (name value : String) : Check :=
  if value.toList.all Redact.isWhitespace then .error (name ++ " must be non-empty") else .ok ()

def validateTimeout : Option Int → Check
  | some t =>
    if minTimeoutSeconds ≤ t ∧ t ≤ maxTimeoutSeconds then .ok ()
    else .error s!"timeout_seconds must be between {minTimeoutSeconds} and {maxTimeoutSeconds}"
  | none => .ok ()

def validateWorkflow (cfg : Config) (workflow : String) : Check := cfg.workflows.supports workflow

def validateDescription : Option String → Check
  | some d => validateLen "description" d maxDescriptionLen
  | none => .ok ()

/-- The checks of `create`, in its order. -/
def CreatePrompt.validate (cfg : Config) (c : CreatePrompt) : Except String PromptFields := do
  validateNonEmpty "label" c.label
  validateNonEmpty "text" c.text
  validateLen "label" c.label maxLabelLen
  validateLen "text" c.text maxPromptLen
  validateDescription c.description
  validateWorkflow cfg c.workflow
  validateTimeout c.timeoutSeconds
  pure ⟨c.label, c.description, c.text, c.workflow, c.timeoutSeconds⟩

/-- A field that the body may replace: checked when given, else as it is. -/
def replace {α : Type} (check : α → Check) (current : α) : Option α → Except String α
  | some a => (check a).map fun _ => a
  | none => .ok current

/-- The checks of `update`, in its order, and the row it writes back. -/
def UpdatePrompt.apply (cfg : Config) (current : CustomPromptRow) (b : UpdatePrompt) :
    Except String PromptFields := do
  let label ← replace (fun l => do validateNonEmpty "label" l; validateLen "label" l maxLabelLen)
    current.label b.label
  let description ← replace validateDescription current.description b.description
  let text ← replace (fun t => do validateNonEmpty "text" t; validateLen "text" t maxPromptLen)
    current.text b.text
  let workflow ← replace (validateWorkflow cfg) current.workflow b.workflow
  let timeoutSeconds ← replace validateTimeout current.timeoutSeconds b.timeoutSeconds
  pure ⟨label, description, text, workflow, timeoutSeconds⟩

inductive PromptPc where
  | insert (f : PromptFields)
  | fetchNew (id : Int)
  | fetch (id : Int) (b : UpdatePrompt)
  | update (id : Int) (f : PromptFields) (now : Int)
  | refetch (id : Int)
  | delete (id now : Int)
  | answered (r : Response)
  deriving DecidableEq, Repr

namespace PromptPc

def refuse (e : AppError) : PromptPc := .answered (.error e)

/-- The row that a handler reads back to answer with. -/
def readBack (id : Int) (created : Bool) : Proc PromptPc :=
  some ⟨.sql (.fetchPrompt id), fun
    | .error e => refuse (.internal e)
    | .ok none => refuse .notFound
    | .ok (some row) => .answered (.prompt row created)⟩

def next (cfg : Config) (now : Int) : PromptPc → Proc PromptPc
  | .insert f => some ⟨.sql (.insertPrompt now f), fun
    | .error e => refuse (.internal e)
    | .ok id => .fetchNew id⟩
  | .fetchNew id => readBack id true
  | .fetch id b => some ⟨.sql (.fetchPrompt id), fun
    | .error e => refuse (.internal e)
    | .ok none => refuse .notFound
    | .ok (some current) => match b.apply cfg current with
      | .error e => refuse (.badRequest e)
      | .ok f => .update id f now⟩
  | .update id f now => some ⟨.sql (.updatePrompt now id f), fun
    | .error e => refuse (.internal e)
    | .ok () => .refetch id⟩
  | .refetch id => readBack id false
  | .delete id now => some ⟨.sql (.deletePrompt now id), fun
    | .error e => refuse (.internal e)
    | .ok n => if n = 0 then refuse .notFound else .answered .noContent⟩
  | .answered _ => none

/-- `create`, from the body. -/
def create (cfg : Config) (body : Json) : PromptPc :=
  match CreatePrompt.de body with
  | none => .answered .rejected
  | some c => match c.validate cfg with
    | .error e => refuse (.badRequest e)
    | .ok f => .insert f

/-- `update`, from the body. -/
def patch (id : Int) (body : Json) : PromptPc :=
  match UpdatePrompt.de body with
  | none => .answered .rejected
  | some b => .fetch id b

end PromptPc

end ZunServer.CustomPrompts
