import ZunServer.Retry
import ZunServer.Serde
import ZunServer.Calls

/-!
# The HTTP client of ComfyUI

`ComfyClient`: one HTTP exchange for each attempt, what is made of its answer, and
the retries around it. The server model makes one call of it all; here is that a
call with its retries is no more than that, and what a call costs in attempts, in
time and in memory.
-/
namespace ZunServer.ComfyHttp

open Serde Retry
open Schema Comfy Calls

def maxAttempts : Nat := 3
/-- In milliseconds. -/
def baseBackoff : Nat := 500
def maxJsonBytes : Nat := 8 * 1024 * 1024
def maxImageBytes : Nat := 128 * 1024 * 1024

/-- A `reqwest::Error`, with its printed chain. -/
structure HttpError where
  text : String
  isConnect : Bool
  isTimeout : Bool
  status : Option Nat
  deriving DecidableEq, Repr

/-- A response, with the chunks its body comes in and the error that cuts it short. -/
structure Reply where
  status : Nat
  contentLength : Option Nat
  chunks : List Bytes
  broken : Option HttpError
  deriving DecidableEq, Repr

/-- One request: whether ComfyUI has served it, a prompt under the id given, and what
`send` came back with. -/
structure HttpExchange where
  served : Option String
  sent : Except HttpError Reply

/-- How the handshake of `connect_ws` ends. -/
inductive Handshake where
  | connected
  | timedOut
  | failed (e : String)

inductive Exchange where
  | http (x : HttpExchange)
  | ws (o : Handshake)

/-- An `anyhow::Error`, as far as `should_retry` and `is_unreachable` look at it. -/
inductive Err where
  | http (e : HttpError)
  | unreachable (text : String)
  | other (text : String)

def isUnreachable : Err → Bool
  | .http e => e.isConnect
  | .unreachable _ => true
  | .other _ => false

def Err.chain : Err → String
  | .http e => e.text
  | .unreachable t | .other t => t

/-- What the worker looks at. -/
def Err.any (e : Err) : AnyError := ⟨e.chain, isUnreachable e⟩

/-- What `reqwest` and `serde_json` do here: the text of an error status, of a value and of the
errors of parsing, the parser, and the order a `HashMap` is walked in. -/
structure Http where
  statusText : Nat → String
  fromSlice : Bytes → Except String Json
  toText : Json → String
  entryError : Json → String
  walk : List (String × List HistoryImage) → List (String × List HistoryImage)

inductive Idempotency where
  | safe
  | connectOnly
  deriving DecidableEq, Repr

def shouldRetry (mode : Idempotency) : Err → Bool
  | .http e => match mode with
    | .connectOnly => e.isConnect
    | .safe => e.isConnect || e.isTimeout ||
      e.status.any fun code => code = 408 || code = 429 || (500 ≤ code && code < 600)
  | .unreachable _ | .other _ => false

def backoff (attempt : Nat) : Nat := baseBackoff * 2 ^ (attempt - 1)

/-- `with_retry`, with the delays it has slept. -/
def withRetry {α : Type} (mode : Idempotency) (op : World → Exchange → Option (World × Except Err α)) :
    List Exchange → World → Option (World × Except Err α × List Nat) :=
  attempts maxAttempts backoff (shouldRetry mode) op 1

/-- The loop of `read_capped`. -/
def readChunks (cap : Nat) (what : String) : Bytes → List Bytes → Option HttpError → Except Err Bytes
  | buf, [], none => .ok buf
  | _, [], some e => .error (.http e)
  | buf, chunk :: chunks, broken =>
    if buf.length + chunk.length > cap then
      .error (.other s!"{what}: body exceeded the {cap}-byte cap mid-stream")
    else readChunks cap what (buf ++ chunk) chunks broken

def readCapped (r : Reply) (cap : Nat) (what : String) : Except Err Bytes :=
  match r.contentLength with
  | some len =>
    if len > cap then
      .error (.other s!"{what}: declared body of {len} bytes exceeds the {cap}-byte cap")
    else readChunks cap what [] r.chunks r.broken
  | none => readChunks cap what [] r.chunks r.broken

def jsonCapped (http : Http) (r : Reply) (what : String) : Except Err Json := do
  let bytes ← readCapped r maxJsonBytes what
  match http.fromSlice bytes with
  | .ok v => pure v
  | .error e => throw (.other s!"{what}: invalid json: {e}")

def errorForStatus (http : Http) (r : Reply) : Except Err Reply :=
  if 400 ≤ r.status ∧ r.status < 600 then
    .error (.http ⟨http.statusText r.status, false, false, some r.status⟩)
  else .ok r

/-- `.send().await?.error_for_status()?`. -/
def reply (http : Http) (x : HttpExchange) : Except Err Reply :=
  match x.sent with
  | .ok r => errorForStatus http r
  | .error e => .error (.http e)

def historyImage : De HistoryImage
  | .object o => do
    let filename ← field none "filename" De.string o
    let subfolder ← field (some "") "subfolder" De.string o
    let type ← field (some "output") "type" De.string o
    pure ⟨filename, subfolder, type⟩
  | .array l => do
    let filename ← element none De.string l 0
    let subfolder ← element (some "") De.string l 1
    let type ← element (some "output") De.string l 2
    if 3 < l.length then none else pure ⟨filename, subfolder, type⟩
  | _ => none

def historyOutputs : De (List HistoryImage)
  | .object o => field (some []) "images" (De.array historyImage) o
  | .array l => do
    let images ← element (some []) (De.array historyImage) l 0
    if 1 < l.length then none else pure images
  | _ => none

def historyStatus : De (Bool × Option String)
  | .object o => do
    let completed ← field (some false) "completed" De.bool o
    let statusStr ← field (some none) "status_str" De.string.option o
    pure (completed, statusStr)
  | .array l => do
    let completed ← element (some false) De.bool l 0
    let statusStr ← element (some none) De.string.option l 1
    if 2 < l.length then none else pure (completed, statusStr)
  | _ => none

def historyEntry (http : Http) : De HistoryEntry
  | .object o => do
    let status ← field (some (false, none)) "status" historyStatus o
    let outputs ← field (some []) "outputs" (De.map historyOutputs) o
    pure ⟨status.1, status.2, http.walk outputs⟩
  | .array l => do
    let status ← element (some (false, none)) historyStatus l 0
    let outputs ← element (some []) (De.map historyOutputs) l 1
    if 2 < l.length then none else pure ⟨status.1, status.2, http.walk outputs⟩
  | _ => none

def nameIn (http : Http) (what key : String) (v : Json) : Except Err String :=
  match (v.get key).asStr with
  | some name => .ok name
  | none => .error (.other (what ++ " response missing `" ++ key ++ "`: " ++ http.toText v))

def uploadImageOnce (http : Http) (x : HttpExchange) : Except Err String := do
  let r ← reply http x
  let v ← jsonCapped http r "upload_image"
  nameIn http "upload_image" "name" v

def submitPromptOnce (http : Http) (x : HttpExchange) : Except Err String := do
  let r ← reply http x
  let v ← jsonCapped http r "submit_prompt"
  nameIn http "submit_prompt" "prompt_id" v

def getHistoryOnce (http : Http) (promptId : String) (x : HttpExchange) :
    Except Err (Option HistoryEntry) := do
  let r ← reply http x
  let v ← jsonCapped http r "get_history"
  match v with
  | .object o => match o.lookup promptId with
    | some entry => match historyEntry http entry with
      | some e => pure (some e)
      | none => throw (.other (http.entryError entry))
    | none => pure none
  | _ => pure none

def viewOnce (http : Http) (x : HttpExchange) : Except Err Bytes := do
  let r ← reply http x
  readCapped r maxImageBytes "view"

def interrupt (http : Http) (x : HttpExchange) : Except Err Unit := do
  let _ ← reply http x

structure ComfyClient where
  base : String
  wsBase : String

def stripPrefix (pre : String) (s : String) : Option String :=
  if pre.toList.isPrefixOf s.toList then some (String.ofList (s.toList.drop pre.length)) else none

def deriveWsBase (base : String) : String :=
  match stripPrefix "https://" base with
  | some rest => "wss://" ++ rest
  | none => match stripPrefix "http://" base with
    | some rest => "ws://" ++ rest
    | none => base

def ComfyClient.new (base : String) : ComfyClient := ⟨base, deriveWsBase base⟩

def ComfyClient.wsUrl (c : ComfyClient) (clientId : String) : String :=
  c.wsBase ++ "/ws?clientId=" ++ clientId

def ComfyClient.connectWs (c : ComfyClient) (clientId : String) : Handshake → Except Err Unit
  | .connected => .ok ()
  | .timedOut => .error (.unreachable s!"connect comfy ws {c.wsUrl clientId}: timed out after 10s")
  | .failed e => .error (.unreachable s!"connect comfy ws {c.wsUrl clientId}: {e}")

/-- What serving a request does to ComfyUI. -/
def serve (q : ComfyCall) (served : Option String) (w : World) : Option World :=
  match served, q with
  | some id, .submitPrompt wf client =>
    (w.comfy.accept ⟨id, client, some wf⟩).map fun b => { w with comfy := b }
  | some _, .interrupt => some { w with comfy := w.comfy.stop }
  | _, _ => some w

/-- One attempt. -/
def ComfyClient.once (http : Http) (c : ComfyClient) (q : ComfyCall) (w : World) (x : Exchange) :
    Option (World × Except Err q.Result) :=
  match q, x with
  | .connectWs client, .ws o => some (w, c.connectWs client o)
  | .connectWs _, .http _ => none
  | _, .ws _ => none
  | .uploadImage b n, .http x =>
    (serve (.uploadImage b n) x.served w).map fun w => (w, uploadImageOnce http x)
  | .submitPrompt wf client, .http x =>
    (serve (.submitPrompt wf client) x.served w).map fun w => (w, submitPromptOnce http x)
  | .interrupt, .http x => (serve .interrupt x.served w).map fun w => (w, interrupt http x)
  | .getHistory pid, .http x =>
    (serve (.getHistory pid) x.served w).map fun w => (w, getHistoryOnce http pid x)
  | .view img, .http x => (serve (.view img) x.served w).map fun w => (w, viewOnce http x)

/-- `submit_prompt` is retried only while no connection was made, `interrupt` and `connect_ws`
are not retried at all. -/
def mode : ComfyCall → Option Idempotency
  | .uploadImage _ _ | .getHistory _ | .view _ => some .safe
  | .submitPrompt _ _ => some .connectOnly
  | .connectWs _ | .interrupt => none

/-- A call of the client, with the delays it has slept. -/
def ComfyClient.call (http : Http) (c : ComfyClient) (q : ComfyCall) (xs : List Exchange) (w : World) :
    Option (World × Except Err q.Result × List Nat) :=
  match mode q with
  | some m => withRetry m (c.once http q) xs w
  | none => match xs with
    | [x] => (c.once http q w x).map fun (w, r) => (w, r, [])
    | _ => none

theorem readChunks_error {cap : Nat} {what : String} {buf : Bytes} {chunks : List Bytes}
    {broken : Option HttpError} {e : Err} (h : readChunks cap what buf chunks broken = .error e) :
    (∃ t, e = .other t) ∨ ∃ e', broken = some e' ∧ e = .http e' := by
  induction chunks generalizing buf with
  | nil =>
    cases broken with
    | none => cases h
    | some e' =>
      cases h
      exact .inr ⟨e', rfl, rfl⟩
  | cons chunk chunks ih =>
    rw [readChunks] at h
    split at h
    · cases h
      exact .inl ⟨_, rfl⟩
    · exact ih h

theorem readCapped_error {r : Reply} {cap : Nat} {what : String} {e : Err}
    (h : readCapped r cap what = .error e) :
    (∃ t, e = .other t) ∨ ∃ e', r.broken = some e' ∧ e = .http e' := by
  unfold readCapped at h
  split at h
  · split at h
    · cases h
      exact .inl ⟨_, rfl⟩
    · exact readChunks_error h
  · exact readChunks_error h

/-- A body that breaks off does not make the error one of the connection. -/
def BodyDocumented (x : HttpExchange) : Prop :=
  ∀ r e, x.sent = .ok r → r.broken = some e → e.isConnect = false

/-- An error that is no sign of ComfyUI being away. -/
def Reached (e : Err) : Prop := isUnreachable e = false

theorem readCapped_reached {x : HttpExchange} (hx : BodyDocumented x) {r : Reply}
    (hr : x.sent = .ok r) {cap : Nat} {what : String} {e : Err}
    (h : readCapped r cap what = .error e) : Reached e := by
  rcases readCapped_error h with ⟨t, rfl⟩ | ⟨e', hb, rfl⟩
  · rfl
  · exact hx r e' hr hb

theorem jsonCapped_reached {http : Http} {x : HttpExchange} (hx : BodyDocumented x) {r : Reply}
    (hr : x.sent = .ok r) {what : String} {e : Err} (h : jsonCapped http r what = .error e) :
    Reached e := by
  unfold jsonCapped at h
  cases hb : readCapped r maxJsonBytes what with
  | error e' =>
    rw [hb] at h
    cases h
    exact readCapped_reached hx hr hb
  | ok b =>
    rw [hb] at h
    dsimp only [bind, Except.bind] at h
    split at h <;> cases h
    rfl

theorem reply_ok {http : Http} {x : HttpExchange} {r : Reply} (h : reply http x = .ok r) :
    x.sent = .ok r := by
  unfold reply at h
  split at h
  · rename_i r' hr
    unfold errorForStatus at h
    split at h
    · cases h
    · cases h
      exact hr
  · cases h

/-- No connection was made, or the error is of another kind. -/
theorem reply_error {http : Http} {x : HttpExchange} {e : Err} (h : reply http x = .error e) :
    Reached e ∨ ∃ e', x.sent = .error e' ∧ e = .http e' := by
  unfold reply at h
  split at h
  · unfold errorForStatus at h
    split at h
    · cases h
      exact .inl rfl
    · cases h
  · rename_i e' he
    cases h
    exact .inr ⟨e', he, rfl⟩

/-- Whatever is made of a reply, an error that comes of it is of another kind. -/
theorem bind_reply_error {α : Type} {http : Http} {x : HttpExchange} {k : Reply → Except Err α}
    (hk : ∀ r e, x.sent = .ok r → k r = .error e → Reached e) {e : Err}
    (h : (reply http x >>= k) = .error e) :
    Reached e ∨ ∃ e', x.sent = .error e' ∧ e = .http e' := by
  cases hr : reply http x with
  | error e' =>
    rw [hr] at h
    cases h
    exact reply_error hr
  | ok r =>
    rw [hr] at h
    exact .inl (hk r e (reply_ok hr) h)

theorem bind_json_reached {α : Type} {http : Http} {x : HttpExchange} (hx : BodyDocumented x)
    {what : String} {k : Json → Except Err α} (hk : ∀ v e, k v = .error e → Reached e) {r : Reply}
    (hr : x.sent = .ok r) {e : Err} (h : (jsonCapped http r what >>= k) = .error e) : Reached e := by
  cases hv : jsonCapped http r what with
  | error e' =>
    rw [hv] at h
    cases h
    exact jsonCapped_reached hx hr hv
  | ok v =>
    rw [hv] at h
    exact hk v e h

theorem nameIn_reached {http : Http} {what key : String} {v : Json} {e : Err}
    (h : nameIn http what key v = .error e) : Reached e := by
  unfold nameIn at h
  split at h <;> cases h
  rfl

/-- What `reqwest` and ComfyUI document of an exchange: a request that found no connection has
not been served, a body that breaks off is no connection error, a prompt is answered with the id
it was accepted under, and an interrupt that succeeds was carried out. -/
structure Documented (http : Http) (q : ComfyCall) (x : HttpExchange) : Prop where
  connect : ∀ e, x.sent = .error e → e.isConnect = true → x.served = none
  body : BodyDocumented x
  prompt : ∀ wf client, q = .submitPrompt wf client →
    ∀ id, submitPromptOnce http x = .ok id → x.served = some id
  interrupt : q = .interrupt → interrupt http x = .ok () → x.served ≠ none

theorem submitOnce_error {http : Http} {q : ComfyCall} {x : HttpExchange} (hx : Documented http q x)
    {e : Err} (h : submitPromptOnce http x = .error e) (he : isUnreachable e = true) :
    x.served = none := by
  rcases bind_reply_error (fun r e hr => bind_json_reached hx.body (fun _ _ => nameIn_reached) hr) h
    with hreached | ⟨e', hs, rfl⟩
  · rw [hreached] at he
    cases he
  · exact hx.connect e' hs he

theorem interrupt_error {http : Http} {q : ComfyCall} {x : HttpExchange} (hx : Documented http q x)
    {e : Err} (h : interrupt http x = .error e) (he : isUnreachable e = true) : x.served = none := by
  have h' : (reply http x >>= fun _ => (pure () : Except Err Unit)) = .error e := h
  rcases bind_reply_error (fun r e _ hk => by cases hk) h' with hreached | ⟨e', hs, rfl⟩
  · rw [hreached] at he
    cases he
  · exact hx.connect e' hs he

/-- The fate of a call that fails and has not been served. -/
def failing (e : Err) : Fate := if isUnreachable e then .unreachable e.chain else .httpFails e.chain

theorem exec_failing {q : ComfyCall} (hq : ∀ client, q ≠ .connectWs client) (w : World) (e : Err) :
    exec w (.comfy q) (failing e) = some (w, .error e.any) := by
  unfold failing Err.any
  cases he : isUnreachable e <;> cases q <;> first | rfl | exact absurd rfl (hq _)

/-- A served submit that fails otherwise. -/
theorem exec_lost {w w' : World} {wf : EditWorkflow} {client id : String} {e : Err}
    (h : serve (.submitPrompt wf client) (some id) w = some w') (he : isUnreachable e = false) :
    exec w (.comfy (.submitPrompt wf client)) (.answerLost id e.chain) =
      some (w', .error e.any) := by
  obtain ⟨b, hb, rfl⟩ := Option.map_eq_some_iff.mp h
  simp only [exec, execComfy, hb, Option.map_some, Err.any, he]

/-- A read or an upload leaves ComfyUI as it is. -/
theorem once_safe {http : Http} {c : ComfyClient} {q : ComfyCall} (hq : mode q = some .safe)
    {w w' : World} {x : Exchange} {r : Except Err q.Result} (h : c.once http q w x = some (w', r)) :
    w' = w := by
  cases x with
  | ws o =>
    cases q with
    | uploadImage _ _ | getHistory _ | view _ => cases h
    | connectWs _ | submitPrompt _ _ | interrupt => cases hq
  | http x =>
    cases q with
    | uploadImage b n | getHistory pid | view img =>
      obtain ⟨v, hv, he⟩ := Option.map_eq_some_iff.mp h
      cases he
      cases hs : x.served <;> simp only [serve, hs, Option.some.injEq] at hv <;> exact hv.symm
    | connectWs _ | submitPrompt _ _ | interrupt => cases hq

theorem safe_refines {q : ComfyCall} (hq : mode q = some .safe) (w : World)
    (r : Except Err q.Result) : ∃ f, exec w (.comfy q) f = some (w, r.mapError Err.any) := by
  cases r with
  | error e => exact ⟨failing e, exec_failing (by rintro client rfl; cases hq) w e⟩
  | ok v =>
    cases q with
    | uploadImage b n => exact ⟨.name v, rfl⟩
    | getHistory pid => exact ⟨.history v, rfl⟩
    | view img => exact ⟨.body v, rfl⟩
    | connectWs _ | submitPrompt _ _ | interrupt => cases hq

theorem submit_refines {http : Http} {c : ComfyClient} {wf : EditWorkflow} {client : String}
    {w w' : World} {x : Exchange} {r : Except Err String}
    (hx : ∀ y, x = .http y → Documented http (.submitPrompt wf client) y)
    (h : c.once http (.submitPrompt wf client) w x = some (w', r)) :
    ∃ f, exec w (.comfy (.submitPrompt wf client)) f = some (w', r.mapError Err.any) := by
  cases x with
  | ws o => cases h
  | http x =>
    have hdoc := hx x rfl
    obtain ⟨v, hv, he⟩ := Option.map_eq_some_iff.mp h
    cases he
    cases hr : submitPromptOnce http x with
    | ok id =>
      rw [hdoc.prompt wf client rfl id hr] at hv
      obtain ⟨b, hb, rfl⟩ := Option.map_eq_some_iff.mp hv
      exact ⟨.name id, by simp only [exec, execComfy, hb, Option.map_some]; rfl⟩
    | error e =>
      cases hs : x.served with
      | none =>
        rw [hs] at hv
        cases hv
        exact ⟨failing e, exec_failing (by simp) w e⟩
      | some id =>
        rw [hs] at hv
        refine ⟨.answerLost id e.chain, exec_lost hv ?_⟩
        by_contra hun
        rw [submitOnce_error hdoc hr (Bool.eq_true_of_not_eq_false hun)] at hs
        cases hs

/-- A submit is tried again only when ComfyUI has not got it. -/
theorem submit_again {http : Http} {c : ComfyClient} {wf : EditWorkflow} {client : String}
    {w w' : World} {x : Exchange} {e : Err}
    (hx : ∀ y, x = .http y → Documented http (.submitPrompt wf client) y)
    (h : c.once http (.submitPrompt wf client) w x = some (w', .error e))
    (hagain : shouldRetry .connectOnly e = true) : w' = w := by
  cases x with
  | ws o => cases h
  | http x =>
    obtain ⟨v, hv, he⟩ := Option.map_eq_some_iff.mp h
    obtain ⟨rfl, hr⟩ := Prod.mk.inj he
    have hun : isUnreachable e = true := by
      cases e with
      | http e => exact hagain
      | unreachable t | other t => cases hagain
    rw [submitOnce_error (hx x rfl) hr hun] at hv
    exact (Option.some.inj hv).symm

theorem interrupt_refines {http : Http} {c : ComfyClient} {w w' : World} {x : Exchange}
    {r : Except Err Unit} (hx : ∀ y, x = .http y → Documented http .interrupt y)
    (h : c.once http .interrupt w x = some (w', r)) :
    ∃ f, exec w (.comfy .interrupt) f = some (w', r.mapError Err.any) := by
  cases x with
  | ws o => cases h
  | http x =>
    have hdoc := hx x rfl
    obtain ⟨v, hv, he⟩ := Option.map_eq_some_iff.mp h
    cases he
    cases hr : interrupt http x with
    | ok u =>
      obtain ⟨id, hs⟩ := Option.ne_none_iff_exists'.mp (hdoc.interrupt rfl hr)
      rw [hs] at hv
      cases hv
      exact ⟨.ok, rfl⟩
    | error e =>
      cases hs : x.served with
      | none =>
        rw [hs] at hv
        cases hv
        exact ⟨failing e, exec_failing (by simp) w e⟩
      | some id =>
        rw [hs] at hv
        cases hv
        have he : isUnreachable e = false := by
          by_contra hun
          rw [interrupt_error hdoc hr (Bool.eq_true_of_not_eq_false hun)] at hs
          cases hs
        refine ⟨.answerLost id e.chain, ?_⟩
        simp only [exec, execComfy, Except.mapError, Err.any, he]

theorem connect_refines {http : Http} {c : ComfyClient} {client : String} {w w' : World}
    {x : Exchange} {r : Except Err Unit} (h : c.once http (.connectWs client) w x = some (w', r)) :
    ∃ f, exec w (.comfy (.connectWs client)) f = some (w', r.mapError Err.any) := by
  cases x with
  | http x => cases h
  | ws o =>
    obtain ⟨rfl, rfl⟩ := Prod.mk.inj (Option.some.inj h)
    cases o with
    | connected => exact ⟨.ok, rfl⟩
    | timedOut | failed e => exact ⟨.httpFails _, rfl⟩

/-- Every call of the client, with all its attempts, is one call of the server model:
there is a fate under which the latter leads to the same state of ComfyUI and to the
same result, also in whether the error says that ComfyUI was away. Above all a submit
is accepted at most once. -/
theorem call_refines {http : Http} {c : ComfyClient} {q : ComfyCall} {xs : List Exchange}
    {w w' : World} {r : Except Err q.Result} {slept : List Nat}
    (hx : ∀ x, .http x ∈ xs → Documented http q x)
    (h : c.call http q xs w = some (w', r, slept)) :
    ∃ f, exec w (.comfy q) f = some (w', r.mapError Err.any) := by
  have single : ∀ {x}, mode q = none → xs = [x] → c.once http q w x = some (w', r) →
      ∃ f, exec w (.comfy q) f = some (w', r.mapError Err.any) := by
    rintro x hq rfl hop
    cases q with
    | connectWs client => exact connect_refines hop
    | interrupt => exact interrupt_refines (fun y hy => hx y (by simp [hy])) hop
    | uploadImage _ _ | submitPrompt _ _ | getHistory _ | view _ => cases hq
  unfold ComfyClient.call at h
  split at h
  · rename_i m hq
    obtain ⟨htries, -⟩ := attempts_spec (by decide) h
    cases m with
    | safe =>
      obtain ⟨v, x, rfl, -, hop⟩ := htries.final (I := fun v => v = w)
        (fun x _ s v e hs hop _ => (once_safe hq hop).trans hs) rfl
      obtain rfl := once_safe hq hop
      exact safe_refines hq _ r
    | connectOnly =>
      cases q with
      | submitPrompt wf client =>
        have hsub : ∀ x ∈ xs, ∀ y, x = .http y → Documented http (.submitPrompt wf client) y :=
          fun x hmem y hy => hx y (hy ▸ hmem)
        obtain ⟨v, x, rfl, hmem, hop⟩ := htries.final (I := fun v => v = w)
          (fun x hmem s v e hs hop he => (submit_again (hsub x hmem) hop he).trans hs) rfl
        exact submit_refines (hsub x hmem) hop
      | connectWs _ | uploadImage _ _ | interrupt | getHistory _ | view _ => cases hq
  · rename_i hq
    split at h
    · obtain ⟨⟨v, r'⟩, hop, he⟩ := Option.map_eq_some_iff.mp h
      cases he
      exact single hq rfl hop
    · cases h

/-- `{"prompt_id":"p1"}`. -/
def promptBody : Bytes :=
  [123, 34, 112, 114, 111, 109, 112, 116, 95, 105, 100, 34, 58, 34, 112, 49, 34, 125]

/-- As the libraries do on this body. -/
def sampleHttp : Http where
  statusText _ := "HTTP status error"
  fromSlice b := if b = promptBody then .ok (.object [("prompt_id", .string "p1")])
    else .error "expected value"
  toText _ := ""
  entryError _ := "invalid type"
  walk o := o

def refused : HttpExchange := ⟨none, .error ⟨"error sending request", true, false, none⟩⟩

/-- The body comes in two chunks. -/
def acceptedReply : HttpExchange :=
  ⟨some "p1", .ok ⟨200, some 18, [promptBody.take 7, promptBody.drop 7], none⟩⟩

def sampleWorkflow : EditWorkflow := ⟨"edit", "make it blue", "up.png", "j", 7⟩

theorem call_refines_retried : ∃ w' slept f,
    (ComfyClient.new "http://127.0.0.1:8188").call sampleHttp (.submitPrompt sampleWorkflow "c")
      [.http refused, .http acceptedReply] World.empty = some (w', .ok "p1", slept) ∧
    w'.comfy.pending.length = 1 ∧
    exec World.empty (.comfy (.submitPrompt sampleWorkflow "c")) f = some (w', .ok "p1") := by
  have hsubmit : submitPromptOnce sampleHttp acceptedReply = .ok "p1" := by rfl
  have hcall : (ComfyClient.new "http://127.0.0.1:8188").call sampleHttp
      (.submitPrompt sampleWorkflow "c") [.http refused, .http acceptedReply] World.empty =
      some ({ World.empty with comfy := ⟨none, [⟨"p1", "c", some sampleWorkflow⟩], []⟩ }, .ok "p1",
        [500]) := by rfl
  have hdoc : ∀ x, .http x ∈ [Exchange.http refused, .http acceptedReply] →
      Documented sampleHttp (.submitPrompt sampleWorkflow "c") x := by
    intro x hx
    simp only [List.mem_cons, Exchange.http.injEq, List.not_mem_nil, or_false] at hx
    rcases hx with rfl | rfl
    · exact ⟨fun _ _ _ => rfl, fun _ _ h _ => (nomatch h), fun _ _ _ _ h => (nomatch h),
        fun h => (nomatch h)⟩
    · refine ⟨fun _ h => (nomatch h), fun r e h hb => ?_, fun _ _ _ id h => ?_,
        fun h => (nomatch h)⟩
      · cases h
        cases hb
      · rw [hsubmit] at h
        exact congrArg some (Except.ok.inj h)
  obtain ⟨f, hf⟩ := call_refines hdoc hcall
  exact ⟨_, _, f, hcall, rfl, hf⟩

/-- A call makes three attempts at most and sleeps 0.5 and 1 seconds in between. Every
attempt but the last fails with an error its mode tries again, and it gives such an
error back only after the third; a call without a mode makes one attempt. -/
theorem call_attempts {http : Http} {c : ComfyClient} {q : ComfyCall} {xs : List Exchange}
    {w w' : World} {r : Except Err q.Result} {slept : List Nat}
    (h : c.call http q xs w = some (w', r, slept)) :
    slept = [500, 1000].take (xs.length - 1) ∧
    (∀ m, mode q = some m → Tries (shouldRetry m) (c.once http q) xs w w' r ∧ xs.length ≤ 3 ∧
      ∀ e, r = .error e → shouldRetry m e = true → xs.length = 3) ∧
    (mode q = none → xs.length = 1) := by
  unfold ComfyClient.call at h
  split at h
  · rename_i m hq
    obtain ⟨htries, hlen, hgave, hslept⟩ := attempts_spec (by decide) h
    have hmax : xs.length ≤ 3 := by
      simp only [maxAttempts] at hlen
      omega
    refine ⟨?_, fun m' hm' => ?_, fun hnone => by rw [hq] at hnone; cases hnone⟩
    · have hpos := htries.length_pos
      rw [hslept]
      obtain hn | hn | hn : xs.length = 1 ∨ xs.length = 2 ∨ xs.length = 3 := by omega
      all_goals rw [hn]; decide
    · obtain rfl := Option.some.inj (hq.symm.trans hm')
      refine ⟨htries, hmax, fun e he hagain => ?_⟩
      have := hgave e he hagain
      simp only [maxAttempts] at this
      omega
  · rename_i hq
    split at h
    · obtain ⟨⟨v, r'⟩, -, he⟩ := Option.map_eq_some_iff.mp h
      cases he
      refine ⟨rfl, fun m hm => ?_, fun _ => rfl⟩
      rw [hq] at hm
      cases hm
    · cases h

theorem call_attempts_retried : ∃ w', (ComfyClient.new "http://127.0.0.1:8188").call sampleHttp
      (.submitPrompt sampleWorkflow "c") [.http refused, .http acceptedReply] World.empty =
        some (w', .ok "p1", [500]) ∧ [500] = [500, 1000].take (2 - 1) :=
  have hcall : (ComfyClient.new "http://127.0.0.1:8188").call sampleHttp
      (.submitPrompt sampleWorkflow "c") [.http refused, .http acceptedReply] World.empty =
      some ({ World.empty with comfy := ⟨none, [⟨"p1", "c", some sampleWorkflow⟩], []⟩ }, .ok "p1",
        [500]) := rfl
  ⟨_, hcall, (call_attempts hcall).1⟩

theorem readChunks_ok {cap : Nat} {what : String} {buf b : Bytes} {chunks : List Bytes}
    {broken : Option HttpError} (hbuf : buf.length ≤ cap) :
    readChunks cap what buf chunks broken = .ok b ↔
      broken = none ∧ b = buf ++ chunks.flatten ∧ b.length ≤ cap := by
  induction chunks generalizing buf with
  | nil =>
    cases broken with
    | none =>
      simp only [readChunks, Except.ok.injEq, List.flatten_nil, List.append_nil, true_and]
      exact ⟨fun he => ⟨he.symm, he ▸ hbuf⟩, fun he => he.1.symm⟩
    | some e => simp [readChunks]
  | cons chunk chunks ih =>
    rw [readChunks]
    split
    · rename_i hgt
      simp only [reduceCtorEq, List.flatten_cons, false_iff, not_and, Nat.not_le]
      rintro - rfl
      simp only [List.length_append]
      omega
    · rename_i hle
      rw [ih (by simp only [List.length_append]; omega), List.flatten_cons, List.append_assoc]

/-- Once more than `cap` bytes have come, what else would come is not read. -/
theorem readChunks_stops {cap : Nat} {what : String} {buf : Bytes} {pre : List Bytes}
    (hgt : cap < (buf ++ pre.flatten).length) (hbuf : buf.length ≤ cap) (more : List Bytes)
    (broken : Option HttpError) : readChunks cap what buf (pre ++ more) broken =
      .error (.other s!"{what}: body exceeded the {cap}-byte cap mid-stream") := by
  induction pre generalizing buf with
  | nil =>
    simp only [List.flatten_nil, List.append_nil] at hgt
    omega
  | cons chunk pre ih =>
    rw [List.cons_append, readChunks]
    split
    · rfl
    · rename_i hle
      refine ih ?_ (by simp only [List.length_append]; omega)
      rwa [List.append_assoc]

/-- How a complete body is cut into chunks makes no difference. -/
theorem readChunks_flatten {cap : Nat} {what : String} {chunks chunks' : List Bytes}
    (h : chunks'.flatten = chunks.flatten) :
    readChunks cap what [] chunks' none = readChunks cap what [] chunks none := by
  by_cases hle : chunks.flatten.length ≤ cap
  · have hok : readChunks cap what [] chunks none = .ok chunks.flatten :=
      (readChunks_ok (Nat.zero_le cap)).mpr ⟨rfl, rfl, hle⟩
    rw [hok]
    exact (readChunks_ok (Nat.zero_le cap)).mpr ⟨rfl, h.symm, hle⟩
  · have stops : ∀ l : List Bytes, cap < l.flatten.length → readChunks cap what [] l none =
        .error (.other s!"{what}: body exceeded the {cap}-byte cap mid-stream") := by
      intro l hgt
      rw [← List.append_nil l]
      exact readChunks_stops hgt (Nat.zero_le cap) [] none
    have hgt := Nat.lt_of_not_le hle
    rw [stops chunks hgt, stops chunks' (h ▸ hgt)]

/-- The declared length is looked at first. -/
theorem readCapped_cases (r : Reply) (cap : Nat) (what : String) :
    (∃ len, r.contentLength = some len ∧ cap < len ∧ readCapped r cap what =
      .error (.other s!"{what}: declared body of {len} bytes exceeds the {cap}-byte cap")) ∨
    (∀ len ∈ r.contentLength, len ≤ cap) ∧
      readCapped r cap what = readChunks cap what [] r.chunks r.broken := by
  unfold readCapped
  cases r.contentLength with
  | none => exact .inr ⟨by simp, rfl⟩
  | some len =>
    by_cases hlen : cap < len
    · exact .inl ⟨len, rfl, hlen, if_pos hlen⟩
    · refine .inr ⟨fun l hl => ?_, if_neg hlen⟩
      obtain rfl := Option.some.inj hl
      omega

/-- With the same declared length, the bodies decide. -/
theorem readCapped_congr {r r' : Reply} {cap : Nat} {what : String}
    (hlen : r'.contentLength = r.contentLength)
    (h : readChunks cap what [] r'.chunks r'.broken = readChunks cap what [] r.chunks r.broken) :
    readCapped r' cap what = readCapped r cap what := by
  unfold readCapped
  rw [hlen, h]

/-- `read_capped` gives back a body just when it is complete and no longer than the cap,
in what it declares and in what comes, and then gives all of it; how it is cut into
chunks makes no difference. Of a body that is longer it reads no more than what
takes it over the cap, however much would follow. -/
theorem readCapped_spec (r : Reply) (cap : Nat) (what : String) :
    (∀ b, readCapped r cap what = .ok b ↔ r.broken = none ∧ b = r.chunks.flatten ∧
      b.length ≤ cap ∧ ∀ len ∈ r.contentLength, len ≤ cap) ∧
    (∀ r', r'.contentLength = r.contentLength → r'.chunks.flatten = r.chunks.flatten →
      r'.broken = none → r.broken = none → readCapped r' cap what = readCapped r cap what) ∧
    ∀ pre more more' broken', r.chunks = pre ++ more → cap < pre.flatten.length →
      readCapped { r with chunks := pre ++ more', broken := broken' } cap what =
        readCapped r cap what := by
  refine ⟨fun b => ?_, fun r' hlen hflat hb' hb => ?_, fun pre more more' broken' hr hgt => ?_⟩
  · rcases readCapped_cases r cap what with ⟨len, hlen, hgt, he⟩ | ⟨hle, he⟩
    · rw [he]
      simp only [reduceCtorEq, false_iff, not_and]
      exact fun _ _ _ hle => absurd (hle len hlen) (Nat.not_le.mpr hgt)
    · rw [he, readChunks_ok (Nat.zero_le cap), List.nil_append]
      exact ⟨fun ⟨h₁, h₂, h₃⟩ => ⟨h₁, h₂, h₃, hle⟩, fun ⟨h₁, h₂, h₃, _⟩ => ⟨h₁, h₂, h₃⟩⟩
  · refine readCapped_congr hlen ?_
    rw [hb', hb]
    exact readChunks_flatten hflat
  · refine readCapped_congr rfl ?_
    rw [hr, readChunks_stops hgt (Nat.zero_le cap), readChunks_stops hgt (Nat.zero_le cap)]

end ZunServer.ComfyHttp
