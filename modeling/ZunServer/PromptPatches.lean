import ZunServer.Server

/-!
# A patch of a prompt

`PATCH /prompts/{id}` on a live prompt, from the body to the answer: what the
body says of each column, and what the stored row becomes. The bodies of the
nullable columns are `Option<Option<_>>` under a plain `#[serde(default)]`, so a
`null` reads like an absent key.
-/
namespace ZunServer.PromptPatches

open KeyedTable Serde
open Schema Statements Database Calls CustomPrompts Server

abbrev runPatch (cfg : Config) : List Fate → World × PromptPc → Option (World × PromptPc) :=
  Runs.run (alone fun now pc => pc.next cfg now)

abbrev Object := List (String × Json)

/-- A text column takes the string its key carries. -/
structure TextSet (key : String) (o : Object) (old new : String) : Prop where
  given : ∀ s, valuesAt key o = [.string s] → new = s
  kept : (∀ s, valuesAt key o ≠ [.string s]) → new = old

/-- A nullable column takes the value its key carries, `null` among them. -/
structure ColumnSet {α : Type} (de : De α) (key : String) (o : Object) (old new : Option α) :
    Prop where
  given : ∀ v a, valuesAt key o = [v] → de v = some a → new = some a
  cleared : valuesAt key o = [.null] → new = none
  kept : valuesAt key o = [] → new = old

structure Patched (o : Object) (r r' : PromptRow) : Prop where
  label : TextSet "label" o r.label r'.label
  text : TextSet "text" o r.text r'.text
  workflow : TextSet "workflow" o r.workflow r'.workflow
  description : ColumnSet De.string "description" o r.description r'.description
  timeoutSeconds : ColumnSet De.i64 "timeout_seconds" o r.timeoutSeconds r'.timeoutSeconds
  id : r'.id = r.id
  createdAt : r'.createdAt = r.createdAt

/-- `200` patches the row, any other answer leaves it as it is. -/
def Meets (o : Object) (r : PromptRow) (after : Option PromptRow) : Response → Prop
  | .prompt _ false => ∃ r', after = some r' ∧ Patched o r r'
  | _ => after = some r

/-- A `null` is given only for a column that is `NULL` already. -/
structure NullsIdle (o : Object) (r : PromptRow) : Prop where
  description : valuesAt "description" o = [.null] → r.description = none
  timeoutSeconds : valuesAt "timeout_seconds" o = [.null] → r.timeoutSeconds = none

/-- What the body carries is what is stored, and was stored this second. -/
structure Idle (o : Object) (now : Int) (r : PromptRow) : Prop where
  label : ∀ s, valuesAt "label" o = [.string s] → r.label = s
  text : ∀ s, valuesAt "text" o = [.string s] → r.text = s
  workflow : ∀ s, valuesAt "workflow" o = [.string s] → r.workflow = s
  description : ∀ v d, valuesAt "description" o = [v] → De.string v = some d →
    r.description = some d
  timeoutSeconds : ∀ v t, valuesAt "timeout_seconds" o = [v] → De.i64 v = some t →
    r.timeoutSeconds = some t
  updatedAt : r.updatedAt = now

theorem option_field {α : Type} {de : De α} {key : String} {o : Object} {x : Option α}
    (h : field (some none) key de.option o = some x) :
    (x = none ∧ (valuesAt key o = [] ∨ valuesAt key o = [.null])) ∨
    ∃ v a, valuesAt key o = [v] ∧ v ≠ .null ∧ de v = some a ∧ x = some a := by
  rcases field_some h with ⟨habs, hx⟩ | ⟨v, hv, hx⟩
  · exact .inl ⟨(Option.some.inj hx).symm, .inl habs⟩
  · by_cases hnull : v = .null
    · subst hnull
      exact .inl ⟨(Option.some.inj hx).symm, .inr hv⟩
    · rw [De.option_value de hnull] at hx
      obtain ⟨a, ha, rfl⟩ := Option.map_eq_some_iff.mp hx
      exact .inr ⟨v, a, hv, hnull, ha, rfl⟩

theorem string_some {v : Json} {s : String} (h : De.string v = some s) : v = .string s := by
  cases v <;> simp_all [De.string]

theorem text_field {key : String} {o : Object} {x : Option String}
    (h : field (some none) key De.string.option o = some x) (s : String) :
    valuesAt key o = [.string s] ↔ x = some s := by
  rcases option_field h with ⟨rfl, hv | hv⟩ | ⟨v, a, hv, -, ha, rfl⟩
  · simp [hv]
  · simp [hv]
  · obtain rfl := string_some ha
    simp [hv]

theorem text_set {key : String} {o : Object} {x : Option String}
    (h : field (some none) key De.string.option o = some x) (old : String) :
    TextSet key o old (x.getD old) where
  given s hs := by simp [(text_field h s).mp hs]
  kept hnone := by
    cases x with
    | none => rfl
    | some s => exact absurd ((text_field h s).mpr rfl) (hnone s)

theorem text_idle {key : String} {o : Object} {x : Option String}
    (h : field (some none) key De.string.option o = some x) (old : String) :
    x.getD old = old ↔ ∀ s, valuesAt key o = [.string s] → old = s := by
  simp only [text_field h]
  cases x with
  | none => simp
  | some s => simp [eq_comm]

/-- A nullable column is set as asked, except that `null` leaves it as it is. -/
theorem column_set {α : Type} {de : De α} (hde : de .null = none) {key : String} {o : Object}
    {x : Option (Option α)} (h : field (some none) key de.option.option o = some x)
    (old : Option α) :
    ColumnSet de key o old (x.getD old) ↔ (valuesAt key o = [.null] → old = none) := by
  rcases option_field h with ⟨rfl, hv | hv⟩ | ⟨v, a, hv, hnull, ha, rfl⟩
  · constructor
    · intro _ hn
      simp [hv] at hn
    · intro _
      exact ⟨by simp [hv], by simp [hv], fun _ => rfl⟩
  · constructor
    · exact fun hset => hset.cleared
    · intro hold
      refine ⟨fun v a hv' ha => ?_, fun _ => hold hv, by simp [hv]⟩
      obtain rfl : Json.null = v := by simpa [hv] using hv'
      rw [hde] at ha
      cases ha
  · rw [De.option_value de hnull] at ha
    obtain ⟨d, hd, rfl⟩ := Option.map_eq_some_iff.mp ha
    constructor
    · intro _ hn
      exact absurd (by simpa [hv] using hn) hnull
    · intro _
      refine ⟨fun v' a hv' ha => ?_, fun hn => absurd (by simpa [hv] using hn) hnull, by simp [hv]⟩
      obtain rfl : v = v' := by simpa [hv] using hv'
      exact hd.symm.trans ha

theorem column_idle {α : Type} {de : De α} (hde : de .null = none) {key : String} {o : Object}
    {x : Option (Option α)} (h : field (some none) key de.option.option o = some x)
    (old : Option α) :
    x.getD old = old ↔ ∀ v a, valuesAt key o = [v] → de v = some a → old = some a := by
  rcases option_field h with ⟨rfl, hv | hv⟩ | ⟨v, a, hv, hnull, ha, rfl⟩
  · simp [hv]
  · constructor
    · intro _ v a hv' ha
      obtain rfl : Json.null = v := by simpa [hv] using hv'
      rw [hde] at ha
      cases ha
    · exact fun _ => rfl
  · rw [De.option_value de hnull] at ha
    obtain ⟨d, hd, rfl⟩ := Option.map_eq_some_iff.mp ha
    constructor
    · intro hold v' a hv' ha
      obtain rfl : v = v' := by simpa [hv] using hv'
      exact hold.symm.trans (hd.symm.trans ha)
    · exact fun hold => (hold v d hv hd).symm

theorem de_fields {o : Object} {b : UpdatePrompt} (h : UpdatePrompt.de (.object o) = some b) :
    field (some none) "label" De.string.option o = some b.label ∧
    field (some none) "description" De.string.option.option o = some b.description ∧
    field (some none) "text" De.string.option o = some b.text ∧
    field (some none) "workflow" De.string.option o = some b.workflow ∧
    field (some none) "timeout_seconds" De.i64.option.option o = some b.timeoutSeconds := by
  simp only [UpdatePrompt.de, bind, Option.bind_eq_some_iff, pure, Option.some.injEq] at h
  obtain ⟨_, hl, _, hd, _, ht, _, hw, _, hs, rfl⟩ := h
  exact ⟨hl, hd, ht, hw, hs⟩

theorem replace_any {α : Type} {check : α → Check} {c a : α} {x : Option α}
    (h : replace check c x = .ok a) (c' : α) : replace check c' x = .ok (x.getD c') := by
  cases x with
  | none => rfl
  | some b =>
    simp only [replace] at h ⊢
    cases hc : check b with
    | error e =>
      rw [hc] at h
      cases h
    | ok _ => rfl

theorem bind_ok {ε α β : Type} {x : Except ε α} {k : α → Except ε β} {b : β}
    (h : x >>= k = .ok b) : ∃ a, x = .ok a ∧ k a = .ok b := by
  cases x with
  | error e => cases h
  | ok a => exact ⟨a, rfl, h⟩

/-- The checks look at the body alone. -/
theorem apply_any {cfg : Config} {b : UpdatePrompt} {c : CustomPromptRow} {f : PromptFields}
    (h : b.apply cfg c = .ok f) (c' : CustomPromptRow) : b.apply cfg c' =
      .ok ⟨b.label.getD c'.label, b.description.getD c'.description, b.text.getD c'.text,
        b.workflow.getD c'.workflow, b.timeoutSeconds.getD c'.timeoutSeconds⟩ := by
  obtain ⟨label, hl, h⟩ := bind_ok h
  obtain ⟨description, hd, h⟩ := bind_ok h
  obtain ⟨text, ht, h⟩ := bind_ok h
  obtain ⟨workflow, hw, h⟩ := bind_ok h
  obtain ⟨timeoutSeconds, hs, h⟩ := bind_ok h
  unfold UpdatePrompt.apply
  rw [replace_any hl, replace_any hd, replace_any ht, replace_any hw, replace_any hs]
  rfl

theorem apply_ok {cfg : Config} {r : CustomPromptRow} {b : UpdatePrompt} {f : PromptFields}
    (h : b.apply cfg r = .ok f) :
    f = ⟨b.label.getD r.label, b.description.getD r.description, b.text.getD r.text,
      b.workflow.getD r.workflow, b.timeoutSeconds.getD r.timeoutSeconds⟩ :=
  Except.ok.inj (h.symm.trans (apply_any h r))

/-- The row after the `UPDATE` of a body on a row. -/
def written (b : UpdatePrompt) (now : Int) (r : PromptRow) : PromptRow :=
  { r with label := b.label.getD r.label, description := b.description.getD r.description,
           text := b.text.getD r.text, workflow := b.workflow.getD r.workflow,
           timeoutSeconds := b.timeoutSeconds.getD r.timeoutSeconds, updatedAt := now }

theorem written_patched {o : Object} {b : UpdatePrompt} (h : UpdatePrompt.de (.object o) = some b)
    (now : Int) (r : PromptRow) : Patched o r (written b now r) ↔ NullsIdle o r := by
  obtain ⟨hl, hd, ht, hw, hs⟩ := de_fields h
  constructor
  · intro hp
    exact ⟨(column_set rfl hd r.description).mp hp.description,
      (column_set rfl hs r.timeoutSeconds).mp hp.timeoutSeconds⟩
  · intro hn
    exact ⟨text_set hl _, text_set ht _, text_set hw _, (column_set rfl hd _).mpr hn.description,
      (column_set rfl hs _).mpr hn.timeoutSeconds, rfl, rfl⟩

theorem written_idle {o : Object} {b : UpdatePrompt} (h : UpdatePrompt.de (.object o) = some b)
    (now : Int) (r : PromptRow) : written b now r = r ↔ Idle o now r := by
  obtain ⟨hl, hd, ht, hw, hs⟩ := de_fields h
  have hcols : written b now r = r ↔ b.label.getD r.label = r.label ∧
      b.description.getD r.description = r.description ∧ b.text.getD r.text = r.text ∧
      b.workflow.getD r.workflow = r.workflow ∧
      b.timeoutSeconds.getD r.timeoutSeconds = r.timeoutSeconds ∧ now = r.updatedAt := by
    cases r
    simp [written]
  rw [hcols, text_idle hl, text_idle ht, text_idle hw, column_idle rfl hd, column_idle rfl hs]
  constructor
  · rintro ⟨h₁, h₂, h₃, h₄, h₅, h₆⟩
    exact ⟨h₁, h₃, h₄, h₂, h₅, h₆.symm⟩
  · rintro ⟨h₁, h₂, h₃, h₄, h₅, h₆⟩
    exact ⟨h₁, h₄, h₂, h₃, h₅, h₆.symm⟩

/-- The three ends of a patch: before its `UPDATE`, after the row was read back,
and in between. -/
inductive PatchRun (o : Object) (r : PromptRow) (w w' : World) (id : Int) (fs : List Fate) :
    Response → Prop
  | refused {resp : Response} (row : w'.db.prompts.find? id = some r)
      (short : fs.length < 3) (hresp : ∀ row, resp ≠ .prompt row false) :
      PatchRun o r w w' id fs resp
  | patched {b : UpdatePrompt} (body : UpdatePrompt.de (.object o) = some b)
      (row : w'.db.prompts.find? id = some (written b w.now r)) (calls : fs = [.ok, .ok, .ok]) :
      PatchRun o r w w' id fs (.prompt (.of (written b w.now r)) false)
  | unread {b : UpdatePrompt} {e : String} (body : UpdatePrompt.de (.object o) = some b)
      (row : w'.db.prompts.find? id = some (written b w.now r))
      (calls : fs = [.ok, .ok, .sqlFails e]) : PatchRun o r w w' id fs (.error (.internal e))

theorem answered_run {cfg : Config} {fs : List Fate} {w w' : World} {resp resp' : Response}
    (h : runPatch cfg fs (w, .answered resp) = some (w', .answered resp')) :
    fs = [] ∧ w' = w ∧ resp' = resp := by
  cases fs with
  | nil =>
    cases h
    exact ⟨rfl, rfl, rfl⟩
  | cons f fs =>
    obtain ⟨m, hm, -⟩ := Runs.run_cons_some.mp h
    cases hm

/-- A handler that is not through makes its next call. -/
theorem call_run {cfg : Config} {fs : List Fate} {w w' : World} {pc : PromptPc} {resp : Response}
    {q : Sql} {k : Except String q.Result → PromptPc} (hpc : pc.next cfg w.now = some ⟨.sql q, k⟩)
    {db : Db} {a : q.Result} (hq : q.run w.db = .ok (db, a))
    (h : runPatch cfg fs (w, pc) = some (w', .answered resp)) :
    (∃ rest, fs = .ok :: rest ∧
      runPatch cfg rest ({ w with db := db }, k (.ok a)) = some (w', .answered resp)) ∨
    ∃ e rest, fs = .sqlFails e :: rest ∧
      runPatch cfg rest (w, k (.error e)) = some (w', .answered resp) := by
  cases fs with
  | nil =>
    cases h
    cases hpc
  | cons f rest =>
    obtain ⟨⟨m, pc'⟩, hm, hrest⟩ := Runs.run_cons_some.mp h
    have hcall : perform (some ⟨.sql q, k⟩) f w = some (m, pc') := hpc ▸ hm
    obtain ⟨⟨_, x⟩, hex, hk⟩ := Option.map_eq_some_iff.mp hcall
    cases hk
    rcases exec_sql hq hex with ⟨rfl, rfl, rfl⟩ | ⟨e, rfl, rfl, rfl⟩
    · exact .inl ⟨rest, rfl, hrest⟩
    · exact .inr ⟨e, rest, rfl, hrest⟩

theorem fetch_live {db : Db} {id : Int} {r : PromptRow} (hr : db.prompts.find? id = some r)
    (hlive : r.deletedAt = none) : (Sql.fetchPrompt id).run db = .ok (db, some (.of r)) := by
  simp [Sql.run, hr, hlive]

theorem updatePrompt_row {cfg : Config} {r : PromptRow} {b : UpdatePrompt} {f : PromptFields}
    (now : Int) (hf : b.apply cfg (.of r) = .ok f) :
    (Database.updatePrompt now r.id f).row r = written b now r := by
  rw [apply_ok hf, Update.row_of_cond _ (by simp [Database.updatePrompt])]
  rfl

theorem update_written {cfg : Config} {w : World} {id : Int} {r : PromptRow} {b : UpdatePrompt}
    {f : PromptFields} (hr : w.db.prompts.find? id = some r) (hf : b.apply cfg (.of r) = .ok f) :
    (w.db.prompts.update (Database.updatePrompt w.now id f)).find? id =
      some (written b w.now r) := by
  obtain rfl : r.id = id := Table.find?_key hr
  rw [Table.find?_update, hr, Option.map_some, updatePrompt_row w.now hf]

theorem patch_run {cfg : Config} {o : Object} {r : PromptRow} {w w' : World} {id : Int}
    {fs : List Fate} {resp : Response} (hr : w.db.prompts.find? id = some r)
    (hlive : r.deletedAt = none)
    (h : runPatch cfg fs (w, .patch id (.object o)) = some (w', .answered resp)) :
    PatchRun o r w w' id fs resp := by
  unfold PromptPc.patch at h
  cases hb : UpdatePrompt.de (.object o) with
  | none =>
    rw [hb] at h
    obtain ⟨rfl, rfl, rfl⟩ := answered_run h
    exact .refused hr (by simp) (by simp)
  | some b =>
    rw [hb] at h
    rcases call_run rfl (fetch_live hr hlive) h with ⟨rest, rfl, h₁⟩ | ⟨e, rest, rfl, h₁⟩
    · dsimp only at h₁
      cases hf : b.apply cfg (.of r) with
      | error e =>
        rw [hf] at h₁
        obtain ⟨rfl, rfl, rfl⟩ := answered_run h₁
        exact .refused hr (by simp) (by simp)
      | ok f =>
        rw [hf] at h₁
        have hrow := update_written hr hf
        rcases call_run rfl rfl h₁ with ⟨rest, rfl, h₂⟩ | ⟨e, rest, rfl, h₂⟩
        · let db := { w.db with prompts := w.db.prompts.update (Database.updatePrompt w.now id f) }
          have hread : (Sql.fetchPrompt id).run db = .ok (db, some (.of (written b w.now r))) :=
            fetch_live hrow hlive
          rcases call_run rfl hread h₂ with ⟨rest, rfl, h₃⟩ | ⟨e, rest, rfl, h₃⟩
          · obtain ⟨rfl, rfl, rfl⟩ := answered_run h₃
            exact .patched hb hrow rfl
          · obtain ⟨rfl, rfl, rfl⟩ := answered_run h₃
            exact .unread hb hrow rfl
        · obtain ⟨rfl, rfl, rfl⟩ := answered_run h₂
          exact .refused hr (by simp) (by simp)
    · obtain ⟨rfl, rfl, rfl⟩ := answered_run h₁
      exact .refused hr (by simp) (by simp)

/-- The request among the tasks of the server, the others standing still. -/
theorem patch_alone {cfg : Config} {s : State} {i : Nat} {id : Int} {body : Json} {fs : List Fate}
    {w' : World} {pc' : PromptPc} (hi : s.tasks[i]? = some (.prompt (.patch id body)))
    (h : runPatch cfg fs (s.world, .patch id body) = some (w', pc')) :
    Server.run cfg (fs.map (.task i)) s = some ⟨w', s.worker, s.tasks.set i (.prompt pc')⟩ :=
  run_alone ServerTask.prompt (fun now pc => PromptPc.next cfg now pc) (fun _ _ => rfl) hi h

/-- A patch does what is asked of it exactly if, when it goes through, a `null`
is given only for a column that is `NULL` already, and, when the row cannot be
read back after the `UPDATE`, the `UPDATE` wrote what was there. -/
theorem patch_meets {cfg : Config} {o : Object} {r : PromptRow} {w w' : World} {id : Int}
    {fs : List Fate} {resp : Response} (hr : w.db.prompts.find? id = some r)
    (hlive : r.deletedAt = none)
    (h : runPatch cfg fs (w, .patch id (.object o)) = some (w', .answered resp)) :
    Meets o r (w'.db.prompts.find? id) resp ↔
      (fs = [.ok, .ok, .ok] → NullsIdle o r) ∧
      ((∃ e, fs = [.ok, .ok, .sqlFails e]) → Idle o w.now r) := by
  cases patch_run hr hlive h with
  | refused row short hresp =>
    constructor
    · intro _
      constructor
      · rintro rfl
        simp at short
      · rintro ⟨e, rfl⟩
        simp at short
    · intro _
      cases resp with
      | prompt answer created =>
        cases created with
        | false => exact absurd rfl (hresp answer)
        | true => exact row
      | _ => exact row
  | patched body row calls =>
    rename_i b
    subst calls
    rw [row]
    constructor
    · rintro ⟨r', hr', hp⟩
      obtain rfl := Option.some.inj hr'
      exact ⟨fun _ => (written_patched body _ _).mp hp, by simp⟩
    · rintro ⟨hn, -⟩
      exact ⟨_, rfl, (written_patched body _ _).mpr (hn rfl)⟩
  | unread body row calls =>
    rename_i b e
    subst calls
    rw [row]
    constructor
    · intro hsame
      exact ⟨by simp, fun _ => (written_idle body _ _).mp (Option.some.inj hsame)⟩
    · rintro ⟨-, hi⟩
      exact congrArg some ((written_idle body _ _).mpr (hi ⟨e, rfl⟩))

def samplePrompt : PromptRow :=
  ⟨1, "portrait", some "soft light", "a portrait", "edit", some 600, 100, 100, none⟩

def sampleWorld : World :=
  { World.empty with db := { Db.empty with prompts := ⟨[samplePrompt], by decide⟩ }, now := 200 }

def labelBody : Object := [("label", .string "anime v2"), ("timeout_seconds", .int 60)]

theorem patch_meets_sample : ∃ w' row,
    runPatch sampleConfig [.ok, .ok, .ok] (sampleWorld, .patch 1 (.object labelBody)) =
      some (w', .answered (.prompt row false)) ∧
    row.label = "anime v2" ∧ row.timeoutSeconds = some 60 ∧
    Meets labelBody samplePrompt (w'.db.prompts.find? 1) (.prompt row false) := by
  have hrun : (runPatch sampleConfig [.ok, .ok, .ok]
      (sampleWorld, .patch 1 (.object labelBody))).map Prod.snd =
      some (.answered (.prompt ⟨1, "anime v2", some "soft light", "a portrait", "edit", some 60, 100,
        200⟩ false)) := by decide +kernel
  obtain ⟨⟨w', pc⟩, h, hpc⟩ := Option.map_eq_some_iff.mp hrun
  obtain rfl : pc = _ := hpc
  refine ⟨w', _, h, rfl, rfl, ?_⟩
  refine (patch_meets (r := samplePrompt) (by decide +kernel) rfl h).mpr ⟨fun _ => ?_, by simp⟩
  exact ⟨by simp [labelBody, valuesAt], by simp [labelBody, valuesAt]⟩

/-- The label changes, the description is to be cleared. -/
def nullBody : Object := [("label", .string "anime v2"), ("description", .null)]

theorem null_ignored : ∃ w' row,
    runPatch sampleConfig [.ok, .ok, .ok] (sampleWorld, .patch 1 (.object nullBody)) =
      some (w', .answered (.prompt row false)) ∧
    row.label = "anime v2" ∧ row.description = some "soft light" ∧
    ¬ Meets nullBody samplePrompt (w'.db.prompts.find? 1) (.prompt row false) := by
  have hrun : (runPatch sampleConfig [.ok, .ok, .ok]
      (sampleWorld, .patch 1 (.object nullBody))).map
        (fun s => ((s.1.db.prompts.find? 1).map PromptRow.description, s.2)) =
      some (some (some "soft light"), .answered (.prompt ⟨1, "anime v2", some "soft light",
        "a portrait", "edit", some 600, 100, 200⟩ false)) := by decide +kernel
  obtain ⟨⟨w', pc⟩, h, hend⟩ := Option.map_eq_some_iff.mp hrun
  obtain ⟨hdesc, hpc⟩ := Prod.mk.inj hend
  obtain rfl : pc = _ := hpc
  refine ⟨w', _, h, rfl, rfl, ?_⟩
  rintro ⟨r', hr', hp⟩
  have hcleared : r'.description = none := hp.description.cleared rfl
  have hkept : r'.description = some "soft light" := by
    rw [hr'] at hdesc
    exact Option.some.inj hdesc
  rw [hcleared] at hkept
  cases hkept

end ZunServer.PromptPatches
