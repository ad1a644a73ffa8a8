import ZunServer.Rows

/-!
# Several first uploads of one image

`resolve_input` looks for the row of the hash, writes the file, decodes the
image and only then inserts the row. Two requests that both found no row both
insert one; `UNIQUE (sha256)` refuses the second. As long as no request looks
for the row while another one is on its way to insert it, all are accepted with
one input.
-/
namespace ZunServer.FirstUpload

open KeyedTable
open Schema Statements Database Comfy Calls Renditions Worker Handlers Purge Server Rows
open SubmitSteps

/-- A request with the bytes of the hash, about to look for its row. -/
def looksUp (h : String) : ServerTask → Bool
  | .submit (.selectInput f _ _) => f.inputSha256 = h ∧ f.upload.isSome
  | _ => false

/-- A request that has found no row of the hash and is yet to insert one. -/
def inserting (h : String) : ServerTask → Bool
  | .submit (.write f _ _ none _ _) | .submit (.dimensions f _ _ none _ _)
  | .submit (.insertInput f _ _ _) => f.inputSha256 = h
  | _ => false

/-- The step is such a look-up. -/
def looks (h : String) (s : State) : Act → Bool
  | .task i .ok => (s.tasks[i]?).any (looksUp h)
  | _ => false

/-- Nobody looks for the row of the hash while it is about to be inserted. -/
def Alone (h : String) (s : State) (a : Act) : Prop :=
  looks h s a = true → ∀ τ ∈ s.tasks, inserting h τ = false

instance (h : String) (s : State) (a : Act) : Decidable (Alone h s a) :=
  inferInstanceAs (Decidable (_ → ∀ τ ∈ s.tasks, _))

/-- The request is for the hash. -/
def concerns (h : String) (w : World) : SubmitPc → Bool
  | .selectPrompt f _ | .selectInput f _ _ | .stat f _ _ _ _ | .touch f _ _ _ | .clearPath f _ _ _
  | .write f _ _ _ _ _ | .dimensions f _ _ _ _ _ | .updateInput f _ _ _ _
  | .insertInput f _ _ _ => f.inputSha256 = h
  | .newJobId _ id | .seed _ id _ | .insertJob _ id _ _ | .wakeWorker id _ =>
    (w.db.inputs.find? id).any (fun r => r.sha256 = h)
  | .answered _ => false

/-- The process stays up, and the database and the disk fail no request for the hash. -/
def smooth (h : String) (s : State) : Act → Bool
  | .crash => false
  | .task i f => match s.tasks[i]? with
    | some (.submit pc) => !(concerns h s.world pc && failing f)
    | _ => true
  | _ => true

def shas (s : State) : List String := s.world.db.inputs.rows.map InputRow.sha256

theorem shas_update {s t : State} {u : Update InputRow.id} (hu : ∀ r, (u.set r).sha256 = r.sha256)
    (h : t.world.db.inputs = s.world.db.inputs.update u) : shas t = shas s := by
  have hrow : ∀ r, (u.row r).sha256 = r.sha256 := by
    intro r
    unfold Update.row
    split
    · exact hu r
    · rfl
  unfold shas
  rw [h]
  simp only [Table.update, List.map_map]
  exact List.map_congr_left fun r _ => hrow r

/-- Hashes are only ever added, by an `INSERT` that found them missing. -/
theorem shas_step {cfg : Config} {s t : State} {a : Act} (hm : Moved cfg s t a) :
    shas t = shas s ∨ ∃ i f p now fields, a = .task i .ok ∧
      s.tasks[i]? = some (.submit (.insertInput f p now fields)) ∧ f.inputSha256 ∉ shas s ∧
      shas t = shas s ++ [f.inputSha256] := by
  cases hm.inputs with
  | same he => exact .inl (by unfold shas; rw [he])
  | touched hi he | cleared hi he | stored hi he | purged hi he =>
    exact .inl (shas_update (fun _ => rfl) he)
  | inserted hi hnew he =>
    refine .inr ⟨_, _, _, _, _, rfl, hi, fun hmem => ?_, ?_⟩
    · obtain ⟨r, hr, hsha⟩ := List.mem_map.mp hmem
      exact hnew r hr hsha
    · unfold shas
      rw [(Table.insert?_eq_some.mp he).2, List.map_append]
      rfl

theorem reachable_unique {cfg : Config} {s : State} (h : Reachable cfg s) : (shas s).Nodup := by
  have hinit : (shas State.init).Nodup := List.nodup_nil
  refine Runs.Reachable.invariant (I := fun u => (shas u).Nodup) hinit (fun u a v hu hs => ?_) h
  rcases shas_step (step_moved hs) with he | ⟨i, f, p, now, fields, -, -, hnew, he⟩
  · rw [he]
    exact hu
  · rw [he, ← List.concat_eq_append]
    exact hu.concat hnew

structure Single (h : String) (s : State) : Prop where
  ids : IdsOk s
  one : ∀ (i j : Nat) τ τ', s.tasks[i]? = some τ → s.tasks[j]? = some τ' →
    inserting h τ = true → inserting h τ' = true → i = j
  vacant : ∀ (i : Nat) τ, s.tasks[i]? = some τ → inserting h τ = true → h ∉ shas s

theorem inserting_start (h : String) (cfg : Config) (now : Int) (f : SubmitFields) :
    inserting h (.submit (.start cfg now f)) = false := by
  rcases SubmitPc.start_cases cfg now f with ⟨e, he⟩ | ⟨-, ⟨pid, he⟩ | ⟨p, he⟩⟩ <;> (rw [he]; rfl)

theorem inserting_old (h : String) (f : SubmitFields) (p : Resolved) (now id : Int) :
    inserting h (.submit (.needUpload f p now (some id))) = false := by
  rcases SubmitPc.needUpload_cases f p now (some id) with ⟨e, he⟩ | ⟨u, path, -, he⟩ <;>
    (rw [he]; rfl)

theorem inserting_new {h : String} {f : SubmitFields} {p : Resolved} {now : Int}
    (hins : inserting h (.submit (.needUpload f p now none)) = true) :
    f.inputSha256 = h ∧ f.upload.isSome = true := by
  cases hu : f.upload with
  | none =>
    unfold SubmitPc.needUpload at hins
    rw [hu] at hins
    cases hins
  | some u =>
    rcases SubmitPc.needUpload_cases f p now none with ⟨e, he⟩ | ⟨u, path, -, he⟩
    · rw [he] at hins
      cases hins
    · rw [he] at hins
      exact ⟨by simpa [inserting] using hins, rfl⟩

/-- A request that is on its way to insert the row was so before, or has just
looked for the row and found none. -/
theorem inserting_origin {cfg : Config} {h : String} {s t : State} {a : Act} (hm : Moved cfg s t a)
    {i : Nat} {τ : ServerTask} (hi : t.tasks[i]? = some τ) (hτ : inserting h τ = true) :
    (∃ τ₀, s.tasks[i]? = some τ₀ ∧ inserting h τ₀ = true ∧
      ((∀ f, a ≠ .task i f) ∨ t.world.db = s.world.db)) ∨
    (a = .task i .ok ∧ looks h s a = true ∧ h ∉ shas s ∧ t.world.db = s.world.db) := by
  cases τ with
  | submit pc =>
    rcases submit_origin hm hi with ⟨hi₀, ha⟩ | ⟨fl, -, -, rfl⟩ | ⟨f, pc₀, rfl, hi₀, hs⟩
    · exact .inl ⟨_, hi₀, hτ, .inl ha⟩
    · rw [inserting_start] at hτ
      cases hτ
    · cases hs with
      | absent hf hw hnone =>
        obtain ⟨hsha, hup⟩ := inserting_new hτ
        subst hf
        refine .inr ⟨rfl, ?_, fun hmem => ?_, by rw [hw]⟩
        · simp only [looks, hi₀, Option.any_some, looksUp, hsha, hup, and_self, decide_true]
        · obtain ⟨r, hr, he⟩ := List.mem_map.mp hmem
          exact hnone r hr (he.trans hsha.symm)
      | wrote hf hdb hfs =>
        rename_i fl p now row u path
        cases row with
        | none => exact .inl ⟨_, hi₀, hτ, .inr hdb⟩
        | some id => cases hτ
      | decodedNew hdb hfs hfields => exact .inl ⟨_, hi₀, hτ, .inr hdb⟩
      | noPath hw hr hsha hpath | cleared hf hin hfs =>
        rw [inserting_old] at hτ
        cases hτ
      | _ => cases hτ
  | _ => cases hτ

theorem Single.step {cfg : Config} {h : String} {s t : State} {a : Act} (hs : Single h s)
    (hm : Moved cfg s t a) (halone : Alone h s a) : Single h t where
  ids := hs.ids.step hm
  one i j τ τ' hi hj hτ hτ' := by
    have fresh : ∀ {j : Nat} {τ}, looks h s a = true → s.tasks[j]? = some τ → inserting h τ ≠ true := by
      intro j τ hlook hj hτ
      rw [halone hlook τ (List.mem_of_getElem? hj)] at hτ
      cases hτ
    rcases inserting_origin hm hi hτ with ⟨τ₀, hi₀, hτ₀, -⟩ | ⟨ha, hlook, -⟩
    · rcases inserting_origin hm hj hτ' with ⟨τ₁, hj₀, hτ₁, -⟩ | ⟨-, hlook, -⟩
      · exact hs.one i j τ₀ τ₁ hi₀ hj₀ hτ₀ hτ₁
      · exact absurd hτ₀ (fresh hlook hi₀)
    · rcases inserting_origin hm hj hτ' with ⟨τ₁, hj₀, hτ₁, -⟩ | ⟨ha', -⟩
      · exact absurd hτ₁ (fresh hlook hj₀)
      · rw [ha] at ha'
        cases ha'
        rfl
  vacant i τ hi hτ := by
    have same : t.world.db = s.world.db → h ∉ shas s → h ∉ shas t := by
      intro he hnone
      unfold shas
      rw [he]
      exact hnone
    rcases inserting_origin hm hi hτ with ⟨τ₀, hi₀, hτ₀, ha | he⟩ | ⟨-, -, hnone, he⟩
    · have hnone := hs.vacant i τ₀ hi₀ hτ₀
      rcases shas_step hm with he | ⟨j, f, p, now, fields, rfl, hj, -, he⟩
      · rw [he]
        exact hnone
      · rw [he, List.mem_append, not_or]
        refine ⟨hnone, fun hmem => ?_⟩
        obtain rfl := List.mem_singleton.mp hmem
        obtain rfl := hs.one i j τ₀ _ hi₀ hj hτ₀ (by simp [inserting])
        exact ha .ok rfl
    · exact same he (hs.vacant i τ₀ hi₀ hτ₀)
    · exact same he hnone

theorem cachePath_ok {h : String} (hh : isValidSha256Hex h = true) (k : ImageKind) :
    ∃ path, dataPath .cacheInputs (h ++ "." ++ k.ext) = .ok path := by
  have hchars : ∀ c ∈ h.toList, c ≠ '/' ∧ c ≠ '\\' ∧ c ≠ '.' := by
    intro c hc
    simp only [isValidSha256Hex, Bool.decide_and, Bool.and_eq_true, List.all_eq_true,
      decide_eq_true_eq] at hh
    have hcls := hh.2 c hc
    refine ⟨?_, ?_, ?_⟩ <;> (rintro rfl; revert hcls; decide)
  have hext : ∀ c ∈ k.ext.toList, c ≠ '/' ∧ c ≠ '\\' ∧ c ≠ '.' := by
    cases k <;> simp [ImageKind.ext]
  have hlist : (h ++ "." ++ k.ext).toList = h.toList ++ '.' :: k.ext.toList := by
    simp
  have hcount : List.count '.' (h.toList ++ '.' :: k.ext.toList) = 1 := by
    have h₁ : List.count '.' h.toList = 0 :=
      List.count_eq_zero.mpr fun hc => (hchars _ hc).2.2 rfl
    have h₂ : List.count '.' k.ext.toList = 0 :=
      List.count_eq_zero.mpr fun hc => (hext _ hc).2.2 rfl
    rw [List.count_append, List.count_cons_self, h₁, h₂]
  have havoids : ∀ d, d ≠ '.' → (∀ c ∈ h.toList, c ≠ d) → (∀ c ∈ k.ext.toList, c ≠ d) →
      d ∉ h.toList ++ '.' :: k.ext.toList := by
    intro d hd h₁ h₂ hmem
    rcases List.mem_append.mp hmem with hmem | hmem
    · exact h₁ d hmem rfl
    · rcases List.mem_cons.mp hmem with hmem | hmem
      · exact hd hmem
      · exact h₂ d hmem rfl
  unfold dataPath
  rw [hlist, if_neg]
  · exact ⟨_, rfl⟩
  · rintro (hempty | hslash | hback | hdots)
    · simp at hempty
    · exact havoids '/' (by decide) (fun c hc => (hchars c hc).1) (fun c hc => (hext c hc).1) hslash
    · exact havoids '\\' (by decide) (fun c hc => (hchars c hc).2.1)
        (fun c hc => (hext c hc).2.1) hback
    · have hle := hdots.sublist.count_le '.'
      rw [hcount] at hle
      exact absurd hle (by decide)

theorem needUpload_write {f : SubmitFields} (hh : isValidSha256Hex f.inputSha256 = true)
    (hup : f.upload.isSome = true) (p : Resolved) (now : Int) (row : Option Int) :
    ∃ u path, SubmitPc.needUpload f p now row = .write f p now row u path := by
  obtain ⟨u, hu⟩ := Option.isSome_iff_exists.mp hup
  obtain ⟨path, hpath⟩ := cachePath_ok hh u.kind
  refine ⟨u, path, ?_⟩
  unfold SubmitPc.needUpload
  rw [hu]
  dsimp only
  rw [hpath]

/-- The row of the hash is the one with this id. -/
def RowIs (h : String) (w : World) (id : Int) : Prop :=
  ∃ r, w.db.inputs.find? id = some r ∧ r.sha256 = h

/-- Where a request for the hash may be. -/
def Way (h : String) (w : World) : SubmitPc → Prop
  | .selectInput f _ _ => f.inputSha256 = h ∧ f.upload.isSome = true
  | .stat f _ _ id _ | .clearPath f _ _ id =>
    f.inputSha256 = h ∧ f.upload.isSome = true ∧ RowIs h w id
  | .touch f _ _ id | .updateInput f _ _ id _ => f.inputSha256 = h ∧ RowIs h w id
  | .write f _ _ row _ _ | .dimensions f _ _ row _ _ =>
    f.inputSha256 = h ∧ ∀ id, row = some id → RowIs h w id
  | .insertInput f _ _ _ => f.inputSha256 = h
  | .newJobId _ id | .seed _ id _ | .insertJob _ id _ _ | .wakeWorker id _
  | .answered (.accepted _ id) => RowIs h w id
  | .selectPrompt _ _ | .answered _ => False

theorem RowIs.step {cfg : Config} {h : String} {s t : State} {a : Act} (hm : Moved cfg s t a)
    {id : Int} (hr : RowIs h s.world id) : RowIs h t.world id := by
  obtain ⟨r, hr, hsha⟩ := hr
  have updated : ∀ u : Update InputRow.id, (∀ r, (u.set r).sha256 = r.sha256) →
      t.world.db.inputs = s.world.db.inputs.update u → RowIs h t.world id := by
    intro u hu he
    refine ⟨u.row r, by rw [he, Table.find?_update, hr]; rfl, ?_⟩
    unfold Update.row
    split
    · exact (hu r).trans hsha
    · exact hsha
  cases hm.inputs with
  | same he => exact ⟨r, by rw [he, hr], hsha⟩
  | touched hi he | cleared hi he | stored hi he | purged hi he => exact updated _ (fun _ => rfl) he
  | inserted hi hnew he => exact ⟨r, find?_insertInput he hr, hsha⟩

theorem Way.step {cfg : Config} {h : String} {s t : State} {a : Act} (hm : Moved cfg s t a)
    {pc : SubmitPc} (hw : Way h s.world pc) : Way h t.world pc := by
  have hrow : ∀ {id}, RowIs h s.world id → RowIs h t.world id := fun hr => hr.step hm
  cases pc with
  | selectInput f p now => exact hw
  | stat f p now id path => exact ⟨hw.1, hw.2.1, hrow hw.2.2⟩
  | clearPath f p now id => exact ⟨hw.1, hw.2.1, hrow hw.2.2⟩
  | touch f p now id => exact ⟨hw.1, hrow hw.2⟩
  | updateInput f p now id fields => exact ⟨hw.1, hrow hw.2⟩
  | write f p now row u path => exact ⟨hw.1, fun id he => hrow (hw.2 id he)⟩
  | dimensions f p now row u path => exact ⟨hw.1, fun id he => hrow (hw.2 id he)⟩
  | insertInput f p now fields => exact hw
  | newJobId p id => exact hrow hw
  | seed p id jobId => exact hrow hw
  | insertJob p id jobId n => exact hrow hw
  | wakeWorker id jobId => exact hrow hw
  | answered r =>
    cases r with
    | accepted jobId id => exact hrow hw
    | _ => exact hw
  | selectPrompt f pid => exact hw

theorem Way.concerns {h : String} {w : World} {pc : SubmitPc} (hw : Way h w pc)
    (hun : ∀ r, pc ≠ .answered r) : concerns h w pc = true := by
  have hrow : ∀ {id}, RowIs h w id → (w.db.inputs.find? id).any (fun r => r.sha256 = h) = true := by
    rintro id ⟨r, hr, hsha⟩
    rw [hr, Option.any_some, hsha, decide_eq_true rfl]
  cases pc with
  | selectInput f p now | stat f p now id path | clearPath f p now id | touch f p now id
  | updateInput f p now id fields | write f p now row u path | dimensions f p now row u path =>
    exact decide_eq_true hw.1
  | insertInput f p now fields => exact decide_eq_true hw
  | newJobId p id | seed p id jobId | insertJob p id jobId n | wakeWorker id jobId => exact hrow hw
  | answered r => exact absurd rfl (hun r)
  | selectPrompt f pid => cases hw

/-- A call of the request takes it further on its way. -/
theorem way_moved {cfg : Config} {h : String} {s t : State} {i : Nat} {f : Fate}
    {pc pc' : SubmitPc} (hh : isValidSha256Hex h = true) (hone : Single h s)
    (hm : Moved cfg s t (.task i f)) (hsmooth : smooth h s (.task i f) = true)
    (hi : s.tasks[i]? = some (.submit pc)) (hway : Way h s.world pc)
    (hs : SubmitStep s.world t.world f pc pc') : Way h t.world pc' := by
  have hrow : ∀ {id}, RowIs h s.world id → RowIs h t.world id := fun hr => hr.step hm
  have upload : ∀ {fl : SubmitFields} (p : Resolved) (now : Int) (row : Option Int),
      fl.inputSha256 = h → fl.upload.isSome = true → (∀ id, row = some id → RowIs h t.world id) →
      Way h t.world (.needUpload fl p now row) := by
    intro fl p now row hsha hup hrow
    obtain ⟨u, path, he⟩ := needUpload_write (hsha ▸ hh) hup p now row
    rw [he]
    exact ⟨hsha, hrow⟩
  cases hs with
  | fails hf hw =>
    have hun : ∀ r, pc ≠ .answered r := by
      rintro r rfl
      cases hm with
      | task hi' hp _ _ =>
        obtain rfl := Option.some.inj (hi.symm.trans hi')
        cases hp
    simp only [smooth, hi, hway.concerns hun, hf, Bool.and_self, Bool.not_true] at hsmooth
    cases hsmooth
  | refused hw | prompt hw => cases hway
  | absent hf hw hnone => exact upload _ _ _ hway.1 hway.2 (by simp)
  | noPath hw hr hsha hpath =>
    refine upload _ _ _ hway.1 hway.2 fun id he => ?_
    cases he
    exact hrow ⟨_, Table.find?_of_mem hr, hsha.trans hway.1⟩
  | cached hw hr hsha hpath =>
    exact ⟨hway.1, hway.2, hrow ⟨_, Table.find?_of_mem hr, hsha.trans hway.1⟩⟩
  | hit hf hw hfile => exact ⟨hway.1, hrow hway.2.2⟩
  | miss hw hfile => exact ⟨hway.1, hway.2.1, hrow hway.2.2⟩
  | touched hin hfs => exact hrow hway.2
  | cleared hf hin hfs =>
    refine upload _ _ _ hway.1 hway.2.1 fun id he => ?_
    cases he
    exact hrow hway.2.2
  | wrote hf hdb hfs => exact ⟨hway.1, fun id he => hrow (hway.2 id he)⟩
  | decodedOld hdb hfs hfields => exact ⟨hway.1, hrow (hway.2 _ rfl)⟩
  | decodedNew hdb hfs hfields => exact hway.1
  | stored hf hin hfs => exact hrow hway.2
  | inserted hnew hin hfs => exact ⟨_, (Table.find?_insert hin _).trans (if_pos rfl), hway⟩
  | duplicate hw hdup =>
    obtain ⟨r, hr, hsha⟩ := hdup
    exact absurd (List.mem_map.mpr ⟨r, hr, hsha.trans hway⟩)
      (hone.vacant i _ hi (decide_eq_true hway))
  | drew hnew hw => exact hrow hway
  | seeded hw => exact hrow hway
  | queued hin hfs hjob => exact hrow hway
  | notQueued hw hdup =>
    have hfree := (hone.ids.reserved i _ _ hi rfl).2
    unfold row? at hfree
    rw [hfree] at hdup
    cases hdup
  | woke hdb hfs => exact hrow hway

/-- The calls a request has left at most. -/
def rank : SubmitPc → Nat
  | .selectPrompt _ _ => 11
  | .selectInput _ _ _ => 10
  | .stat _ _ _ _ _ => 9
  | .clearPath _ _ _ _ => 8
  | .write _ _ _ _ _ _ => 7
  | .dimensions _ _ _ _ _ _ => 6
  | .touch _ _ _ _ | .updateInput _ _ _ _ _ | .insertInput _ _ _ _ => 5
  | .newJobId _ _ => 4
  | .seed _ _ _ => 3
  | .insertJob _ _ _ _ => 2
  | .wakeWorker _ _ => 1
  | .answered _ => 0

theorem rank_needUpload (f : SubmitFields) (p : Resolved) (now : Int) (row : Option Int) :
    rank (.needUpload f p now row) ≤ 7 := by
  rcases SubmitPc.needUpload_cases f p now row with ⟨e, h⟩ | ⟨u, path, -, h⟩ <;>
    (rw [h]; simp [rank, SubmitPc.refuse])

theorem rank_moved {w w' : World} {f : Fate} {pc pc' : SubmitPc}
    (hun : ∀ r, pc ≠ .answered r) (hs : SubmitStep w w' f pc pc') : rank pc' < rank pc := by
  cases hs with
  | fails hf hw =>
    cases pc <;> first | exact absurd rfl (hun _) | simp [rank, SubmitPc.fail, SubmitPc.refuse]
  | refused hw => simp [rank, SubmitPc.badRequest, SubmitPc.refuse]
  | absent hf hw hnone | noPath hw hr hsha hpath | cleared hf hin hfs =>
    exact Nat.lt_of_le_of_lt (rank_needUpload _ _ _ _) (by simp [rank])
  | _ => simp [rank, SubmitPc.fail, SubmitPc.refuse]

def isCallOf (i : Nat) : Act → Bool
  | .task j _ => j = i
  | _ => false

/-- The calls the request at a place has left at most. -/
def callsLeft (i : Nat) (s : State) : Nat :=
  match s.tasks[i]? with
  | some (.submit pc) => rank pc
  | _ => 0

/-- The request is on its way, has its answer, or its client is gone. -/
def OnWay (h : String) (i : Nat) (s : State) : Prop :=
  s.tasks[i]? = some .dropped ∨ ∃ pc, s.tasks[i]? = some (.submit pc) ∧ Way h s.world pc

theorem smooth_up {h : String} {s : State} {a : Act} (hsmooth : smooth h s a = true) :
    staysUp a = true := by
  cases a <;> first | rfl | cases hsmooth

theorem OnWay.step {cfg : Config} {h : String} {s t : State} {a : Act} {i : Nat}
    (hh : isValidSha256Hex h = true) (hone : Single h s) (hm : Moved cfg s t a)
    (hsmooth : smooth h s a = true) (hway : OnWay h i s) :
    OnWay h i t ∧ callsLeft i t + [a].countP (isCallOf i) ≤ callsLeft i s := by
  have hup := smooth_up hsmooth
  have still : (∀ f, a ≠ .task i f) → [a].countP (isCallOf i) = 0 := by
    intro hne
    rw [List.countP_eq_zero]
    intro b hb
    obtain rfl := List.mem_singleton.mp hb
    cases b with
    | task j f =>
      simp only [isCallOf, decide_eq_true_eq]
      rintro rfl
      exact hne f rfl
    | _ => exact Bool.false_ne_true
  rcases hway with hi | ⟨pc, hi, hpc⟩
  · have ht := hm.dropped_stays hup hi
    have hne : ∀ f, a ≠ .task i f := by
      rintro f rfl
      cases hm with
      | task hi' hp _ _ =>
        obtain rfl := Option.some.inj (hi.symm.trans hi')
        cases hp
    refine ⟨.inl ht, ?_⟩
    rw [still hne]
    simp only [callsLeft, ht]
    omega
  · rcases hm.task_at hup hi with ⟨ht, hne⟩ | ⟨f, τ', rfl, ht, hp⟩ | ⟨rfl, ht, -⟩
    · refine ⟨.inr ⟨pc, ht, hpc.step hm⟩, ?_⟩
      rw [still hne]
      simp only [callsLeft, ht, hi]
      omega
    · obtain ⟨pc', hcall, rfl⟩ := perform_map.mp hp
      have hs := submit_step hcall
      have hun : ∀ r, pc ≠ .answered r := by
        rintro r rfl
        cases hcall
      have hrank := rank_moved hun hs
      refine ⟨.inr ⟨pc', ht, way_moved hh hone hm hsmooth hi hpc hs⟩, ?_⟩
      simp only [callsLeft, ht, hi, isCallOf, List.countP_cons, List.countP_nil, decide_true,
        ↓reduceIte]
      omega
    · refine ⟨.inl ht, ?_⟩
      rw [still (by simp)]
      simp only [callsLeft, ht]
      omega

/-- What becomes of a request with the bytes of the hash: its client is gone, or
it has a call to make, or it was accepted with the one input row of the hash. -/
def Served (h : String) (i : Nat) (t : State) : Prop :=
  t.tasks[i]? = some .dropped ∨
  (∃ pc, t.tasks[i]? = some (.submit pc) ∧ ∀ r, pc ≠ .answered r) ∨
  ∃ jobId, ∃ row ∈ t.world.db.inputs.rows,
    t.tasks[i]? = some (.submit (.answered (.accepted jobId row.id))) ∧ row.sha256 = h ∧
    ∀ r ∈ t.world.db.inputs.rows, r.sha256 = h → r = row

theorem OnWay.served {h : String} {i : Nat} {t : State} (huniq : (shas t).Nodup)
    (hway : OnWay h i t) : Served h i t := by
  rcases hway with hi | ⟨pc, hi, hpc⟩
  · exact .inl hi
  · cases pc with
    | answered r =>
      cases r with
      | accepted jobId id =>
        obtain ⟨row, hrow, hsha⟩ := hpc
        obtain ⟨hmem, hid⟩ := Table.find?_eq_some.mp hrow
        refine .inr (.inr ⟨jobId, row, hmem, by rw [hi, hid], hsha, fun r hr he => ?_⟩)
        exact List.inj_on_of_nodup_map huniq hr hmem (he.trans hsha.symm)
      | _ => cases hpc
    | _ => exact .inr (.inl ⟨_, hi, by simp⟩)

/-- While the process stays up and the database and the disk fail no request for
the hash: every request with its bytes makes at most ten calls from its look-up
on and is then accepted with the one input row of the hash, provided that no
request looks for the row while another one is on its way to insert it. -/
theorem first_upload {cfg : Config} {h : String} {as bs : List Act} {s₀ s t : State} {i : Nat}
    {τ : ServerTask} (hh : isValidSha256Hex h = true) (hs₀ : Reachable cfg s₀)
    (hidle : ∀ τ ∈ s₀.tasks, inserting h τ = false) (hs : run cfg as s₀ = some s)
    (ht : run cfg bs s = some t) (hsmooth : Along cfg (fun u a => smooth h u a = true) (as ++ bs) s₀)
    (halone : Along cfg (Alone h) (as ++ bs) s₀) (hi : s.tasks[i]? = some τ)
    (hτ : looksUp h τ = true) : bs.countP (isCallOf i) ≤ 10 ∧ Served h i t := by
  have hstart : Single h s₀ := by
    refine ⟨reachable_ids hs₀, fun i j τ τ' hi _ hτ => ?_, fun i τ hi hτ => ?_⟩ <;>
      (rw [hidle τ (List.mem_of_getElem? hi)] at hτ; cases hτ)
  have hboth := hsmooth.and halone
  obtain ⟨hfirst, hrest⟩ := (Runs.along_append hs).mp hboth
  have hone : Single h s :=
    Runs.Along.invariant (fun u a v hu ha hstep => hu.step (step_moved hstep) ha.2) hfirst hs hstart
  have hway : OnWay h i s ∧ callsLeft i s = 10 := by
    cases τ with
    | submit pc =>
      cases pc with
      | selectInput f p now =>
        simp only [looksUp, decide_eq_true_eq] at hτ
        exact ⟨.inr ⟨_, hi, hτ⟩, by simp only [callsLeft, hi, rank]⟩
      | _ => cases hτ
    | _ => cases hτ
  have hstep : ∀ u a v, Single h u ∧ OnWay h i u → smooth h u a = true ∧ Alone h u a →
      step cfg u a = some v → (Single h v ∧ OnWay h i v) ∧
        callsLeft i v + [a].countP (isCallOf i) ≤ callsLeft i u := by
    rintro u a v ⟨hu, huw⟩ ⟨hsm, hal⟩ hstep
    have hm := step_moved hstep
    obtain ⟨hv, hle⟩ := huw.step hh hu hm hsm
    exact ⟨⟨hu.step hm hal, hv⟩, hle⟩
  have hcalls := Runs.Along.spend (fun u a v hu ha hv => (hstep u a v hu ha hv).1)
    (fun u a v hu ha hv => (hstep u a v hu ha hv).2) hrest ht ⟨hone, hway.1⟩
  have hend := Runs.Along.invariant (fun u a v hu ha hv => (hstep u a v hu ha hv).1) hrest ht
    ⟨hone, hway.1⟩
  have huniq := reachable_unique ((hs₀.run hs).run ht)
  exact ⟨by omega, hend.2.served huniq⟩

/-- Two requests arrive and the row is not there yet. -/
def uploadsArrive : List Act := [.arrive (.submit sampleUpload), .arrive (.submit sampleUpload)]

/-- The first one inserts the row, then the second one looks for it; both are answered. -/
def uploadsServed : List Act :=
  [.task 0 .ok, .task 0 .ok, .task 0 (.dimensions (some (8, 8))), .task 0 .ok, .task 1 .ok,
    .task 0 (.drew jobA), .task 1 .ok, .task 0 (.seed 14), .task 1 .ok, .task 1 (.drew jobB),
    .task 0 .ok, .task 1 (.seed 14), .task 1 .ok, .task 1 .ok, .task 0 .ok]

theorem first_upload_sample : ∃ s t, run sampleConfig uploadsArrive State.init = some s ∧
    run sampleConfig uploadsServed s = some t ∧ answerAt t 0 = some (.accepted jobA 1) ∧
    answerAt t 1 = some (.accepted jobB 1) ∧ Served abcSha 0 t ∧ Served abcSha 1 t := by
  have hrun : ((run sampleConfig uploadsArrive State.init).bind fun s =>
      if (s.tasks[0]?).any (looksUp abcSha) ∧ (s.tasks[1]?).any (looksUp abcSha) then
        (run sampleConfig uploadsServed s).map fun t => (answerAt t 0, answerAt t 1)
      else none) = some (some (.accepted jobA 1), some (.accepted jobB 1)) := by decide +kernel
  obtain ⟨s, hs, h⟩ := Option.bind_eq_some_iff.mp hrun
  obtain ⟨⟨hlook, hlook'⟩, h⟩ := Option.ite_none_right_eq_some.mp h
  obtain ⟨t, ht, hans⟩ := Option.map_eq_some_iff.mp h
  obtain ⟨hans, hans'⟩ := Prod.mk.inj hans
  obtain ⟨τ, hi, hτ⟩ := (Option.any_eq_true _ _).mp hlook
  obtain ⟨τ', hi', hτ'⟩ := (Option.any_eq_true _ _).mp hlook'
  have hidle : ∀ τ ∈ State.init.tasks, inserting abcSha τ = false := by simp [State.init]
  have hsmooth : Along sampleConfig (fun u a => smooth abcSha u a = true)
      (uploadsArrive ++ uploadsServed) State.init := by decide +kernel
  have halone : Along sampleConfig (Alone abcSha) (uploadsArrive ++ uploadsServed) State.init := by
    decide +kernel
  exact ⟨s, t, hs, ht, hans, hans',
    (first_upload (by decide) (Runs.Reachable.start _ _) hidle hs ht hsmooth halone hi hτ).2,
    (first_upload (by decide) (Runs.Reachable.start _ _) hidle hs ht hsmooth halone hi' hτ').2⟩

/-- Two requests both find no row; the second one's `INSERT` is refused. -/
def bothFirst : List Act :=
  [.arrive (.submit sampleUpload), .arrive (.submit sampleUpload), .task 0 .ok, .task 1 .ok,
    .task 0 .ok, .task 0 (.dimensions (some (8, 8))), .task 0 .ok, .task 1 .ok,
    .task 1 (.dimensions (some (8, 8))), .task 1 .ok]

/-- It is answered 500. -/
theorem first_upload_fails : ∃ t, run sampleConfig bothFirst State.init = some t ∧
    Along sampleConfig (fun u a => smooth abcSha u a = true) bothFirst State.init ∧
    answerAt t 1 = some (.error (.internal "UNIQUE constraint failed: inputs.sha256")) ∧
    ¬ Served abcSha 1 t := by
  have hrun : ((run sampleConfig bothFirst State.init).bind (answerAt · 1)) =
      some (.error (.internal "UNIQUE constraint failed: inputs.sha256")) := by decide +kernel
  obtain ⟨t, ht, hans⟩ := Option.bind_eq_some_iff.mp hrun
  refine ⟨t, ht, by decide +kernel, hans, ?_⟩
  have hi := answerAt_eq_some hans
  rintro (h | ⟨pc, h, hun⟩ | ⟨jobId, row, -, h, -⟩)
  · rw [hi] at h
    cases h
  · rw [hi] at h
    cases h
    exact hun _ rfl
  · rw [hi] at h
    cases h

end ZunServer.FirstUpload
