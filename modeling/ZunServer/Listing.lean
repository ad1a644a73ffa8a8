import Mathlib.Data.List.Pairwise
import Mathlib.Data.Prod.Lex
import Mathlib.Data.String.Basic
import Mathlib.Logic.Equiv.List
import ZunServer.Keyset
import ZunServer.Lifecycle

/-!
# `list_jobs`

The handler makes one call, a `SELECT` that writes nothing: a page is a function
of the jobs table at that moment. A client that follows `next_cursor` sees the
table at one moment after the other, with other requests and the worker writing
in between.
-/
namespace ZunServer.Listing

open KeyedTable
open Schema Statements Database Calls Lifecycle

structure ListQuery where
  status : Option String
  inputId : Option Int
  cursor : Option String
  limit : Option Int
  deriving DecidableEq, Repr

structure Cursor where
  createdAt : Int
  id : String
  deriving DecidableEq, Repr

/-- `serde_json` on a `Cursor`, and base64 in its URL-safe alphabet without
padding. What is encoded decodes to itself. -/
structure CursorCodec where
  toVec : Cursor → Bytes
  fromSlice : Bytes → Option Cursor
  encode : Bytes → String
  decode : String → Option Bytes
  fromSlice_toVec : ∀ c, fromSlice (toVec c) = some c
  decode_encode : ∀ b, decode (encode b) = some b

def encodeCursor (codec : CursorCodec) (c : Cursor) : String := codec.encode (codec.toVec c)

def decodeCursor (codec : CursorCodec) (s : String) : Except AppError Cursor :=
  match codec.decode s with
  | none => .error (.badRequest "invalid cursor")
  | some raw => match codec.fromSlice raw with
    | none => .error (.badRequest "invalid cursor")
    | some c => .ok c

@[simp] theorem decode_encode (codec : CursorCodec) (c : Cursor) :
    decodeCursor codec (encodeCursor codec c) = .ok c := by
  unfold decodeCursor encodeCursor
  rw [codec.decode_encode]
  simp only [codec.fromSlice_toVec]

/-- A status as the column and the query parameter spell it. -/
def statusName : Status → String
  | .queued => "queued"
  | .running => "running"
  | .done => "done"
  | .failed => "failed"
  | .cancelled => "cancelled"

/-- The `SELECT` that `list_jobs` puts together. -/
structure JobsSelect where
  status : Option String
  inputId : Option Int
  before : Option Cursor
  limit : Int
  deriving DecidableEq, Repr

def checkStatus : Option String → Except AppError Unit
  | some s =>
    if s ∈ ["queued", "running", "done", "failed", "cancelled"] then .ok ()
    else .error (.badRequest s!"unknown status: {s}")
  | none => .ok ()

def decodeBefore (codec : CursorCodec) : Option String → Except AppError (Option Cursor)
  | some s => (decodeCursor codec s).map some
  | none => .ok none

/-- `limit.unwrap_or(50).clamp(1, 200)`. -/
def pageLimit (q : ListQuery) : Int := min (max (q.limit.getD 50) 1) 200

def ListQuery.build (codec : CursorCodec) (q : ListQuery) : Except AppError JobsSelect := do
  checkStatus q.status
  let before ← decodeBefore codec q.cursor
  pure ⟨q.status, q.inputId, before, pageLimit q⟩

/-- The filters that are not the cursor. -/
def lists (status : Option String) (inputId : Option Int) (r : JobRow) : Bool :=
  r.deletedAt = none ∧ (∀ s ∈ status, statusName r.status = s) ∧ ∀ i ∈ inputId, r.inputId = i

/-- `created_at < ? OR (created_at = ? AND id < ?)`. SQLite compares the UTF-8
bytes of two texts, which orders them as their code points do. -/
def comesAfter (c : Cursor) (r : JobRow) : Bool :=
  r.createdAt < c.createdAt ∨ (r.createdAt = c.createdAt ∧ r.id < c.id)

def JobsSelect.cond (q : JobsSelect) (r : JobRow) : Bool :=
  lists q.status q.inputId r ∧ ∀ c ∈ q.before, comesAfter c r

/-- `created_at DESC, id DESC`. -/
def newestFirst (a b : JobRow) : Prop :=
  b.createdAt < a.createdAt ∨ (b.createdAt = a.createdAt ∧ b.id ≤ a.id)

instance : DecidableRel newestFirst := fun _ _ => inferInstanceAs (Decidable (_ ∨ _))

structure JobSummaryRow where
  id : String
  inputId : Int
  sourcePromptId : Option Int
  promptText : String
  workflow : String
  seed : Int
  status : Status
  progress : ℚ
  createdAt : Int
  completedAt : Option Int
  deriving DecidableEq, Repr

def JobSummaryRow.of (r : JobRow) : JobSummaryRow :=
  ⟨r.id, r.inputId, r.sourcePromptId, r.promptText, r.workflow, r.seed, r.status, r.progress,
    r.createdAt, r.completedAt⟩

def JobsSelect.fetchAll (q : JobsSelect) (t : Jobs) : List JobSummaryRow :=
  (((t.rows.filter q.cond).insertionSort newestFirst).take q.limit.toNat).map JobSummaryRow.of

structure JobItem where
  row : JobSummaryRow
  durationSeconds : Option Int
  deriving DecidableEq, Repr

def JobItem.of (r : JobSummaryRow) : JobItem := ⟨r, r.completedAt.map (· - r.createdAt)⟩

structure ListPage where
  items : List JobItem
  nextCursor : Option String
  deriving DecidableEq, Repr

def listPage (codec : CursorCodec) (limit : Int) (rows : List JobSummaryRow) : ListPage where
  items := rows.map JobItem.of
  nextCursor :=
    if (rows.length : Int) = limit then
      rows.getLast?.map fun r => encodeCursor codec ⟨r.createdAt, r.id⟩
    else none

/-- `list_jobs`; the argument is what the `SELECT` comes back with. -/
def listJobs (codec : CursorCodec) (q : ListQuery)
    (fetched : JobsSelect → Except String (List JobSummaryRow)) : Except AppError ListPage := do
  let select ← q.build codec
  match fetched select with
  | .error e => .error (.internal e)
  | .ok rows => .ok (listPage codec select.limit rows)

/-- The answer while the jobs table is `t`. -/
def answer (codec : CursorCodec) (q : ListQuery) (t : Jobs) : Except AppError ListPage :=
  listJobs codec q fun select => .ok (select.fetchAll t)

/-- What `jobs` is ordered by: `created_at`, then `id`. -/
abbrev Key := Int ×ₗ String

def rowKey (r : JobRow) : Key := toLex (r.createdAt, r.id)
def Cursor.key (c : Cursor) : Key := toLex (c.createdAt, c.id)
def JobSummaryRow.key (r : JobSummaryRow) : Key := toLex (r.createdAt, r.id)
def JobItem.key (i : JobItem) : Key := i.row.key

theorem newestFirst_iff (a b : JobRow) : newestFirst a b ↔ rowKey b ≤ rowKey a := by
  unfold newestFirst rowKey
  rw [Prod.Lex.toLex_le_toLex]

theorem comesAfter_iff (c : Cursor) (r : JobRow) : comesAfter c r = true ↔ rowKey r < c.key := by
  unfold comesAfter rowKey Cursor.key
  rw [Prod.Lex.toLex_lt_toLex, decide_eq_true_iff]

theorem rows_nodup (t : Jobs) : (t.rows.map rowKey).Nodup := by
  have h : (t.rows.map rowKey).map (fun k => (ofLex k).2) = t.rows.map JobRow.id := by
    rw [List.map_map]
    rfl
  exact .of_map (fun k => (ofLex k).2) (by
    rw [h]
    exact t.nodup)

/-- The keys of the jobs that the filters let through. -/
def listedKeys (q : ListQuery) (t : Jobs) : Set Key :=
  {k | ∃ r ∈ t.rows, lists q.status q.inputId r = true ∧ rowKey r = k}

theorem pageLimit_pos (q : ListQuery) : 0 < (pageLimit q).toNat := by
  unfold pageLimit
  omega

theorem answer_ok {codec : CursorCodec} {q : ListQuery} {t : Jobs} {page : ListPage} :
    answer codec q t = .ok page ↔
      ∃ before, checkStatus q.status = .ok () ∧ decodeBefore codec q.cursor = .ok before ∧
        page = listPage codec (pageLimit q)
          (JobsSelect.fetchAll ⟨q.status, q.inputId, before, pageLimit q⟩ t) := by
  unfold answer listJobs ListQuery.build
  cases checkStatus q.status with
  | error e => simp [bind, Except.bind]
  | ok u =>
    cases decodeBefore codec q.cursor with
    | error e => simp [bind, Except.bind]
    | ok before => simp [bind, Except.bind, pure, Except.pure, eq_comm]

theorem fetchAll_isPage (q : ListQuery) (before : Option Cursor) (t : Jobs) :
    Keyset.IsPage (listedKeys q t ∩ Keyset.below (before.map Cursor.key)) (pageLimit q).toNat
      ((JobsSelect.fetchAll ⟨q.status, q.inputId, before, pageLimit q⟩ t).map JobSummaryRow.key) := by
  have hnd := (rows_nodup t).sublist
    ((List.filter_sublist (p := JobsSelect.cond ⟨q.status, q.inputId, before, pageLimit q⟩)).map rowKey)
  have hpage := Keyset.IsPage.of_sort newestFirst_iff hnd (pageLimit q).toNat
  have hset : {k | ∃ r ∈ t.rows.filter (JobsSelect.cond ⟨q.status, q.inputId, before, pageLimit q⟩),
      rowKey r = k} = listedKeys q t ∩ Keyset.below (before.map Cursor.key) := by
    ext k
    constructor
    · rintro ⟨r, hr, rfl⟩
      obtain ⟨hmem, hcond⟩ := List.mem_filter.mp hr
      obtain ⟨hl, hb⟩ := of_decide_eq_true hcond
      refine ⟨⟨r, hmem, hl, rfl⟩, ?_⟩
      cases before with
      | none => exact Set.mem_univ _
      | some c => exact (comesAfter_iff c r).mp (hb c rfl)
    · rintro ⟨⟨r, hmem, hl, rfl⟩, hb⟩
      refine ⟨r, List.mem_filter.mpr ⟨hmem, decide_eq_true ⟨hl, ?_⟩⟩, rfl⟩
      rintro c rfl
      exact (comesAfter_iff c r).mpr hb
  rw [hset] at hpage
  unfold JobsSelect.fetchAll
  rw [List.map_map]
  exact hpage

def cursorAt (k : Key) : Cursor := ⟨(ofLex k).1, (ofLex k).2⟩

/-- A page is a keyset page, and its `next_cursor` is the key of its last row. -/
theorem answer_isPage {codec : CursorCodec} {q : ListQuery} {t : Jobs} {page : ListPage}
    {before : Option Cursor} (hq : decodeBefore codec q.cursor = .ok before)
    (h : answer codec q t = .ok page) :
    Keyset.IsPage (listedKeys q t ∩ Keyset.below (before.map Cursor.key)) (pageLimit q).toNat
      (page.items.map JobItem.key) ∧
    page.nextCursor = (Keyset.next (pageLimit q).toNat (page.items.map JobItem.key)).map
      fun k => encodeCursor codec (cursorAt k) := by
  obtain ⟨before', -, hb, rfl⟩ := answer_ok.mp h
  obtain rfl := Except.ok.inj (hq.symm.trans hb)
  have hpage := fetchAll_isPage q before t
  generalize JobsSelect.fetchAll ⟨q.status, q.inputId, before, pageLimit q⟩ t = rows at hpage ⊢
  have hkeys : (listPage codec (pageLimit q) rows).items.map JobItem.key =
      rows.map JobSummaryRow.key := by
    simp only [listPage, List.map_map]
    rfl
  rw [hkeys]
  refine ⟨hpage, ?_⟩
  have hlen : ((rows.length : Int) = pageLimit q) ↔ rows.length = (pageLimit q).toNat := by
    have hpos := pageLimit_pos q
    omega
  unfold Keyset.next listPage
  rw [List.length_map, List.getLast?_map]
  simp only [hlen]
  split
  · rw [Option.map_map]
    rfl
  · rfl

/-- A client follows `next_cursor`: the jobs table at each of its requests, and
the page it gets. -/
def Walk (codec : CursorCodec) : ListQuery → List (Jobs × ListPage) → Prop
  | _, [] => True
  | q, (t, page) :: rest => answer codec q t = .ok page ∧
      match page.nextCursor with
      | some c => Walk codec { q with cursor := some c } rest
      | none => rest = []

def received (ms : List (Jobs × ListPage)) : List JobItem := ms.flatMap fun m => m.2.items

/-- The last page came without a cursor. -/
def Finished (ms : List (Jobs × ListPage)) : Prop := ∃ m ∈ ms.getLast?, m.2.nextCursor = none

/-- What keyset pagination sees of a walk. -/
def keys (q : ListQuery) (ms : List (Jobs × ListPage)) : List (Set Key × List Key) :=
  ms.map fun m => (listedKeys q m.1, m.2.items.map JobItem.key)

theorem received_keys (q : ListQuery) (ms : List (Jobs × ListPage)) :
    Keyset.received (keys q ms) = (received ms).map JobItem.key := by
  simp [Keyset.received, keys, received, List.flatMap_map, List.map_flatMap]

theorem Walk.keyset {codec : CursorCodec} {q : ListQuery} {ms : List (Jobs × ListPage)}
    (h : Walk codec q ms) {before : Option Cursor}
    (hq : decodeBefore codec q.cursor = .ok before) :
    Keyset.Walk (pageLimit q).toNat (before.map Cursor.key) (keys q ms) := by
  induction ms generalizing q before with
  | nil => trivial
  | cons m rest ih =>
    obtain ⟨hanswer, hrest⟩ := h
    obtain ⟨hpage, hnext⟩ := answer_isPage hq hanswer
    refine ⟨hpage, ?_⟩
    rw [hnext] at hrest
    cases hc : Keyset.next (pageLimit q).toNat (m.2.items.map JobItem.key) with
    | none =>
      rw [hc] at hrest
      simp only [Option.map_none] at hrest
      simp only [hrest, List.map_nil]
    | some k =>
      rw [hc] at hrest
      have hdec : decodeBefore codec (some (encodeCursor codec (cursorAt k))) =
          .ok (some (cursorAt k)) := by simp [decodeBefore, Except.map]
      exact ih (q := { q with cursor := _ }) hrest hdec

/-- A job keeps its `created_at` from one table to the other. -/
def Agree (t t' : Jobs) : Prop :=
  ∀ id r r', t.find? id = some r → t'.find? id = some r' → r.createdAt = r'.createdAt

theorem Agree.rowKey {t t' : Jobs} (h : Agree t t') {r r' : JobRow} (hr : r ∈ t.rows)
    (hr' : r' ∈ t'.rows) (hid : r.id = r'.id) : rowKey r = rowKey r' := by
  have hat := h r'.id r r' (Table.find?_eq_some.mpr ⟨hr, hid⟩) (Table.find?_of_mem hr')
  unfold Listing.rowKey
  rw [hat, hid]

/-- What a client gets that starts without a cursor. -/
structure Served (codec : CursorCodec) (q : ListQuery) (ms : List (Jobs × ListPage)) : Prop where
  /-- Strictly, by `created_at` and then by `id`. -/
  descending : (received ms).Pairwise fun i j => j.row.createdAt < i.row.createdAt ∨
    (j.row.createdAt = i.row.createdAt ∧ j.row.id < i.row.id)
  once : ((received ms).map fun i => i.row.id).Nodup
  complete : Finished ms → ∀ id,
    (∀ m ∈ ms, ∃ r, m.1.find? id = some r ∧ lists q.status q.inputId r = true) →
    ((received ms).map fun i => i.row.id).count id = 1
  /-- A cursor that a page hands out is taken back. -/
  followed : ∀ m ∈ ms.getLast?, m.2.nextCursor ≠ none →
    ∀ t, ∃ page, Walk codec q (ms ++ [(t, page)])

theorem Walk.page {codec : CursorCodec} {q : ListQuery} {ms : List (Jobs × ListPage)}
    (h : Walk codec q ms) {m : Jobs × ListPage} (hm : m ∈ ms) :
    (∀ i ∈ m.2.items, i.key ∈ listedKeys q m.1) ∧
    m.2.nextCursor = (Keyset.next (pageLimit q).toNat (m.2.items.map JobItem.key)).map
      fun k => encodeCursor codec (cursorAt k) := by
  induction ms generalizing q with
  | nil => cases hm
  | cons m₀ rest ih =>
    obtain ⟨hanswer, hrest⟩ := h
    rcases List.mem_cons.mp hm with rfl | hm
    · obtain ⟨before, -, hb, -⟩ := answer_ok.mp hanswer
      obtain ⟨hpage, hnext⟩ := answer_isPage hb hanswer
      exact ⟨fun i hi => (hpage.mem _ (List.mem_map_of_mem hi)).1, hnext⟩
    · split at hrest
      · rename_i c _
        exact ih (q := { q with cursor := some c }) hrest hm
      · subst hrest
        cases hm

/-- An item comes from a row of the table its page was read from. -/
theorem Walk.item {codec : CursorCodec} {q : ListQuery} {ms : List (Jobs × ListPage)}
    (h : Walk codec q ms) {i : JobItem} (hi : i ∈ received ms) :
    ∃ m ∈ ms, ∃ r ∈ m.1.rows, rowKey r = i.key := by
  obtain ⟨m, hm, hi⟩ := List.mem_flatMap.mp hi
  obtain ⟨r, hr, -, hk⟩ := (h.page hm).1 i hi
  exact ⟨m, hm, r, hr, hk⟩

/-- The request with the cursor of a page is not refused. -/
theorem answer_follow {codec : CursorCodec} {q : ListQuery} {t : Jobs} {page : ListPage}
    {c : String} (h : answer codec q t = .ok page) (hc : page.nextCursor = some c) (t' : Jobs) :
    ∃ page', answer codec { q with cursor := some c } t' = .ok page' := by
  obtain ⟨before, hstatus, hb, -⟩ := answer_ok.mp h
  have hnext := (answer_isPage hb h).2
  obtain ⟨k, -, rfl⟩ := Option.map_eq_some_iff.mp (hnext.symm.trans hc)
  exact ⟨_, answer_ok.mpr
    ⟨some (cursorAt k), hstatus, by simp [decodeBefore, Except.map], rfl⟩⟩

theorem Walk.follow {codec : CursorCodec} {q : ListQuery} {ms : List (Jobs × ListPage)}
    (h : Walk codec q ms) {m : Jobs × ListPage} (hm : m ∈ ms.getLast?)
    (hc : m.2.nextCursor ≠ none) (t : Jobs) : ∃ page, Walk codec q (ms ++ [(t, page)]) := by
  induction ms generalizing q with
  | nil => cases hm
  | cons m₀ rest ih =>
    obtain ⟨hanswer, hrest⟩ := h
    cases rest with
    | nil =>
      obtain rfl : m₀ = m := by simpa using hm
      obtain ⟨c, hc⟩ := Option.ne_none_iff_exists'.mp hc
      obtain ⟨page, hpage⟩ := answer_follow hanswer hc t
      refine ⟨page, hanswer, ?_⟩
      rw [hc]
      refine ⟨hpage, ?_⟩
      split
      · trivial
      · rfl
    | cons m₁ rest =>
      cases hnext : m₀.2.nextCursor with
      | none =>
        rw [hnext] at hrest
        cases hrest
      | some c =>
        rw [hnext] at hrest
        obtain ⟨page, hpage⟩ := ih hrest (by simpa using hm)
        refine ⟨page, hanswer, ?_⟩
        rw [hnext]
        exact hpage

theorem Walk.served {codec : CursorCodec} {q : ListQuery} {ms : List (Jobs × ListPage)}
    (h : Walk codec q ms) (hq : q.cursor = none)
    (hagree : ∀ m ∈ ms, ∀ m' ∈ ms, Agree m.1 m'.1) : Served codec q ms := by
  have hdec : decodeBefore codec q.cursor = .ok none := by
    rw [hq]
    rfl
  have hkeys := h.keyset hdec
  have hdesc : ((received ms).map JobItem.key).SortedGT := by
    rw [← received_keys q]
    exact hkeys.desc
  -- two items of one job would carry one key
  have honce : ((received ms).map fun i => i.row.id).Nodup := by
    have hnd := List.pairwise_map.mp hdesc.nodup
    refine List.pairwise_map.mpr (hnd.imp_of_mem fun {i j} hi hj hne hid => hne ?_)
    obtain ⟨m, hm, r, hr, hk⟩ := h.item hi
    obtain ⟨m', hm', r', hr', hk'⟩ := h.item hj
    have hrid : r.id = r'.id := by
      have hi' : r.id = i.row.id := congrArg (fun k => (ofLex k).2) hk
      have hj' : r'.id = j.row.id := congrArg (fun k => (ofLex k).2) hk'
      rw [hi', hj', hid]
    rw [← hk, ← hk']
    exact (hagree m hm m' hm').rowKey hr hr' hrid
  have horder : (received ms).Pairwise fun i j => j.key < i.key := List.pairwise_map.mp hdesc.pairwise
  refine ⟨horder.imp fun hlt => Prod.Lex.toLex_lt_toLex.mp hlt, honce, fun hfin id hpresent => ?_, fun m hm hc t => h.follow hm hc t⟩
  obtain ⟨last, hlast, hnone⟩ := hfin
  have hmem : last ∈ ms := List.mem_of_getLast? hlast
  obtain ⟨r, hr, -⟩ := hpresent last hmem
  -- the job has the same key at every request
  have hthere : ∀ n ∈ keys q ms, rowKey r ∈ n.1 := by
    intro n hn
    obtain ⟨m, hm, rfl⟩ := List.mem_map.mp hn
    obtain ⟨r', hr', hl⟩ := hpresent m hm
    obtain ⟨hin, hid⟩ := Table.find?_eq_some.mp hr'
    obtain ⟨hin₀, hid₀⟩ := Table.find?_eq_some.mp hr
    exact ⟨r', hin, hl, (hagree m hm last hmem).rowKey hin hin₀ (hid.trans hid₀.symm)⟩
  have hne : keys q ms ≠ [] := by
    intro he
    rw [List.map_eq_nil_iff.mp he] at hmem
    cases hmem
  rcases hkeys.complete (pageLimit_pos q) hne (Set.mem_univ _) hthere with hr' | ⟨n, hn, c, hc, -⟩
  · rw [received_keys] at hr'
    obtain ⟨i, hi, hk⟩ := List.mem_map.mp hr'
    have hid : i.row.id = id := by
      have hi' : i.row.id = r.id := congrArg (fun k => (ofLex k).2) hk
      rw [hi', Table.find?_key hr]
    exact List.count_eq_one_of_mem honce (hid ▸ List.mem_map_of_mem hi)
  · -- the last page has no cursor
    exfalso
    rw [keys, List.getLast?_map, hlast] at hn
    obtain rfl := Option.some.inj hn
    rw [(h.page hmem).2, hc] at hnone
    cases hnone

/-- A new job, or a statement on the jobs there are: a claim, an end, a cancel,
a requeue, a soft-delete, a restore. -/
inductive JobsWrite where
  | insert (row : JobRow)
  | stmt (st : JobStmt)

def write (t : Jobs) : JobsWrite → Option Jobs
  | .insert row => t.insert? row
  | .stmt st => some (t.update st.update)

/-- No write removes a job or touches its request. -/
def Grown (t t' : Jobs) : Prop :=
  ∀ id r, t.find? id = some r → ∃ r', t'.find? id = some r' ∧ SameRequest r r'

theorem Grown.refl (t : Jobs) : Grown t t := fun _ r h => ⟨r, h, SameRequest.refl r⟩

theorem Grown.trans {t t' t'' : Jobs} (h : Grown t t') (h' : Grown t' t'') : Grown t t'' := by
  intro id r hr
  obtain ⟨r', hr', hsame⟩ := h id r hr
  obtain ⟨r'', hr'', hsame'⟩ := h' id r' hr'
  exact ⟨r'', hr'', hsame.trans hsame'⟩

theorem Grown.agree {t t' : Jobs} (h : Grown t t') : Agree t t' := by
  intro id r r' hr hr'
  obtain ⟨r'', hr'', hsame⟩ := h id r hr
  obtain rfl := Option.some.inj (hr'.symm.trans hr'')
  exact hsame.createdAt.symm

theorem write_grown {t t' : Jobs} {a : JobsWrite} (h : write t a = some t') : Grown t t' := by
  intro id r hr
  cases a with
  | insert row =>
    have hfresh := (Table.insert?_eq_some.mp h).1
    have hne : row.id ≠ id := by
      rintro rfl
      rw [hr] at hfresh
      cases hfresh
    refine ⟨r, ?_, SameRequest.refl r⟩
    rw [Table.find?_insert h, if_neg hne, hr]
  | stmt st =>
    obtain rfl := Option.some.inj h
    refine ⟨st.update.row r, ?_, stmt_sameRequest st r⟩
    rw [Table.find?_update, hr]
    rfl

/-- Any writes lead from the one table to the other. -/
def Later (t t' : Jobs) : Prop := ∃ ws, Runs.run write ws t = some t'

theorem Later.grown {t t' : Jobs} (h : Later t t') : Grown t t' := by
  obtain ⟨ws, h⟩ := h
  exact Runs.invariant (I := Grown t) (fun u a v hu hs => hu.trans (write_grown hs)) h (Grown.refl t)

instance : IsTrans Jobs Grown := ⟨fun _ _ _ h h' => h.trans h'⟩
instance : Std.Symm Agree := ⟨fun _ _ h id r r' hr hr' => (h id r' r hr' hr).symm⟩

theorem agree_of_grown {ms : List (Jobs × ListPage)}
    (h : (ms.map Prod.fst).IsChain Grown) : ∀ m ∈ ms, ∀ m' ∈ ms, Agree m.1 m'.1 := by
  have hpair : (ms.map Prod.fst).Pairwise Agree :=
    (List.isChain_iff_pairwise.mp h).imp fun h => h.agree
  have hall := hpair.forall_of_forall fun t _ => (Grown.refl t).agree
  exact fun m hm m' hm' => hall (List.mem_map_of_mem hm) (List.mem_map_of_mem hm')

/-- A client that starts without a cursor and follows `next_cursor`, whatever is
written between its requests, gets the jobs in strictly descending
`(created_at, id)` order and none of them twice; once it is through, it has got
every job that was listed at each of its requests exactly once. -/
theorem pages_complete (codec : CursorCodec) {q : ListQuery} (hq : q.cursor = none)
    {ms : List (Jobs × ListPage)} (hw : Walk codec q ms)
    (hlater : (ms.map Prod.fst).IsChain Later) : Served codec q ms := by
  have hgrown : (ms.map Prod.fst).IsChain Grown := hlater.imp fun t t' h => h.grown
  exact hw.served hq (agree_of_grown hgrown)

/-- An id that is drawn once names one job for good. -/
theorem agree_of_run {cfg : Calls.Config} {s t : Server.State} {as : List Server.Act}
    (hs : Server.Reachable cfg s) (h : Server.run cfg as s = some t) :
    Agree s.world.db.jobs t.world.db.jobs := by
  intro id r r' hr hr'
  have hkeep := run_keeps (Rows.reachable_ids hs) h hr r' hr'
  exact hkeep.request.createdAt.symm

/-- The same over the server's own runs, purges and restarts among them. -/
theorem pages_of_runs (codec : CursorCodec) {cfg : Calls.Config} {q : ListQuery}
    (hq : q.cursor = none) {ms : List (Server.State × ListPage)}
    (hs : ∀ m ∈ ms, Server.Reachable cfg m.1)
    (hruns : (ms.map Prod.fst).IsChain fun s t => ∃ as, Server.run cfg as s = some t)
    (hw : Walk codec q (ms.map fun m => (m.1.world.db.jobs, m.2))) :
    Served codec q (ms.map fun m => (m.1.world.db.jobs, m.2)) := by
  have htrans : IsTrans Server.State fun s t => ∃ as, Server.run cfg as s = some t :=
    ⟨fun _ _ _ ⟨_, h⟩ ⟨_, h'⟩ => ⟨_, Runs.run_trans h h'⟩⟩
  have hpair : ms.Pairwise fun m m' => ∃ as, Server.run cfg as m.1 = some m'.1 :=
    List.pairwise_map.mp (List.isChain_iff_pairwise.mp hruns)
  have hagree : (ms.map fun m => m.1.world.db.jobs).Pairwise Agree :=
    List.pairwise_map.mpr (hpair.imp_of_mem fun hm _ ⟨_, h⟩ => agree_of_run (hs _ hm) h)
  have hall := hagree.forall_of_forall fun t _ => (Grown.refl t).agree
  refine hw.served hq fun m hm m' hm' => ?_
  obtain ⟨n, hn, rfl⟩ := List.mem_map.mp hm
  obtain ⟨n', hn', rfl⟩ := List.mem_map.mp hm'
  exact hall (List.mem_map_of_mem hn) (List.mem_map_of_mem hn')

/-- A job that the filters let through sorts after the last item of the page. -/
def More (q : ListQuery) (t : Jobs) (page : ListPage) : Prop :=
  ∃ last ∈ page.items.getLast?, ∃ r ∈ t.rows,
    lists q.status q.inputId r = true ∧ comesAfter ⟨last.row.createdAt, last.row.id⟩ r = true

/-- How many jobs a request has left to list, this page included. -/
def remaining (q : ListQuery) (before : Option Cursor) (t : Jobs) : Nat :=
  t.rows.countP (JobsSelect.cond ⟨q.status, q.inputId, before, pageLimit q⟩)

/-- All that a request has left to list, in the order of the pages. -/
def listing (q : ListQuery) (before : Option Cursor) (t : Jobs) : List Key :=
  ((t.rows.filter (JobsSelect.cond ⟨q.status, q.inputId, before, pageLimit q⟩)).insertionSort
    newestFirst).map rowKey

theorem listing_desc (q : ListQuery) (before : Option Cursor) (t : Jobs) :
    (listing q before t).Pairwise fun j k => k < j :=
  (Keyset.sort_desc newestFirst_iff
    ((rows_nodup t).sublist (List.filter_sublist.map rowKey))).pairwise

theorem length_listing (q : ListQuery) (before : Option Cursor) (t : Jobs) :
    (listing q before t).length = remaining q before t := by
  simp [listing, remaining, List.countP_eq_length_filter]

theorem mem_listing {q : ListQuery} {before : Option Cursor} {t : Jobs} {k : Key} :
    k ∈ listing q before t ↔
      ∃ r ∈ t.rows, lists q.status q.inputId r = true ∧ (∀ c ∈ before, rowKey r < c.key) ∧
        rowKey r = k := by
  simp only [listing, List.mem_map, List.mem_insertionSort, List.mem_filter, JobsSelect.cond,
    decide_eq_true_eq, comesAfter_iff, and_assoc]

/-- A page is the start of the listing. -/
theorem keys_eq_take {codec : CursorCodec} {q : ListQuery} {t : Jobs} {page : ListPage}
    {before : Option Cursor} (hq : decodeBefore codec q.cursor = .ok before)
    (h : answer codec q t = .ok page) :
    page.items.map JobItem.key = (listing q before t).take (pageLimit q).toNat := by
  obtain ⟨before', -, hb, rfl⟩ := answer_ok.mp h
  obtain rfl := Except.ok.inj (hq.symm.trans hb)
  simp only [listPage, JobsSelect.fetchAll, listing, List.map_map, List.map_take]
  rfl

theorem nextCursor_eq_none {codec : CursorCodec} {q : ListQuery} {t : Jobs} {page : ListPage}
    {before : Option Cursor} (hq : decodeBefore codec q.cursor = .ok before)
    (h : answer codec q t = .ok page) :
    page.nextCursor = none ↔ remaining q before t < (pageLimit q).toNat := by
  have hpos := pageLimit_pos q
  rw [(answer_isPage hq h).2, keys_eq_take hq h, Option.map_eq_none_iff, Keyset.next,
    ← length_listing, List.length_take]
  split
  · rename_i hfull
    rw [List.getLast?_eq_none_iff, List.take_eq_nil_iff]
    constructor
    · rintro (hzero | hnil)
      · omega
      · rw [hnil] at hfull
        simp only [List.length_nil] at hfull
        omega
    · omega
  · simp only [true_iff]
    omega

theorem not_more_iff {codec : CursorCodec} {q : ListQuery} {t : Jobs} {page : ListPage}
    {before : Option Cursor} (hq : decodeBefore codec q.cursor = .ok before)
    (h : answer codec q t = .ok page) :
    ¬ More q t page ↔ remaining q before t ≤ (pageLimit q).toNat := by
  rw [← length_listing, ← Keyset.none_below_last (listing_desc q before t).sortedGT (pageLimit_pos q),
    ← keys_eq_take hq h, List.getLast?_map]
  constructor
  · intro hno c hc k hk hlt
    obtain ⟨last, hlast, rfl⟩ := Option.map_eq_some_iff.mp hc
    obtain ⟨r, hr, hl, -, rfl⟩ := mem_listing.mp hk
    exact hno ⟨last, hlast, r, hr, hl, (comesAfter_iff _ r).mpr hlt⟩
  · rintro hno ⟨last, hlast, r, hr, hl, hafter⟩
    have hlt : rowKey r < last.key := (comesAfter_iff _ r).mp hafter
    -- the last item is itself below the cursor of the request
    have hin : last.key ∈ listing q before t := by
      apply List.mem_of_mem_take (i := (pageLimit q).toNat)
      rw [← keys_eq_take hq h]
      exact List.mem_map_of_mem (List.mem_of_getLast? hlast)
    obtain ⟨r', -, -, hbelow, hk⟩ := mem_listing.mp hin
    refine hno last.key (by rw [hlast]; rfl) (rowKey r) (mem_listing.mpr ⟨r, hr, hl, ?_, rfl⟩) hlt
    intro c hc
    rw [← hk] at hlt
    exact lt_trans hlt (hbelow c hc)

/-- `next_cursor` tells the last page from the others unless what is left is
exactly one full page: then the cursor leads to an empty one. -/
theorem nextCursor_right_iff (codec : CursorCodec) {q : ListQuery} {t : Jobs} {page : ListPage}
    {before : Option Cursor} (hq : decodeBefore codec q.cursor = .ok before)
    (h : answer codec q t = .ok page) :
    (page.nextCursor = none ↔ ¬ More q t page) ↔ (remaining q before t : Int) ≠ pageLimit q := by
  have hpos := pageLimit_pos q
  rw [nextCursor_eq_none hq h, not_more_iff hq h]
  omega

def jobD : String := "00000000-0000-4000-8000-00000000000d"

def cursorB : Cursor := ⟨100, Server.jobB⟩

def cursorJson : Bytes :=
  "\x7b\"created_at\":100,\"id\":\"00000000-0000-4000-8000-00000000000b\"\x7d".toUTF8.toList

def cursorText : String :=
  "eyJjcmVhdGVkX2F0IjoxMDAsImlkIjoiMDAwMDAwMDAtMDAwMC00MDAwLTgwMDAtMDAwMDAwMDAwMDBiIn0"

theorem zeros_ne_json (n : Nat) : List.replicate n 0 ≠ cursorJson := by
  intro h
  have hmem : (123 : UInt8) ∈ cursorJson := by decide +kernel
  rw [← h] at hmem
  exact absurd (List.eq_of_mem_replicate hmem) (by decide)

theorem padding_ne_text (n : Nat) : String.ofList (List.replicate n '=') ≠ cursorText := by
  intro h
  have hmem : 'e' ∈ cursorText.toList := by decide +kernel
  rw [← h, String.toList_ofList] at hmem
  exact absurd (List.eq_of_mem_replicate hmem) (by decide)

/-- The real codec at `cursorB`, numbers in unary anywhere else. -/
def sampleCodec : CursorCodec where
  toVec c := if c = cursorB then cursorJson else
    List.replicate (Encodable.encode (c.createdAt, c.id.toList.map Char.toNat)) 0
  fromSlice b := if b = cursorJson then some cursorB else
    (Encodable.decode (α := Int × List Nat) b.length).map fun p =>
      ⟨p.1, String.ofList (p.2.map Char.ofNat)⟩
  encode b := if b = cursorJson then cursorText else
    String.ofList (List.replicate (Encodable.encode (b.map UInt8.toNat)) '=')
  decode s := if s = cursorText then some cursorJson else
    (Encodable.decode (α := List Nat) s.length).map fun l => l.map UInt8.ofNat
  fromSlice_toVec c := by
    by_cases hc : c = cursorB
    · simp [hc]
    · have hinv : Char.ofNat ∘ Char.toNat = id := funext Char.ofNat_toNat
      have hid : (c.id.toList.map Char.toNat).map Char.ofNat = c.id.toList := by
        rw [List.map_map, hinv, List.map_id]
      rw [if_neg hc, if_neg (zeros_ne_json _), List.length_replicate, Encodable.encodek,
        Option.map_some, hid, String.ofList_toList]
  decode_encode b := by
    by_cases hb : b = cursorJson
    · simp [hb]
    · have hinv : UInt8.ofNat ∘ UInt8.toNat = id := funext fun _ => UInt8.ofNat_toNat
      rw [if_neg hb, if_neg (padding_ne_text _), String.length_ofList, List.length_replicate,
        Encodable.encodek, Option.map_some, List.map_map, hinv, List.map_id]

def sampleJob (id : String) (now : Int) : JobRow :=
  newJob id 1 none "make it blue" "edit" 600 7 now

def sampleJobs : Jobs :=
  ⟨[sampleJob Server.jobA 100, sampleJob Server.jobC 200, sampleJob Server.jobB 100], by decide +kernel⟩

/-- The first job is claimed, the newest deleted, and a new one comes in. -/
def sampleWrites : List JobsWrite :=
  [.stmt (.markRunning 300 Server.jobA), .stmt (.deleteJob 300 Server.jobC), .insert (sampleJob jobD 300)]

def sampleQuery : ListQuery := ⟨none, none, none, some 2⟩

theorem sample_cursor : encodeCursor sampleCodec cursorB = cursorText := by
  simp [encodeCursor, sampleCodec]

theorem pages_complete_sample : ∃ t p p',
    Runs.run write sampleWrites sampleJobs = some t ∧
    Walk sampleCodec sampleQuery [(sampleJobs, p), (t, p')] ∧
    p.items.map (fun i => i.row.id) = [Server.jobC, Server.jobB] ∧ p.nextCursor = some cursorText ∧
    p'.items.map (fun i => i.row.id) = [Server.jobA] ∧ p'.nextCursor = none ∧
    Served sampleCodec sampleQuery [(sampleJobs, p), (t, p')] := by
  obtain ⟨t, ht⟩ : ∃ t, Runs.run write sampleWrites sampleJobs = some t := ⟨_, rfl⟩
  have hfirst : JobsSelect.fetchAll ⟨none, none, none, 2⟩ sampleJobs =
      [JobSummaryRow.of (sampleJob Server.jobC 200), JobSummaryRow.of (sampleJob Server.jobB 100)] := by
    decide +kernel
  have hsecond : (Runs.run write sampleWrites sampleJobs).map
      (JobsSelect.fetchAll ⟨none, none, some cursorB, 2⟩) =
      some [JobSummaryRow.of ((markRunning 300 Server.jobA).set (sampleJob Server.jobA 100))] := by
    decide +kernel
  rw [ht] at hsecond
  replace hsecond := Option.some.inj hsecond
  have hw : Walk sampleCodec sampleQuery
      [(sampleJobs, listPage sampleCodec 2 [JobSummaryRow.of (sampleJob Server.jobC 200),
          JobSummaryRow.of (sampleJob Server.jobB 100)]),
        (t, listPage sampleCodec 2
          [JobSummaryRow.of ((markRunning 300 Server.jobA).set (sampleJob Server.jobA 100))])] := by
    refine ⟨answer_ok.mpr ⟨none, rfl, rfl, by rw [← hfirst]; rfl⟩, ?_⟩
    refine ⟨answer_ok.mpr ⟨some cursorB, rfl, ?_, by rw [← hsecond]; rfl⟩, ?_⟩
    · exact congrArg (Except.map some) (decode_encode sampleCodec cursorB)
    · rfl
  exact ⟨t, _, _, ht, hw, rfl, congrArg some sample_cursor, rfl, rfl,
    pages_complete sampleCodec rfl hw (.cons_cons ⟨sampleWrites, ht⟩ (.singleton _))⟩

theorem nextCursor_right_sample : ∃ page, answer sampleCodec sampleQuery sampleJobs = .ok page ∧
    page.nextCursor ≠ none ∧ More sampleQuery sampleJobs page ∧
    ((page.nextCursor = none ↔ ¬ More sampleQuery sampleJobs page) ↔
      (remaining sampleQuery none sampleJobs : Int) ≠ pageLimit sampleQuery) := by
  have hrows : JobsSelect.fetchAll ⟨none, none, none, 2⟩ sampleJobs =
      [JobSummaryRow.of (sampleJob Server.jobC 200), JobSummaryRow.of (sampleJob Server.jobB 100)] := by
    decide +kernel
  have hpage : answer sampleCodec sampleQuery sampleJobs = .ok (listPage sampleCodec 2
      [JobSummaryRow.of (sampleJob Server.jobC 200), JobSummaryRow.of (sampleJob Server.jobB 100)]) :=
    answer_ok.mpr ⟨none, rfl, rfl, by rw [← hrows]; rfl⟩
  refine ⟨_, hpage, by simp [listPage], ?_, nextCursor_right_iff sampleCodec rfl hpage⟩
  exact ⟨_, rfl, sampleJob Server.jobA 100, by simp [sampleJobs], rfl, by decide +kernel⟩

/-- Three jobs and a page of three: all are on it, and it has a cursor. -/
theorem nextCursor_full_page :
    ¬ ∀ (codec : CursorCodec) (q : ListQuery) (t : Jobs) (page : ListPage),
      answer codec q t = .ok page → (page.nextCursor = none ↔ ¬ More q t page) := by
  intro hall
  have hrows : JobsSelect.fetchAll ⟨none, none, none, 3⟩ sampleJobs =
      [JobSummaryRow.of (sampleJob Server.jobC 200), JobSummaryRow.of (sampleJob Server.jobB 100),
        JobSummaryRow.of (sampleJob Server.jobA 100)] := by
    decide +kernel
  have hpage : answer sampleCodec ⟨none, none, none, some 3⟩ sampleJobs = .ok (listPage sampleCodec 3
      [JobSummaryRow.of (sampleJob Server.jobC 200), JobSummaryRow.of (sampleJob Server.jobB 100),
        JobSummaryRow.of (sampleJob Server.jobA 100)]) :=
    answer_ok.mpr ⟨none, rfl, rfl, by rw [← hrows]; rfl⟩
  have hnone := (hall _ _ _ _ hpage).mpr ((not_more_iff rfl hpage).mpr (by decide +kernel))
  simp [listPage] at hnone

end ZunServer.Listing
