import Mathlib.Data.List.Nodup
import Mathlib.Order.Lattice
import Mathlib.Tactic.Tauto

/-!
# Tables with a primary key

A table is a list of rows whose keys are distinct; the proof travels with the
rows. The operations are the single-table statements of SQL: an `UPDATE` keeps
the key of every row, an `INSERT` is refused when the key is taken. Each one is
characterised by what `find?` returns afterwards for an arbitrary key.
-/
namespace KeyedTable

variable {κ ρ : Type*} {key : ρ → κ}

structure Table (key : ρ → κ) where
  rows : List ρ
  nodup : (rows.map key).Nodup

/-- `UPDATE .. SET set WHERE cond`; the primary key is never assigned. -/
structure Update (key : ρ → κ) where
  cond : ρ → Bool
  set : ρ → ρ
  keeps : ∀ r, key (set r) = key r

/-- The row an `UPDATE` leaves in place of `r`. -/
def Update.row (u : Update key) (r : ρ) : ρ := if u.cond r then u.set r else r

theorem Update.row_key (u : Update key) (r : ρ) : key (u.row r) = key r := by
  unfold Update.row
  split
  · exact u.keeps r
  · rfl

theorem Update.row_of_cond (u : Update key) {r : ρ} (h : u.cond r = true) :
    u.row r = u.set r := by simp [Update.row, h]

theorem Update.row_of_not (u : Update key) {r : ρ} (h : u.cond r = false) :
    u.row r = r := by simp [Update.row, h]

namespace Table

def empty : Table key := ⟨[], by simp⟩

def update (t : Table key) (u : Update key) : Table key where
  rows := t.rows.map u.row
  nodup := by
    have h : t.rows.map (key ∘ u.row) = t.rows.map key :=
      List.map_congr_left (fun r _ => u.row_key r)
    rw [List.map_map, h]
    exact t.nodup

/-- `rows_affected` of the same statement. -/
def affected (t : Table key) (u : Update key) : Nat := t.rows.countP u.cond

theorem mem_update {t : Table key} {u : Update key} {r : ρ} :
    r ∈ (t.update u).rows ↔ ∃ r₀ ∈ t.rows, u.row r₀ = r := by simp [update]

/-- `DELETE .. WHERE p`. -/
def delete (t : Table key) (p : ρ → Bool) : Table key where
  rows := t.rows.filter (fun r => !p r)
  nodup := (List.filter_sublist.map key).nodup t.nodup

theorem mem_delete {t : Table key} {p : ρ → Bool} {r : ρ} :
    r ∈ (t.delete p).rows ↔ r ∈ t.rows ∧ p r = false := by simp [delete]

theorem ext_rows {t t' : Table key} (h : t.rows = t'.rows) : t = t' := by
  cases t
  cases t'
  cases h
  rfl

/-- One `DELETE` after the other. -/
theorem foldl_delete {α : Type*} (p : α → ρ → Bool) (l : List α) (t : Table key) :
    l.foldl (fun t a => t.delete (p a)) t = t.delete fun r => l.any (p · r) := by
  induction l generalizing t with
  | nil => exact ext_rows (by simp [delete])
  | cons a l ih =>
    rw [List.foldl_cons, ih]
    apply ext_rows
    simp only [delete, List.filter_filter, List.any_cons, Bool.not_or]
    exact List.filter_congr fun r _ => Bool.and_comm _ _

/-- One `UPDATE` after the other. -/
theorem foldl_update {α : Type*} (u : α → Update key) (l : List α) (t : Table key) :
    (l.foldl (fun t a => t.update (u a)) t).rows =
      t.rows.map fun r => l.foldl (fun r a => (u a).row r) r := by
  induction l generalizing t with
  | nil => simp
  | cons a l ih => rw [List.foldl_cons, ih, update, List.map_map]; rfl

variable [DecidableEq κ]

def find? (t : Table key) (k : κ) : Option ρ := t.rows.find? (fun r => key r = k)

/-- `INSERT`; `none` is a violated PRIMARY KEY. -/
def insert? (t : Table key) (r : ρ) : Option (Table key) :=
  if h : key r ∈ t.rows.map key then none
  else some ⟨t.rows ++ [r], by
    rw [List.map_append, List.nodup_append]
    exact ⟨t.nodup, by simp, by intro a ha b hb; simp at hb; subst hb; rintro rfl; exact h ha⟩⟩

theorem find?_eq_none {t : Table key} {k : κ} : t.find? k = none ↔ ∀ r ∈ t.rows, key r ≠ k := by
  simp only [find?, List.find?_eq_none, decide_eq_true_eq, ne_eq]

/-- `find?` is the row of that key, and the only one. -/
theorem find?_eq_some {t : Table key} {k : κ} {r : ρ} :
    t.find? k = some r ↔ r ∈ t.rows ∧ key r = k := by
  have hsound : ∀ {m}, t.find? k = some m → m ∈ t.rows ∧ key m = k := fun h =>
    ⟨List.mem_of_find?_eq_some h, by simpa using List.find?_some h⟩
  refine ⟨hsound, fun ⟨hr, hk⟩ => ?_⟩
  cases h : t.find? k with
  | none => exact absurd hk (find?_eq_none.mp h r hr)
  | some m =>
    obtain ⟨hm, hmk⟩ := hsound h
    exact congrArg some (List.inj_on_of_nodup_map t.nodup hm hr (hmk.trans hk.symm))

theorem find?_key {t : Table key} {k : κ} {r : ρ} (h : t.find? k = some r) : key r = k :=
  (find?_eq_some.mp h).2

theorem find?_of_mem {t : Table key} {r : ρ} (h : r ∈ t.rows) : t.find? (key r) = some r :=
  find?_eq_some.mpr ⟨h, rfl⟩

@[simp] theorem find?_update (t : Table key) (u : Update key) (k : κ) :
    (t.update u).find? k = (t.find? k).map u.row := by
  simp only [find?, update, List.find?_map, Function.comp_def, u.row_key]

theorem insert?_eq_some {t t' : Table key} {r : ρ} :
    t.insert? r = some t' ↔ t.find? (key r) = none ∧ t'.rows = t.rows ++ [r] := by
  unfold insert?
  split
  · rename_i h
    obtain ⟨r', hr', hk⟩ := List.mem_map.mp h
    simp only [reduceCtorEq, false_iff, not_and]
    intro hn
    exact absurd hk (find?_eq_none.mp hn r' hr')
  · rename_i h
    have hn : t.find? (key r) = none :=
      find?_eq_none.mpr (fun r' hr' hk => h (List.mem_map.mpr ⟨r', hr', hk⟩))
    cases t'
    simp [hn, eq_comm]

theorem insert?_fresh {t : Table key} {r : ρ} (h : t.find? (key r) = none) :
    ∃ t', t.insert? r = some t' := by
  unfold insert?
  split
  · rename_i hk
    obtain ⟨r', hr', he⟩ := List.mem_map.mp hk
    exact absurd he (find?_eq_none.mp h r' hr')
  · exact ⟨_, rfl⟩

theorem insert?_eq_none {t : Table key} {r : ρ} :
    t.insert? r = none ↔ (t.find? (key r)).isSome = true := by
  constructor
  · intro h
    rw [Option.isSome_iff_ne_none]
    intro hfree
    obtain ⟨t', ht'⟩ := insert?_fresh hfree
    rw [h] at ht'
    cases ht'
  · intro h
    cases hins : t.insert? r with
    | none => rfl
    | some t' =>
      rw [(insert?_eq_some.mp hins).1] at h
      cases h

theorem find?_insert {t t' : Table key} {r : ρ} (h : t.insert? r = some t') (k : κ) :
    t'.find? k = if key r = k then some r else t.find? k := by
  obtain ⟨hn, hrows⟩ := insert?_eq_some.mp h
  unfold find? at hn ⊢
  rw [hrows, List.find?_append]
  split
  · rename_i hk
    subst hk
    simp [hn]
  · rename_i hk
    simp [hk]

@[simp] theorem find?_delete (t : Table key) (p : ρ → Bool) (k : κ) :
    (t.delete p).find? k = (t.find? k).filter (fun r => !p r) := by
  cases h : t.find? k with
  | none =>
    rw [Option.filter_none, find?_eq_none]
    intro r hr
    exact find?_eq_none.mp h r (List.mem_of_mem_filter hr)
  | some r =>
    obtain ⟨hr, hk⟩ := find?_eq_some.mp h
    by_cases hp : p r
    · simp only [Option.filter_some, hp, Bool.not_true, Bool.false_eq_true, ↓reduceIte]
      rw [find?_eq_none]
      intro r' hr' hk'
      obtain ⟨hm, hq⟩ := List.mem_filter.mp hr'
      have : r' = r := List.inj_on_of_nodup_map t.nodup hm hr (hk'.trans hk.symm)
      simp [this, hp] at hq
    · simp only [Option.filter_some, hp, Bool.not_false, ↓reduceIte]
      exact find?_eq_some.mpr ⟨List.mem_filter.mpr ⟨hr, by simp [hp]⟩, hk⟩

/-- A key selects one row at most. -/
theorem filter_key (t : Table key) (k : κ) :
    t.rows.filter (fun r => key r = k) = (t.find? k).toList := by
  cases h : t.find? k with
  | none =>
    have hnone := find?_eq_none.mp h
    simpa [List.filter_eq_nil_iff] using hnone
  | some r =>
    obtain ⟨hr, hk⟩ := find?_eq_some.mp h
    obtain ⟨l₁, l₂, hl⟩ := List.append_of_mem hr
    have hn := t.nodup
    rw [hl, List.map_append, List.map_cons] at hn
    have hout : ∀ r' ∈ l₁ ++ l₂, key r' ≠ k := by
      intro r' hr' hk'
      have hmem : key r ∈ l₁.map key ++ l₂.map key := by
        rw [← List.map_append, hk, ← hk']
        exact List.mem_map_of_mem hr'
      exact (List.nodup_middle.mp hn).notMem hmem
    have h₁ : l₁.filter (fun r => key r = k) = [] := by
      simpa [List.filter_eq_nil_iff] using fun r' hr' => hout r' (by simp [hr'])
    have h₂ : l₂.filter (fun r => key r = k) = [] := by
      simpa [List.filter_eq_nil_iff] using fun r' hr' => hout r' (by simp [hr'])
    simp [hl, h₁, h₂, hk]

/-- An `UPDATE` whose condition names one key touches at most one row. -/
theorem affected_keyed {t : Table key} {u : Update key} {k : κ}
    (hu : ∀ r, u.cond r = true → key r = k) :
    t.affected u = if (t.find? k).any u.cond then 1 else 0 := by
  have hcond : ∀ r ∈ t.rows, u.cond r = true ↔ (u.cond r && decide (key r = k)) = true := by
    intro r hr
    have himp := hu r
    simp only [Bool.and_eq_true, decide_eq_true_eq]
    tauto
  rw [affected, List.countP_congr hcond, ← List.countP_filter, filter_key]
  cases t.find? k with
  | none => simp
  | some r => simp [List.countP_cons]

/-- `INSERT INTO .. SELECT`, row by row: `make` makes a row of what was selected or says which
constraint it violates. -/
def insertAll {α : Type*} (make : Table key → α → Except String ρ) (t : Table key) :
    List α → Except String (Table key)
  | [] => .ok t
  | a :: l => match make t a with
    | .error e => .error e
    | .ok r => match t.insert? r with
      | none => .error "UNIQUE constraint failed"
      | some t' => insertAll make t' l

/-- What was inserted was admitted, each row as it was selected. -/
theorem insertAll_rows {α : Type*} {make : Table key → α → Except String ρ} {l : List α}
    {t t' : Table key} (h : t.insertAll make l = .ok t') :
    ∃ rs, t'.rows = t.rows ++ rs ∧ List.Forall₂ (fun a r => ∃ t₀, make t₀ a = .ok r) l rs := by
  induction l generalizing t with
  | nil =>
    cases h
    exact ⟨[], by simp, .nil⟩
  | cons a l ih =>
    simp only [insertAll] at h
    split at h
    · cases h
    · rename_i r hr
      split at h
      · cases h
      · rename_i t₁ ht₁
        obtain ⟨rs, hrows, hall⟩ := ih h
        refine ⟨r :: rs, ?_, .cons ⟨t, hr⟩ hall⟩
        rw [hrows, (insert?_eq_some.mp ht₁).2, List.append_assoc, List.singleton_append]

theorem insertAll_ok {α : Type*} (make : Table key → α → Except String ρ) {f : α → ρ} {l : List α}
    {t : Table key} (hkeys : ((t.rows ++ l.map f).map key).Nodup)
    (hmake : ∀ pre a post, l = pre ++ a :: post →
      ∀ t' : Table key, t'.rows = t.rows ++ pre.map f → make t' a = .ok (f a)) :
    ∃ t', t.insertAll make l = .ok t' ∧ t'.rows = t.rows ++ l.map f := by
  induction l generalizing t with
  | nil => exact ⟨t, rfl, by simp⟩
  | cons a l ih =>
    have hfirst : make t a = .ok (f a) := hmake [] a l rfl t (by simp)
    have hfree : t.find? (key (f a)) = none := by
      rw [find?_eq_none]
      intro r hr hk
      rw [List.map_append, List.nodup_append] at hkeys
      exact hkeys.2.2 _ (List.mem_map_of_mem hr) _ (by simp) hk
    obtain ⟨t₁, ht₁⟩ := insert?_fresh hfree
    have hrows := (insert?_eq_some.mp ht₁).2
    obtain ⟨t', ht', hrows'⟩ := ih (t := t₁) (by simpa [hrows] using hkeys) (by
      intro pre b post hl t₂ ht₂
      apply hmake (a :: pre) b post (by simp [hl]) t₂
      simp [ht₂, hrows])
    refine ⟨t', ?_, by simp [hrows', hrows]⟩
    simp only [insertAll, hfirst, ht₁, ht']

end Table

/-- `l LEFT JOIN r ON on`. -/
def leftJoin {α : Type*} (on : α → ρ → Bool) (l : List α) (r : List ρ) : List (α × Option ρ) :=
  l.flatMap fun a => match r.filter (on a) with
    | [] => [(a, none)]
    | m :: ms => (m :: ms).map fun b => (a, some b)

/-- Joined on a primary key, every row on the left is there once. -/
theorem leftJoin_key {α : Type*} [DecidableEq κ] (t : Table key) (ref : α → Option κ) (l : List α) :
    leftJoin (fun a r => ref a = some (key r)) l t.rows =
      l.map fun a => (a, (ref a).bind t.find?) := by
  induction l with
  | nil => rfl
  | cons a l ih =>
    rw [leftJoin, List.flatMap_cons, ← leftJoin, ih, List.map_cons]
    cases ha : ref a with
    | none => simp
    | some k =>
      have hmatch : t.rows.filter (fun r => some k = some (key r)) = (t.find? k).toList := by
        rw [← t.filter_key]
        simp [eq_comm]
      rw [hmatch]
      cases hfind : t.find? k <;> simp [hfind]

/-- `SELECT .. ORDER BY lt LIMIT 1` over a list of rows. -/
def first? (lt : ρ → ρ → Bool) : List ρ → Option ρ
  | [] => none
  | r :: rs => match first? lt rs with
    | none => some r
    | some m => if lt m r then some m else some r

theorem first?_eq_none {lt : ρ → ρ → Bool} {rs : List ρ} (h : first? lt rs = none) : rs = [] := by
  cases rs with
  | nil => rfl
  | cons r rs =>
    simp only [first?] at h
    split at h
    · cases h
    · split at h <;> cases h

theorem first?_mem {lt : ρ → ρ → Bool} {rs : List ρ} {m : ρ} (h : first? lt rs = some m) :
    m ∈ rs := by
  induction rs generalizing m with
  | nil => simp [first?] at h
  | cons r rs ih =>
    simp only [first?] at h
    cases hrs : first? lt rs with
    | none => simp only [hrs, Option.some.injEq] at h; simp [h]
    | some n =>
      simp only [hrs] at h
      split at h
      · obtain rfl : n = m := by simpa using h
        exact List.mem_cons_of_mem r (ih hrs)
      · obtain rfl : r = m := by simpa using h
        exact List.mem_cons_self

/-- No row comes before the first one, whatever the rows are ordered by. -/
theorem first?_le {γ : Type*} [LinearOrder γ] {rank : ρ → γ} {lt : ρ → ρ → Bool}
    (hlt : ∀ a b, lt a b = true ↔ rank a < rank b) {rs : List ρ} {m : ρ} (h : first? lt rs = some m) :
    ∀ r ∈ rs, rank m ≤ rank r := by
  induction rs generalizing m with
  | nil => simp [first?] at h
  | cons r rs ih =>
    simp only [first?] at h
    intro x hx
    cases hrs : first? lt rs with
    | none =>
      rw [hrs] at h
      rw [first?_eq_none hrs, List.mem_singleton] at hx
      rw [hx, Option.some.inj h]
    | some n =>
      have hn := ih hrs
      simp only [hrs] at h
      by_cases hc : lt n r = true
      · rw [if_pos hc] at h
        obtain rfl := Option.some.inj h
        rcases List.mem_cons.mp hx with rfl | hx
        · exact le_of_lt ((hlt n x).mp hc)
        · exact hn x hx
      · rw [if_neg hc] at h
        obtain rfl := Option.some.inj h
        have hle : rank r ≤ rank n := le_of_not_gt fun hlt' => hc ((hlt n r).mpr hlt')
        rcases List.mem_cons.mp hx with rfl | hx
        · exact le_rfl
        · exact le_trans hle (hn x hx)

/-- The rows in the order in which `first?` finds them, each taken out before the next is
looked for. -/
def inTurn [DecidableEq κ] (key : ρ → κ) (lt : ρ → ρ → Bool) : Nat → List ρ → List ρ
  | 0, _ => []
  | n + 1, rs => match first? lt rs with
    | none => []
    | some m => m :: inTurn key lt n (rs.filter fun r => key r ≠ key m)

section InTurn

variable [DecidableEq κ] {γ : Type*} [LinearOrder γ] {rank : ρ → γ} {lt : ρ → ρ → Bool}

theorem mem_of_mem_inTurn {n : Nat} {rs : List ρ} {r : ρ} (h : r ∈ inTurn key lt n rs) :
    r ∈ rs := by
  induction n generalizing rs with
  | zero => simp [inTurn] at h
  | succ n ih =>
    cases hm : first? lt rs with
    | none => simp [inTurn, hm] at h
    | some m =>
      simp only [inTurn, hm, List.mem_cons] at h
      rcases h with rfl | h
      · exact first?_mem hm
      · exact List.mem_of_mem_filter (ih h)

/-- With as many turns as there are rows, every row has its turn. -/
theorem mem_inTurn {n : Nat} {rs : List ρ} (hnd : (rs.map key).Nodup) (hn : rs.length ≤ n) {r : ρ} :
    r ∈ inTurn key lt n rs ↔ r ∈ rs := by
  refine ⟨mem_of_mem_inTurn, fun hr => ?_⟩
  induction n generalizing rs with
  | zero =>
    have hpos := List.length_pos_of_mem hr
    omega
  | succ n ih =>
    cases hm : first? lt rs with
    | none =>
      rw [first?_eq_none hm] at hr
      cases hr
    | some m =>
      have hin := first?_mem hm
      simp only [inTurn, hm, List.mem_cons]
      by_cases hkey : key r = key m
      · exact .inl (List.inj_on_of_nodup_map hnd hr hin hkey)
      · have hlen : (rs.filter fun r => key r ≠ key m).length < rs.length :=
          List.length_filter_lt_length_iff_exists.mpr ⟨m, hin, by simp⟩
        refine .inr (ih ((List.filter_sublist.map key).nodup hnd) (by omega) ?_)
        simp [hr, hkey]

/-- The turns go by the rank. -/
theorem inTurn_sorted (hlt : ∀ a b, lt a b = true ↔ rank a < rank b)
    (hrank : ∀ a b, rank a = rank b → key a = key b) (n : Nat) (rs : List ρ) :
    (inTurn key lt n rs).Pairwise fun a b => rank a < rank b := by
  induction n generalizing rs with
  | zero => simp [inTurn]
  | succ n ih =>
    cases hm : first? lt rs with
    | none => simp [inTurn, hm]
    | some m =>
      simp only [inTurn, hm, List.pairwise_cons]
      refine ⟨fun r hr => ?_, ih _⟩
      obtain ⟨hin, hkey⟩ := List.mem_filter.mp (mem_of_mem_inTurn hr)
      apply lt_of_le_of_ne (first?_le hlt hm r hin)
      intro he
      simp [hrank m r he] at hkey

theorem countP_without {rs : List ρ} (hnd : (rs.map key).Nodup) {m : ρ} (hm : m ∈ rs)
    {p : ρ → Bool} (hp : p m = true) :
    rs.countP p = (rs.filter fun r => key r ≠ key m).countP p + 1 := by
  have hone : rs.filter (fun r => key r = key m) = [m] := by
    have hkeyed := Table.filter_key ⟨rs, hnd⟩ (key m)
    rw [Table.find?_of_mem (t := ⟨rs, hnd⟩) hm] at hkeyed
    exact hkeyed
  rw [List.countP_eq_countP_filter_add rs p fun r => key r ≠ key m]
  simp [hone, hp]

/-- A row has its turn after as many others as there are rows in front of it. -/
theorem idxOf_inTurn (hlt : ∀ a b, lt a b = true ↔ rank a < rank b)
    (hrank : ∀ a b, rank a = rank b → key a = key b) {rs : List ρ} (hnd : (rs.map key).Nodup)
    {r : ρ} (hr : r ∈ rs) {n : Nat} (hn : rs.countP (lt · r) < n) :
    ((inTurn key lt n rs).map key).idxOf? (key r) = some (rs.countP (lt · r)) := by
  induction n generalizing rs with
  | zero => omega
  | succ n ih =>
    cases hm : first? lt rs with
    | none =>
      rw [first?_eq_none hm] at hr
      cases hr
    | some m =>
      have hin := first?_mem hm
      have hle := first?_le hlt hm
      simp only [inTurn, hm, List.map_cons, List.idxOf?_cons]
      by_cases hkey : key m = key r
      · obtain rfl := List.inj_on_of_nodup_map hnd hin hr hkey
        have hzero : rs.countP (lt · m) = 0 := by
          rw [List.countP_eq_zero]
          intro x hx hlt'
          exact not_lt_of_ge (hle x hx) ((hlt x m).mp hlt')
        simp [hzero]
      · have hbefore : lt m r = true :=
          (hlt m r).mpr (lt_of_le_of_ne (hle r hr) fun he => hkey (hrank m r he))
        have hcount := countP_without hnd hin hbefore (p := (lt · r))
        have hrest : r ∈ rs.filter fun x => key x ≠ key m := by simp [hr, Ne.symm hkey]
        rw [ih ((List.filter_sublist.map key).nodup hnd) hrest (by omega), hcount]
        simp [hkey]

end InTurn

end KeyedTable
