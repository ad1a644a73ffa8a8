import Mathlib.Data.List.Sort
import Mathlib.Data.Set.Basic

/-!
# Keyset pagination

A page holds the greatest keys that are there, at most `limit` of them, in
descending order. A full page leads to the next one by its last key: only what
is below that key is asked for again. The set of keys may be another one at
every page.
-/
namespace Keyset

variable {κ : Type*} [LinearOrder κ]

structure IsPage (S : Set κ) (limit : Nat) (page : List κ) : Prop where
  mem : ∀ k ∈ page, k ∈ S
  desc : page.SortedGT
  full : ∀ k ∈ S, k ∈ page ∨ (page.length = limit ∧ ∀ j ∈ page, k < j)

theorem IsPage.of_take {S : Set κ} {l : List κ} (hl : l.SortedGT) (hS : ∀ k, k ∈ S ↔ k ∈ l)
    (limit : Nat) : IsPage S limit (l.take limit) where
  mem k hk := (hS k).mpr (List.mem_of_mem_take hk)
  desc := (hl.pairwise.sublist (List.take_sublist limit l)).sortedGT
  full := by
    intro k hk
    by_cases hin : k ∈ l.take limit
    · exact .inl hin
    · have hsplit := hl.pairwise
      rw [← List.take_append_drop limit l, List.pairwise_append] at hsplit
      have hdrop : k ∈ l.drop limit := by
        have hmem := (hS k).mp hk
        rw [← List.take_append_drop limit l, List.mem_append] at hmem
        exact hmem.resolve_left hin
      have hlen : limit < l.length := by
        have hpos := List.length_pos_of_mem hdrop
        simp only [List.length_drop] at hpos
        omega
      exact .inr ⟨by simp only [List.length_take]; omega, fun j hj => hsplit.2.2 j hj k hdrop⟩

/-- `ORDER BY key DESC`. -/
theorem sort_desc {ρ : Type*} {key : ρ → κ} {rel : ρ → ρ → Prop} [DecidableRel rel]
    (hrel : ∀ a b, rel a b ↔ key b ≤ key a) {l : List ρ} (hnd : (l.map key).Nodup) :
    ((l.insertionSort rel).map key).SortedGT := by
  have : Std.Total rel := ⟨fun a b => by
    rw [hrel, hrel]
    exact le_total _ _⟩
  have : IsTrans ρ rel := ⟨fun a b c hab hbc => by
    rw [hrel] at *
    exact le_trans hbc hab⟩
  have hsort : ((l.insertionSort rel).map key).Pairwise (· ≥ ·) := by
    rw [List.pairwise_map]
    exact (List.pairwise_insertionSort rel l).imp fun h => (hrel _ _).mp h
  have hperm : (l.insertionSort rel).map key |>.Perm (l.map key) :=
    (List.perm_insertionSort rel l).map key
  exact hsort.sortedGE.sortedGT_of_nodup (hperm.nodup_iff.mpr hnd)

/-- `ORDER BY key DESC LIMIT limit`. -/
theorem IsPage.of_sort {ρ : Type*} {key : ρ → κ} {rel : ρ → ρ → Prop} [DecidableRel rel]
    (hrel : ∀ a b, rel a b ↔ key b ≤ key a) {l : List ρ} (hnd : (l.map key).Nodup) (limit : Nat) :
    IsPage {k | ∃ r ∈ l, key r = k} limit (((l.insertionSort rel).take limit).map key) := by
  have hperm : (l.insertionSort rel).map key |>.Perm (l.map key) :=
    (List.perm_insertionSort rel l).map key
  rw [List.map_take]
  refine .of_take (sort_desc hrel hnd) (fun k => ?_) limit
  rw [hperm.mem_iff, List.mem_map]
  rfl

/-- Below the last key of a page there is none left, just when the page had room for all. -/
theorem none_below_last {l : List κ} (hl : l.SortedGT) {limit : Nat} (hpos : 0 < limit) :
    (∀ c ∈ (l.take limit).getLast?, ∀ k ∈ l, ¬ k < c) ↔ l.length ≤ limit := by
  constructor
  · intro h
    by_contra hlt
    rw [not_le] at hlt
    have hlast : (l.take limit).getLast? = l[limit - 1]? := by
      rw [List.getLast?_take, if_neg (by omega), List.getElem?_eq_getElem (by omega), Option.some_or]
    have hc : l[limit - 1] ∈ (l.take limit).getLast? := by
      rw [hlast, List.getElem?_eq_getElem]
      rfl
    refine h _ hc l[limit] (List.getElem_mem hlt) ?_
    exact List.pairwise_iff_getElem.mp hl.pairwise _ _ (by omega) hlt (by omega)
  · intro hle c hc k hk
    rw [List.take_of_length_le hle] at hc
    obtain ⟨init, rfl⟩ := List.getLast?_eq_some_iff.mp hc
    have hdesc := List.pairwise_append.mp hl.pairwise
    rcases List.mem_append.mp hk with hk | hk
    · exact not_lt_of_gt (hdesc.2.2 k hk c (by simp))
    · rw [List.mem_singleton.mp hk]
      exact lt_irrefl c

/-- What a request with this cursor asks for. -/
def below : Option κ → Set κ
  | none => Set.univ
  | some c => {k | k < c}

/-- The cursor of a page; none when the page is not full. -/
def next (limit : Nat) (page : List κ) : Option κ :=
  if page.length = limit then page.getLast? else none

theorem IsPage.next_le {S : Set κ} {limit : Nat} {page : List κ} (h : IsPage S limit page) {c : κ}
    (hc : next limit page = some c) : c ∈ page ∧ ∀ k ∈ page, c ≤ k := by
  unfold next at hc
  split at hc
  · obtain ⟨init, rfl⟩ := List.getLast?_eq_some_iff.mp hc
    have hdesc := h.desc.pairwise
    rw [List.pairwise_append] at hdesc
    refine ⟨by simp, fun k hk => ?_⟩
    rcases List.mem_append.mp hk with hk | hk
    · exact le_of_lt (hdesc.2.2 k hk c (by simp))
    · exact le_of_eq (List.mem_singleton.mp hk).symm
  · cases hc

/-- A key that a page leaves out is below its cursor, if no page is empty by its limit. -/
theorem IsPage.left_out {S : Set κ} {limit : Nat} {page : List κ} (h : IsPage S limit page)
    (hpos : 0 < limit) {k : κ} (hk : k ∈ S) (hout : k ∉ page) :
    ∃ c, next limit page = some c ∧ k < c := by
  obtain ⟨hlen, hlt⟩ := (h.full k hk).resolve_left hout
  have hne : page ≠ [] := by
    rintro rfl
    simp only [List.length_nil] at hlen
    omega
  refine ⟨page.getLast hne, ?_, hlt _ (List.getLast_mem hne)⟩
  unfold next
  rw [if_pos hlen, List.getLast?_eq_some_getLast hne]

/-- The sets of keys at successive requests, each with the page it is answered
by; the first request has this cursor, and a page with no cursor is the last. -/
def Walk (limit : Nat) : Option κ → List (Set κ × List κ) → Prop
  | _, [] => True
  | cursor, (S, page) :: rest => IsPage (S ∩ below cursor) limit page ∧
      match next limit page with
      | some c => Walk limit (some c) rest
      | none => rest = []

/-- The keys of all pages, in the order of arrival. -/
def received (ms : List (Set κ × List κ)) : List κ := ms.flatMap Prod.snd

theorem Walk.below {limit : Nat} {cursor : Option κ} {ms : List (Set κ × List κ)}
    (h : Walk limit cursor ms) : ∀ k ∈ received ms, k ∈ below cursor := by
  induction ms generalizing cursor with
  | nil => simp [received]
  | cons m rest ih =>
    obtain ⟨hpage, hrest⟩ := h
    intro k hk
    rcases List.mem_append.mp hk with hk | hk
    · exact (hpage.mem k hk).2
    · split at hrest
      · rename_i c hc
        -- the cursor is itself a key of this page
        have hlt : k < c := ih hrest k hk
        have hcur := (hpage.mem c (hpage.next_le hc).1).2
        cases cursor with
        | none => exact Set.mem_univ k
        | some c₀ => exact lt_trans hlt hcur
      · subst hrest
        cases hk

theorem Walk.desc {limit : Nat} {cursor : Option κ} {ms : List (Set κ × List κ)}
    (h : Walk limit cursor ms) : (received ms).SortedGT := by
  induction ms generalizing cursor with
  | nil => exact List.Pairwise.nil.sortedGT
  | cons m rest ih =>
    obtain ⟨hpage, hrest⟩ := h
    split at hrest
    · rename_i c hc
      have htail := ih hrest
      apply List.Pairwise.sortedGT
      refine List.pairwise_append.mpr ⟨hpage.desc.pairwise, htail.pairwise, fun k hk j hj => ?_⟩
      have hlt : j < c := hrest.below j hj
      exact lt_of_lt_of_le hlt ((hpage.next_le hc).2 k hk)
    · subst hrest
      simpa [received] using hpage.desc

/-- A key that is there at every request has been received, or comes after the
last page. -/
theorem Walk.complete {limit : Nat} (hpos : 0 < limit) {cursor : Option κ}
    {ms : List (Set κ × List κ)} (h : Walk limit cursor ms) (hne : ms ≠ []) {k : κ}
    (hcur : k ∈ Keyset.below cursor) (hk : ∀ m ∈ ms, k ∈ m.1) :
    k ∈ received ms ∨ ∃ m ∈ ms.getLast?, ∃ c, next limit m.2 = some c ∧ k < c := by
  induction ms generalizing cursor with
  | nil => exact absurd rfl hne
  | cons m rest ih =>
    obtain ⟨hpage, hrest⟩ := h
    by_cases hin : k ∈ m.2
    · exact .inl (List.mem_append_left _ hin)
    obtain ⟨c, hc, hlt⟩ := hpage.left_out hpos ⟨hk m (by simp), hcur⟩ hin
    rw [hc] at hrest
    cases rest with
    | nil => exact .inr ⟨m, by simp, c, hc, hlt⟩
    | cons m' rest =>
      rcases ih hrest (by simp) hlt (fun n hn => hk n (List.mem_cons_of_mem _ hn)) with hr | hr
      · exact .inl (List.mem_append_right _ hr)
      · refine .inr ?_
        rw [List.getLast?_cons_cons]
        exact hr

end Keyset
