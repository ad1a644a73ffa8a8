import Mathlib.Algebra.GroupWithZero.Nat
import Mathlib.Data.List.Induction
import ZunServer.DirTree

/-!
# Disk usage

`dir_size` walks the data directory, and `compute_or_reuse_disk_usage` keeps what
came of it for a minute. Neither calls anything else of the server, so the tree and
the clock are all there is to a request.
-/
namespace ZunServer.DiskUsage

open DirTree (Reaches files seen unseen)

/-- `std::io::ErrorKind`, as far as the walk tells it apart. -/
inductive ErrorKind where
  | notFound | permissionDenied | other
  deriving DecidableEq, Repr

/-- An entry that `entries.flatten()` drops or whose metadata cannot be had is a hidden
one; a symlink, whose metadata are its own, is neither file nor directory. -/
abbrev Entry := DirTree.Entry ℕ ErrorKind

abbrev Dir := DirTree.Dir ℕ ErrorKind

def u64Max : ℕ := 18446744073709551615

/-- `u64::saturating_add`. -/
def saturatingAdd (a b : ℕ) : ℕ := min (a + b) u64Max

mutual

/-- `dir_size`. -/
def dirSize : Dir → Except ErrorKind ℕ
  | .error .notFound => .ok 0
  | .error e => .error e
  | .ok entries => addEntries 0 entries

/-- The loop of `dir_size` over the entries. -/
def addEntries (total : ℕ) : List Entry → Except ErrorKind ℕ
  | [] => .ok total
  | entry :: entries => match addEntry total entry with
    | .ok total => addEntries total entries
    | .error e => .error e

def addEntry (total : ℕ) : Entry → Except ErrorKind ℕ
  | .dir d => (dirSize d).map (saturatingAdd total)
  | .file len => .ok (saturatingAdd total len)
  | .other | .hidden _ => .ok total

end

/-- A directory the walk comes to cannot be read; one that has gone in the meantime can. -/
def WalkFails (d : Dir) : Prop := ∃ e, e ≠ .notFound ∧ Reaches d (.error e)

theorem addEntry_ok {x : Entry}
    (h : ∀ d, x = .dir d → dirSize d = .ok (min (seen d).sum u64Max)) {total : ℕ}
    (htotal : total ≤ u64Max) :
    addEntry total x = .ok (min (total + (DirTree.seenAt x).sum) u64Max) := by
  cases x with
  | file len => simp [addEntry, DirTree.seenAt, saturatingAdd]
  | dir d =>
    rw [addEntry, h d rfl, DirTree.seenAt, Except.map, saturatingAdd]
    congr 1
    omega
  | other => simp [addEntry, DirTree.seenAt, htotal]
  | hidden e => simp [addEntry, DirTree.seenAt, htotal]

theorem addEntries_ok {l : List Entry}
    (h : ∀ d, .dir d ∈ l → dirSize d = .ok (min (seen d).sum u64Max)) {total : ℕ}
    (htotal : total ≤ u64Max) :
    addEntries total l = .ok (min (total + (DirTree.seenIn l).sum) u64Max) := by
  induction l generalizing total with
  | nil => simp [addEntries, DirTree.seenIn, htotal]
  | cons x l ih =>
    have hhead : ∀ d, x = .dir d → dirSize d = .ok (min (seen d).sum u64Max) := by
      rintro d rfl
      exact h d (List.mem_cons_self ..)
    have hx := addEntry_ok hhead htotal
    have hl := ih (fun d hd => h d (List.mem_cons_of_mem _ hd))
      (Nat.min_le_right (total + (DirTree.seenAt x).sum) u64Max)
    rw [addEntries, hx, DirTree.seenIn, List.sum_append]
    simp only [hl]
    congr 1
    omega

theorem addEntries_error {l : List Entry} {d : Dir} (hd : .dir d ∈ l)
    (he : ∃ e, dirSize d = .error e) (total : ℕ) : ∃ e, addEntries total l = .error e := by
  induction l generalizing total with
  | nil => cases hd
  | cons x l ih =>
    rw [addEntries]
    cases hx : addEntry total x with
    | error e => exact ⟨e, rfl⟩
    | ok n =>
      rcases List.mem_cons.mp hd with rfl | hl
      · obtain ⟨e, he⟩ := he
        rw [addEntry, he] at hx
        cases hx
      · exact ih hl n

/-- Where no directory stops it, the walk adds up what it sees. -/
theorem dirSize_ok {d : Dir} (h : ¬ WalkFails d) :
    dirSize d = .ok (min (seen d).sum u64Max) := by
  induction d using DirTree.Dir.inside with
  | error e =>
    cases e with
    | notFound => rfl
    | permissionDenied => exact absurd ⟨_, ErrorKind.noConfusion, .here _⟩ h
    | other => exact absurd ⟨_, ErrorKind.noConfusion, .here _⟩ h
  | ok l ih =>
    have hl : ∀ d, .dir d ∈ l → dirSize d = .ok (min (seen d).sum u64Max) := by
      intro d hd
      apply ih d hd
      rintro ⟨e, hne, he⟩
      exact h ⟨e, hne, .enter hd he⟩
    rw [dirSize, addEntries_ok hl (Nat.zero_le _), Nat.zero_add, seen]

theorem dirSize_error {d : Dir} (h : WalkFails d) : ∃ e, dirSize d = .error e := by
  obtain ⟨e, hne, he⟩ := h
  generalize hstop : (Except.error e : Dir) = stop at he
  induction he with
  | here d =>
    subst hstop
    cases e with
    | notFound => exact absurd rfl hne
    | permissionDenied => exact ⟨_, rfl⟩
    | other => exact ⟨_, rfl⟩
  | enter hd _ ih => exact addEntries_error hd (ih hstop) 0

/-- `state::DiskUsageSample`, with instants in nanoseconds. -/
structure DiskUsageSample where
  totalBytes : ℕ
  computedAt : ℕ
  deriving DecidableEq, Repr

def diskCacheTtl : ℕ := 60000000000

/-- The sample, if it is not too old. -/
def fresh (cache : Option DiskUsageSample) (now : ℕ) : Option DiskUsageSample :=
  cache.filter fun sample => now - sample.computedAt < diskCacheTtl

/-- `dir_size(&dir).unwrap_or(0)`. -/
def total (d : Dir) : ℕ :=
  match dirSize d with
  | .ok n => n
  | .error _ => 0

/-- `compute_or_reuse_disk_usage`: the answer and the cache after it. A walk ends at `done`;
it never panics, so that it can be joined. -/
def computeOrReuseDiskUsage (cache : Option DiskUsageSample) (now : ℕ) (d : Dir) (done : ℕ) :
    Option ℕ × Option DiskUsageSample :=
  match fresh cache now with
  | some sample => (some sample.totalBytes, cache)
  | none => (some (total d), some ⟨total d, done⟩)

/-- What `disk.data_bytes` is to say: the size of all files, or null if the walk failed. -/
structure Reports (d : Dir) (answer : Option ℕ) : Prop where
  size : ¬ WalkFails d → answer = some (min (files d).sum u64Max)
  null : WalkFails d → answer = none

/-- The files behind entries whose metadata cannot be had are empty, or else the others are
enough to reach the maximum. -/
def Negligible (d : Dir) : Prop := (unseen d).sum = 0 ∨ u64Max ≤ (seen d).sum

/-- The report is right just when the walk does not fail and no file of any size is hidden from
it. -/
theorem dataBytes_right_iff {cache : Option DiskUsageSample} {now : ℕ} (h : fresh cache now = none)
    (d : Dir) (done : ℕ) :
    Reports d (computeOrReuseDiskUsage cache now d done).1 ↔ ¬ WalkFails d ∧ Negligible d := by
  have hanswer : (computeOrReuseDiskUsage cache now d done).1 = some (total d) := by
    rw [computeOrReuseDiskUsage, h]
  have hall : (files d).sum = (seen d).sum + (unseen d).sum := by
    rw [(DirTree.files_perm d).sum_nat, List.sum_append]
  rw [hanswer]
  constructor
  · intro hright
    have hwalks : ¬ WalkFails d := fun hfails => by cases hright.null hfails
    refine ⟨hwalks, ?_⟩
    have hsize := Option.some.inj (hright.size hwalks)
    rw [total, dirSize_ok hwalks, hall] at hsize
    simp only at hsize
    unfold Negligible
    omega
  · rintro ⟨hwalks, hnegligible⟩
    refine ⟨fun _ => ?_, fun hfails => absurd hfails hwalks⟩
    rw [total, dirSize_ok hwalks, hall]
    simp only [Option.some.injEq]
    unfold Negligible at hnegligible
    omega

/-- A file next to an empty directory. -/
def small : Dir := .ok [.file 7, .dir (.ok [])]

theorem dataBytes_right_sample :
    fresh none 0 = none ∧
      (Reports small (computeOrReuseDiskUsage none 0 small 1).1 ↔
        ¬ WalkFails small ∧ Negligible small) :=
  ⟨rfl, dataBytes_right_iff rfl small 1⟩

/-- A file next to a directory that may not be read. -/
def locked : Dir := .ok [.file 7, .dir (.error .permissionDenied)]

/-- The walk fails, and the report is zero. -/
theorem dataBytes_zero :
    (computeOrReuseDiskUsage none 0 locked 1).1 = some 0 ∧ WalkFails locked ∧
      ¬ Reports locked (computeOrReuseDiskUsage none 0 locked 1).1 := by
  have hfails : WalkFails locked := ⟨.permissionDenied, by decide, .enter (by simp) (.here _)⟩
  refine ⟨by decide, hfails, fun h => ?_⟩
  cases h.null hfails

/-- When a request asks, what is under the data directory then, and when a walk of it ends. -/
structure Request where
  now : ℕ
  dir : Dir
  done : ℕ

/-- The cache after these requests. -/
def cacheAfter (past : List Request) : Option DiskUsageSample :=
  past.foldl (fun cache r => (computeOrReuseDiskUsage cache r.now r.dir r.done).2) none

theorem cached_walk {past : List Request} {sample : DiskUsageSample}
    (h : cacheAfter past = some sample) :
    ∃ r ∈ past, sample = ⟨total r.dir, r.done⟩ := by
  induction past using List.reverseRecOn with
  | nil => cases h
  | append_singleton past r ih =>
    rw [cacheAfter, List.foldl_append] at h
    simp only [List.foldl_cons, List.foldl_nil, computeOrReuseDiskUsage] at h
    split at h
    · obtain ⟨q, hq, hsample⟩ := ih h
      exact ⟨q, List.mem_append_left _ hq, hsample⟩
    · exact ⟨r, by simp, (Option.some.inj h).symm⟩

/-- What is reported came out of a walk that this request made, or that an earlier one had
ended less than a minute ago. -/
theorem answer_recent (past : List Request) (r : Request) :
    (computeOrReuseDiskUsage (cacheAfter past) r.now r.dir r.done).1 = some (total r.dir) ∨
      ∃ q ∈ past, r.now - q.done < diskCacheTtl ∧
        (computeOrReuseDiskUsage (cacheAfter past) r.now r.dir r.done).1 = some (total q.dir) := by
  rw [computeOrReuseDiskUsage]
  cases hfresh : fresh (cacheAfter past) r.now with
  | none => exact .inl rfl
  | some sample =>
    right
    obtain ⟨hcache, hage⟩ := Option.filter_eq_some_iff.mp hfresh
    obtain ⟨q, hq, rfl⟩ := cached_walk hcache
    exact ⟨q, hq, by simpa using hage, rfl⟩

end ZunServer.DiskUsage
