import ZunServer.AtomicWrites

/-!
# The daily backups

`backup::spawn`, `snapshot_once` and `prune_old`, step by step, beside the connections that
write to the database. `VACUUM INTO` reads the database as it is when it begins, and
is done when the copy is whole. The process may die at any point and is started
again; other programs may put files into the directory and take them away.
-/
namespace ZunServer.Backups

open Schema AtomicWrites

/-- What is in a file: the whole database as it once was, the beginning of such a copy, or
something the server has not made. -/
inductive Content (D : Type*) where
  | copy (d : D)
  | torn
  | foreign
deriving DecidableEq

structure File (D : Type*) where
  content : Content D
  modified : Int
deriving DecidableEq

abbrev Dir (D : Type*) := AtomicWrites.Path → Option (File D)

/-- Where the backups are and how long they stay. Instants are in nanoseconds; `date` is
the UTC date of one: year, month, day. -/
structure Setup where
  dir : String
  keepDays : Nat
  date : Int → Nat × Nat × Nat

/-- `{n:0width}`. -/
def padded (width n : Nat) : String :=
  String.ofList (List.replicate (width - (toString n).length) '0') ++ toString n

def Setup.keep (c : Setup) : Int := c.keepDays * 24 * 60 * 60 * 1000000000

/-- The dated name of a snapshot begun at an instant. -/
def Setup.dated (c : Setup) (now : Int) : AtomicWrites.Path :=
  let (year, month, day) := c.date now
  ⟨c.dir, "jobs-" ++ padded 4 year ++ "-" ++ padded 2 month ++ "-" ++ padded 2 day ++ ".db"⟩

/-- `prune_old` looks at nothing else. -/
def isDb (p : AtomicWrites.Path) : Bool := extension p.fileName.toList = some ['d', 'b']

/-- What the task of the backups is about to do. `copying` is inside of `VACUUM INTO`,
`drop` the `Drop` of the `Staged`. -/
inductive BackupPc (D : Type*) where
  | top
  | createDir
  | stage
  | vacuum (t : Staged) (abs : AtomicWrites.Path)
  | copying (t : Staged) (abs : AtomicWrites.Path) (d : D)
  | rename (t : Staged) (abs : AtomicWrites.Path)
  | drop (t : Staged)
  | readDir
  | prune (cutoff : Int) (todo : List AtomicWrites.Path)
  | remove (cutoff : Int) (p : AtomicWrites.Path) (todo : List AtomicWrites.Path)
  | sleep
  | returned

structure State (D : Type*) where
  db : D
  files : Dir D
  clock : Int
  shutdown : Bool
  pc : BackupPc D

def State.start {D : Type*} (d : D) (now : Int) : State D := ⟨d, fun _ => none, now, false, .top⟩

/-- What the system answers: `entries` is what `read_dir` is going to list, `skips` a
failure to get the metadata of an entry. -/
inductive Outcome where
  | ok
  | suffix (n : UInt32)
  | entries (l : List AtomicWrites.Path)
  | skips
  | stop
  | fails

inductive Act (D : Type*) where
  | task (o : Outcome)
  | write (d : D)
  | clock (now : Int)
  | foreign (p : AtomicWrites.Path) (modified : Option Int)
  | shutdown
  | crash

variable {D : Type*} (c : Setup)

/-- `prune_old` looks at its next entry. -/
def visit (files : Dir D) (cutoff : Int) : List AtomicWrites.Path → BackupPc D
  | [] => .sleep
  | p :: todo =>
    if isDb p = false then .prune cutoff todo
    else match files p with
      | none => .prune cutoff todo
      | some f => if f.modified < cutoff then .remove cutoff p todo else .prune cutoff todo

/-- The copy is whole. A copy whose file another program has taken away has no name. -/
def finished (files : Dir D) (p : AtomicWrites.Path) (d : D) (now : Int) : Dir D :=
  Function.update files p ((files p).map fun f => match f.content with
    | .torn => ⟨.copy d, now⟩
    | _ => f)

def taskStep (s : State D) (o : Outcome) : Option (State D) :=
  match s.pc, o with
  | .top, .ok => some { s with pc := if s.shutdown then .returned else .createDir }
  | .createDir, .ok => some { s with pc := .stage }
  | .createDir, .fails => some { s with pc := .readDir }
  | .stage, .suffix n =>
    let abs := c.dated s.clock
    some { s with pc := .vacuum (.new abs n) abs }
  -- `VACUUM INTO` does not overwrite a file
  | .vacuum t abs, .ok => match s.files t.path with
    | none => some { s with
        files := Function.update s.files t.path (some ⟨.torn, s.clock⟩), pc := .copying t abs s.db }
    | some _ => none
  | .copying t abs d, .ok => some { s with
      files := finished s.files t.path d s.clock, pc := .rename t abs }
  | .rename t abs, .ok => (s.files t.path).map fun f => { s with
      files := Function.update (Function.update s.files abs (some f)) t.path none
      pc := .drop t.commit }
  | .vacuum t _, .fails | .copying t _ _, .fails | .rename t _, .fails =>
    some { s with pc := .drop t }
  | .drop t, .ok => some { s with
      files := if t.committed then s.files else Function.update s.files t.path none
      pc := .readDir }
  | .drop _, .fails => some { s with pc := .readDir }
  | .readDir, .entries l => some { s with pc := .prune (s.clock - c.keep) l }
  | .readDir, .fails => some { s with pc := .sleep }
  | .prune cutoff todo, .ok => some { s with pc := visit s.files cutoff todo }
  | .prune cutoff todo, .skips => some { s with pc := .prune cutoff todo.tail }
  | .prune _ _, .fails => some { s with pc := .sleep }
  | .remove cutoff p todo, .ok => some { s with
      files := Function.update s.files p none, pc := .prune cutoff todo }
  | .remove cutoff _ todo, .fails => some { s with pc := .prune cutoff todo }
  | .sleep, .ok => some { s with pc := .top }
  | .sleep, .stop => if s.shutdown then some { s with pc := .returned } else none
  | _, _ => none

def step (s : State D) : Act D → Option (State D)
  | .task o => taskStep c s o
  | .write d => some { s with db := d }
  | .clock now => some { s with clock := now }
  | .foreign p modified =>
    some { s with files := Function.update s.files p (modified.map fun m => ⟨.foreign, m⟩) }
  | .shutdown => some { s with shutdown := true }
  | .crash => some { s with shutdown := false, pc := .top }

abbrev run (as : List (Act D)) (s : State D) : Option (State D) := Runs.run (step c) as s

theorem extension_append {stem ext : List Char} (hstem : stem ≠ []) (hext : '.' ∉ ext) :
    extension (stem ++ '.' :: ext) = some ext := by
  unfold extension
  rw [splitLastDot_append stem ext hext]
  cases stem with
  | nil => exact absurd rfl hstem
  | cons a l => rfl

theorem isDb_dated (now : Int) : isDb (c.dated now) = true := by
  unfold isDb Setup.dated
  refine decide_eq_true ?_
  have hstem : ∀ s : String, ("jobs-" ++ s ++ ".db").toList = ("jobs-" ++ s).toList ++ '.' :: ['d', 'b'] :=
    fun s => by simp
  have hname := hstem (padded 4 (c.date now).1 ++ "-" ++ padded 2 (c.date now).2.1 ++ "-" ++
    padded 2 (c.date now).2.2)
  simp only [← String.append_assoc] at hname
  rw [hname]
  exact extension_append (by simp) (by decide)

/-- A staging file is never taken for a backup. -/
theorem isDb_tmpSibling (p : AtomicWrites.Path) (n : UInt32) : isDb (tmpSibling p n) = false := by
  have hname : (tmpSibling p n).fileName.toList =
      (p.fileName ++ ".tmp").toList ++ '.' :: (hex08 n).toList := by
    simp [tmpSibling]
  have hdot : '.' ∉ (hex08 n).toList := by
    unfold hex08
    rw [String.toList_ofList]
    intro h
    obtain ⟨i, -, hi⟩ := List.mem_map.mp h
    have hall : ∀ m < 16, Nat.digitChar m ≠ '.' := by decide
    exact hall _ (Nat.mod_lt _ (by omega)) hi
  unfold isDb
  rw [hname, extension_append (by simp) hdot]
  refine decide_eq_false fun h => ?_
  have hlen := congrArg List.length (Option.some.inj h)
  simp [hex08] at hlen

/-- The staging file of the snapshot in progress. -/
def BackupPc.staged : BackupPc D → Option Staged
  | .vacuum t _ | .copying t _ _ | .rename t _ | .drop t => some t
  | _ => none

/-- What a step of the task does. -/
inductive TaskStep (s : State D) : BackupPc D → Outcome → Dir D → BackupPc D → Prop
  | goes {pc pc' : BackupPc D} {o : Outcome} (h : pc.staged = none) (h' : pc'.staged = none)
      (hprune : ∀ cutoff todo, pc' = .prune cutoff todo → ∃ todo', pc = .prune cutoff todo')
      (hremove : ∀ cutoff p todo, pc' = .remove cutoff p todo → (∃ todo', pc = .prune cutoff todo') ∧
        ∀ f, s.files p = some f → f.modified < cutoff) : TaskStep s pc o s.files pc'
  | listed {l : List AtomicWrites.Path} :
      TaskStep s .readDir (.entries l) s.files (.prune (s.clock - c.keep) l)
  | staged {n : UInt32} : TaskStep s .stage (.suffix n) s.files
      (.vacuum (.new (c.dated s.clock) n) (c.dated s.clock))
  | began {t : Staged} {abs : AtomicWrites.Path} (h : s.files t.path = none) :
      TaskStep s (.vacuum t abs) .ok (Function.update s.files t.path (some ⟨.torn, s.clock⟩))
        (.copying t abs s.db)
  | copied {t : Staged} {abs : AtomicWrites.Path} {d : D} : TaskStep s (.copying t abs d) .ok
      (finished s.files t.path d s.clock) (.rename t abs)
  | renamed {t : Staged} {abs : AtomicWrites.Path} {f : File D} (h : s.files t.path = some f) :
      TaskStep s (.rename t abs) .ok
        (Function.update (Function.update s.files abs (some f)) t.path none) (.drop t.commit)
  | failed {pc : BackupPc D} {t : Staged} (h : pc.staged = some t) :
      TaskStep s pc .fails s.files (.drop t)
  | dropped {t : Staged} : TaskStep s (.drop t) .ok
      (if t.committed then s.files else Function.update s.files t.path none) .readDir
  | left {t : Staged} : TaskStep s (.drop t) .fails s.files .readDir
  | removed {cutoff : Int} {p : AtomicWrites.Path} {todo : List AtomicWrites.Path} :
      TaskStep s (.remove cutoff p todo) .ok (Function.update s.files p none) (.prune cutoff todo)
  | spared {cutoff : Int} {p : AtomicWrites.Path} {todo : List AtomicWrites.Path} :
      TaskStep s (.remove cutoff p todo) .fails s.files (.prune cutoff todo)

theorem visit_step (s : State D) {o : Outcome} (cutoff : Int) (todo : List AtomicWrites.Path) :
    TaskStep c s (.prune cutoff todo) o s.files (visit s.files cutoff todo) := by
  have passes : ∀ l, TaskStep c s (.prune cutoff todo) o s.files (.prune cutoff l) := fun l =>
    .goes rfl rfl (fun _ _ he => ⟨todo, by cases he; rfl⟩) fun _ _ _ he => by cases he
  cases todo with
  | nil => exact .goes rfl rfl (fun _ _ he => by cases he) fun _ _ _ he => by cases he
  | cons p l =>
    simp only [visit]
    split
    · exact passes l
    · split
      · exact passes l
      · rename_i f hf
        split
        · rename_i hlt
          refine .goes rfl rfl (fun _ _ he => by cases he) fun _ _ _ he => ?_
          cases he
          refine ⟨⟨_, rfl⟩, fun g hg => ?_⟩
          obtain rfl := Option.some.inj (hf.symm.trans hg)
          exact hlt
        · exact passes l

theorem task_step {s t : State D} {o : Outcome} (h : taskStep c s o = some t) :
    ∃ files pc, t = { s with files := files, pc := pc } ∧ TaskStep c s s.pc o files pc := by
  have plain : ∀ {pc pc' : BackupPc D}, pc.staged = none → pc'.staged = none →
      (∀ cutoff todo, pc' ≠ .prune cutoff todo) → (∀ cutoff p todo, pc' ≠ .remove cutoff p todo) →
      TaskStep c s pc o s.files pc' := fun h h' hp hr =>
    .goes h h' (fun cutoff todo he => absurd he (hp cutoff todo))
      fun cutoff p todo he => absurd he (hr cutoff p todo)
  obtain ⟨db, files, clock, shutdown, pc⟩ := s
  cases pc <;> cases o <;> simp only [taskStep, reduceCtorEq, Option.some.injEq] at h
  case top.ok =>
    subst h
    refine ⟨_, _, rfl, plain rfl ?_ ?_ ?_⟩ <;> cases shutdown <;> simp [BackupPc.staged]
  case sleep.stop =>
    split at h
    · cases h
      exact ⟨_, _, rfl, plain rfl rfl (by simp) (by simp)⟩
    · cases h
  case createDir.ok | createDir.fails | readDir.fails | prune.fails | sleep.ok =>
    subst h
    exact ⟨_, _, rfl, plain rfl rfl (by simp) (by simp)⟩
  case stage.suffix n =>
    subst h
    exact ⟨_, _, rfl, .staged⟩
  case vacuum.ok t abs =>
    split at h
    · rename_i hnone
      cases h
      exact ⟨_, _, rfl, .began hnone⟩
    · cases h
  case vacuum.fails t abs | copying.fails t abs d | rename.fails t abs =>
    subst h
    exact ⟨_, _, rfl, .failed rfl⟩
  case copying.ok t abs d =>
    subst h
    exact ⟨_, _, rfl, .copied⟩
  case rename.ok t abs =>
    obtain ⟨f, hf, rfl⟩ := Option.map_eq_some_iff.mp h
    exact ⟨_, _, rfl, .renamed hf⟩
  case drop.ok t =>
    subst h
    exact ⟨_, _, rfl, .dropped⟩
  case drop.fails t =>
    subst h
    exact ⟨_, _, rfl, .left⟩
  case readDir.entries l =>
    subst h
    exact ⟨_, _, rfl, .listed⟩
  case prune.ok cutoff todo =>
    subst h
    exact ⟨_, _, rfl, visit_step c _ cutoff todo⟩
  case prune.skips cutoff todo =>
    subst h
    exact ⟨_, _, rfl, .goes rfl rfl (fun _ _ he => ⟨todo, by cases he; rfl⟩)
      fun _ _ _ he => by cases he⟩
  case remove.ok cutoff p todo =>
    subst h
    exact ⟨_, _, rfl, .removed⟩
  case remove.fails cutoff p todo =>
    subst h
    exact ⟨_, _, rfl, .spared⟩

variable {c}

/-- The step that begins a snapshot for this name: it is staged. -/
structure Begins (c : Setup) (x : State D × Act D) (abs : AtomicWrites.Path) : Prop where
  pc : x.1.pc = .stage
  suffix : ∃ n, x.2 = .task (.suffix n)
  dated : abs = c.dated x.1.clock

/-- The step that begins to copy the database into the snapshot for this name. -/
structure Copies (x : State D × Act D) (abs : AtomicWrites.Path) (d : D) : Prop where
  pc : ∃ t, x.1.pc = .vacuum t abs
  ok : x.2 = .task .ok
  db : x.1.db = d

def Begun (c : Setup) (past : List (State D × Act D)) (abs : AtomicWrites.Path) : Prop :=
  ∃ x ∈ past, Begins c x abs

/-- A snapshot for this name had begun when the database was copied as the copy has it. -/
def Taken (c : Setup) (past : List (State D × Act D)) (abs : AtomicWrites.Path) (d : D) : Prop :=
  ∃ before x after, past = before ++ x :: after ∧ Begins c x abs ∧ ∃ y ∈ after, Copies y abs d

theorem Begun.append {past : List (State D × Act D)} {abs : AtomicWrites.Path}
    (h : Begun c past abs) (x : State D × Act D) : Begun c (past ++ [x]) abs := by
  obtain ⟨y, hy, hbegins⟩ := h
  exact ⟨y, List.mem_append_left _ hy, hbegins⟩

theorem Taken.append {past : List (State D × Act D)} {abs : AtomicWrites.Path} {d : D}
    (h : Taken c past abs d) (x : State D × Act D) : Taken c (past ++ [x]) abs d := by
  obtain ⟨before, y, after, rfl, hbegins, z, hz, hcopies⟩ := h
  exact ⟨before, y, after ++ [x], by simp, hbegins, z, List.mem_append_left _ hz, hcopies⟩

theorem Begun.taken {past : List (State D × Act D)} {abs : AtomicWrites.Path} (h : Begun c past abs)
    {x : State D × Act D} {d : D} (hx : Copies x abs d) : Taken c (past ++ [x]) abs d := by
  obtain ⟨y, hy, hbegins⟩ := h
  obtain ⟨before, after, rfl⟩ := List.append_of_mem hy
  exact ⟨before, y, after ++ [x], by simp, hbegins, x, by simp, hx⟩

/-- A whole copy, or none of the server's. -/
def Whole (c : Setup) (past : List (State D × Act D)) (abs : AtomicWrites.Path) (f : File D) : Prop :=
  f.content = .foreign ∨ ∃ d, f.content = .copy d ∧ Taken c past abs d

theorem Whole.append {past : List (State D × Act D)} {abs : AtomicWrites.Path} {f : File D}
    (h : Whole c past abs f) (x : State D × Act D) : Whole c (past ++ [x]) abs f :=
  h.imp_right fun ⟨d, hd, ht⟩ => ⟨d, hd, ht.append x⟩

/-- What the task knows of the snapshot in progress. -/
def Progress (c : Setup) (past : List (State D × Act D)) (s : State D) : Prop :=
  match s.pc with
  | .vacuum t abs => t.committed = false ∧ Begun c past abs
  | .copying t abs d => t.committed = false ∧ Taken c past abs d ∧
      ∀ f, s.files t.path = some f → f.content = .torn ∨ f.content = .foreign
  | .rename t abs => t.committed = false ∧ ∀ f, s.files t.path = some f → Whole c past abs f
  | _ => True

structure Snapshots (c : Setup) (past : List (State D × Act D)) (s : State D) : Prop where
  staged : ∀ t, s.pc.staged = some t → isDb t.path = false
  progress : Progress c past s
  whole : ∀ p f, isDb p = true → s.files p = some f → Whole c past p f

theorem progress_none {past : List (State D × Act D)} {s : State D} (h : s.pc.staged = none) :
    Progress c past s := by
  unfold Progress
  cases hpc : s.pc with
  | vacuum t abs | copying t abs d | rename t abs =>
    rw [hpc] at h
    cases h
  | _ => trivial

/-- What another program puts somewhere is foreign. -/
theorem foreign_file {files : Dir D} {p q : AtomicWrites.Path} {m : Option Int} {f : File D}
    (h : Function.update files q (m.map fun m => ⟨.foreign, m⟩) p = some f) :
    (p = q ∧ f.content = .foreign) ∨ files p = some f := by
  by_cases hp : p = q
  · subst hp
    rw [Function.update_self] at h
    obtain ⟨n, -, rfl⟩ := Option.map_eq_some_iff.mp h
    exact .inl ⟨rfl, rfl⟩
  · rw [Function.update_of_ne hp] at h
    exact .inr h

theorem update_none {files : Dir D} {p q : AtomicWrites.Path} {f : File D}
    (h : Function.update files q none p = some f) : p ≠ q ∧ files p = some f := by
  by_cases hp : p = q
  · subst hp
    rw [Function.update_self] at h
    cases h
  · rw [Function.update_of_ne hp] at h
    exact ⟨hp, h⟩

/-- When a copy is whole, a file is as before, or is the copy where its beginning was. -/
theorem finished_file {files : Dir D} {p q : AtomicWrites.Path} {d : D} {now : Int} {f : File D}
    (h : finished files q d now p = some f) :
    (p = q ∧ f = ⟨.copy d, now⟩) ∨ (files p = some f ∧ (p = q → f.content ≠ .torn)) := by
  unfold finished at h
  by_cases hp : p = q
  · subst hp
    rw [Function.update_self] at h
    obtain ⟨g, hg, hfg⟩ := Option.map_eq_some_iff.mp h
    split at hfg
    · exact .inl ⟨rfl, hfg.symm⟩
    · rename_i hne
      subst hfg
      exact .inr ⟨hg, fun _ => hne⟩
  · rw [Function.update_of_ne hp] at h
    exact .inr ⟨h, fun he => absurd he hp⟩

theorem ne_staging {p q : AtomicWrites.Path} (hp : isDb p = true) (hq : isDb q = false) : p ≠ q := by
  rintro rfl
  rw [hp] at hq
  cases hq

/-- The backups after a step of the task: as before, or the copy that was just made. -/
theorem db_after {s : State D} {o : Outcome} {files : Dir D} {pc : BackupPc D}
    (h : TaskStep c s s.pc o files pc) (hstaged : ∀ t, s.pc.staged = some t → isDb t.path = false)
    {p : AtomicWrites.Path} (hp : isDb p = true) {f : File D} (hf : files p = some f) :
    s.files p = some f ∨ ∃ t, s.pc = .rename t p ∧ s.files t.path = some f := by
  generalize hpc : s.pc = pc₀ at h hstaged
  cases h with
  | began _ =>
    rw [Function.update_of_ne (ne_staging hp (hstaged _ rfl))] at hf
    exact .inl hf
  | copied =>
    rcases finished_file hf with ⟨he, -⟩ | ⟨hf, -⟩
    · exact absurd he (ne_staging hp (hstaged _ rfl))
    · exact .inl hf
  | renamed hg =>
    rename_i t abs g
    rw [Function.update_of_ne (ne_staging hp (hstaged _ rfl))] at hf
    by_cases habs : p = abs
    · subst habs
      rw [Function.update_self] at hf
      obtain rfl := Option.some.inj hf
      exact .inr ⟨t, rfl, hg⟩
    · rw [Function.update_of_ne habs] at hf
      exact .inl hf
  | dropped =>
    split at hf
    · exact .inl hf
    · exact .inl (update_none hf).2
  | removed => exact .inl (update_none hf).2
  | _ => exact .inl hf

theorem staged_after {s : State D} {o : Outcome} {files : Dir D} {pc : BackupPc D}
    (h : TaskStep c s s.pc o files pc) (hstaged : ∀ t, s.pc.staged = some t → isDb t.path = false)
    (t : Staged) (ht : pc.staged = some t) : isDb t.path = false := by
  generalize s.pc = pc₀ at h hstaged
  cases h with
  | goes _ h' =>
    rw [h'] at ht
    cases ht
  | staged =>
    obtain rfl := Option.some.inj ht
    exact isDb_tmpSibling _ _
  | began _ | copied =>
    obtain rfl := Option.some.inj ht
    exact hstaged _ rfl
  | @renamed t₀ _ _ _ =>
    obtain rfl := Option.some.inj ht
    exact hstaged t₀ rfl
  | failed h =>
    obtain rfl := Option.some.inj ht
    exact hstaged _ h
  | _ => cases ht

theorem Snapshots.task {past : List (State D × Act D)} {s : State D} {o : Outcome} {files : Dir D}
    {pc : BackupPc D} (h : Snapshots c past s) (hs : TaskStep c s s.pc o files pc) :
    Snapshots c (past ++ [(s, .task o)]) { s with files := files, pc := pc } where
  staged := staged_after hs h.staged
  progress := by
    have hprogress := h.progress
    unfold Progress at hprogress
    generalize hpc : s.pc = pc₀ at hs hprogress
    cases hs with
    | goes _ h' => exact progress_none h'
    | @staged n => exact ⟨rfl, (s, .task (.suffix n)), by simp, hpc, ⟨n, rfl⟩, rfl⟩
    | began _ =>
      refine ⟨hprogress.1, hprogress.2.taken ⟨⟨_, hpc⟩, rfl, rfl⟩, fun f hf => .inl ?_⟩
      simp only [Function.update_self, Option.some.injEq] at hf
      subst hf
      rfl
    | copied =>
      refine ⟨hprogress.1, fun f hf => ?_⟩
      rcases finished_file hf with ⟨-, rfl⟩ | ⟨hf, htorn⟩
      · exact .inr ⟨_, rfl, hprogress.2.1.append _⟩
      · exact .inl ((hprogress.2.2 f hf).resolve_left (htorn rfl))
    | _ => trivial
  whole p f hp hf := by
    rcases db_after hs h.staged hp hf with hf | ⟨t, hpc, hf⟩
    · exact (h.whole p f hp hf).append _
    · have hprogress := h.progress
      unfold Progress at hprogress
      rw [hpc] at hprogress
      exact (hprogress.2 f hf).append _

theorem Snapshots.step {past : List (State D × Act D)} {s t : State D} {a : Act D}
    (h : Snapshots c past s) (hs : Backups.step c s a = some t) : Snapshots c (past ++ [(s, a)]) t := by
  have hprogress : Progress c (past ++ [(s, a)]) s := by
    have hp := h.progress
    unfold Progress at hp ⊢
    split at hp
    · exact ⟨hp.1, hp.2.append _⟩
    · exact ⟨hp.1, hp.2.1.append _, hp.2.2⟩
    · exact ⟨hp.1, fun f hf => (hp.2 f hf).append _⟩
    · trivial
  cases a with
  | task o =>
    obtain ⟨files, pc, rfl, hstep⟩ := task_step c hs
    exact h.task hstep
  | write d | clock now | shutdown =>
    obtain rfl := Option.some.inj hs
    exact ⟨h.staged, hprogress, fun p f hp hf => (h.whole p f hp hf).append _⟩
  | crash =>
    obtain rfl := Option.some.inj hs
    exact ⟨fun t ht => (by cases ht), progress_none rfl, fun p f hp hf =>
      (h.whole p f hp hf).append _⟩
  | foreign q m =>
    obtain rfl := Option.some.inj hs
    refine ⟨h.staged, ?_, fun p f hp hf => ?_⟩
    · unfold Progress at hprogress ⊢
      split
      · rename_i hpc
        rw [hpc] at hprogress
        exact hprogress
      · rename_i hpc
        rw [hpc] at hprogress
        refine ⟨hprogress.1, hprogress.2.1, fun f hf => ?_⟩
        rcases foreign_file hf with ⟨-, hforeign⟩ | hf
        · exact .inr hforeign
        · exact hprogress.2.2 f hf
      · rename_i hpc
        rw [hpc] at hprogress
        refine ⟨hprogress.1, fun f hf => ?_⟩
        rcases foreign_file hf with ⟨-, hforeign⟩ | hf
        · exact .inl hforeign
        · exact hprogress.2 f hf
      · trivial
    · rcases foreign_file hf with ⟨-, hforeign⟩ | hf
      · exact .inl hforeign
      · exact (h.whole p f hp hf).append _

/-- The process does not die, and a staging file that is to be removed is removed. -/
def tidy (s : State D) : Act D → Bool
  | .crash => false
  | .task .fails => match s.pc with
    | .drop _ => false
    | _ => true
  | _ => true

/-- Every file the server has made is a backup, or the staging file of the snapshot in progress. -/
def Tidied (s : State D) : Prop :=
  ∀ p f, s.files p = some f → f.content ≠ .foreign →
    isDb p = true ∨ ∃ t, s.pc.staged = some t ∧ t.committed = false ∧ p = t.path

theorem Whole.isDb {past : List (State D × Act D)} {abs : AtomicWrites.Path} {f : File D}
    (h : Whole c past abs f) (hf : f.content ≠ .foreign) : isDb abs = true := by
  rcases h with hforeign | ⟨d, -, before, x, after, -, hbegins, -⟩
  · exact absurd hforeign hf
  · rw [hbegins.dated]
    exact isDb_dated c _

theorem Tidied.task {past : List (State D × Act D)} {s : State D} {o : Outcome} {files : Dir D}
    {pc : BackupPc D} (h : Tidied s) (hsnap : Snapshots c past s)
    (ha : tidy s (.task o) = true) (hs : TaskStep c s s.pc o files pc) :
    Tidied { s with files := files, pc := pc } := by
  have hprogress := hsnap.progress
  unfold Progress at hprogress
  unfold Tidied at h ⊢
  unfold tidy at ha
  generalize s.pc = pc₀ at hs hprogress h ha
  intro p f hf hcontent
  -- a file that was there, and is not the one the step is about
  have other : ∀ t, pc₀.staged = some t → s.files p = some f → p ≠ t.path → isDb p = true := by
    intro t ht hf hne
    rcases h p f hf hcontent with hdb | ⟨t', ht', -, hp⟩
    · exact hdb
    · obtain rfl := Option.some.inj (ht.symm.trans ht')
      exact absurd hp hne
  have outside : pc₀.staged = none → s.files p = some f → isDb p = true := by
    intro hnone hf
    rcases h p f hf hcontent with hdb | ⟨t', ht', -⟩
    · exact hdb
    · rw [hnone] at ht'
      cases ht'
  cases hs with
  | goes hnone _ => exact .inl (outside hnone hf)
  | listed | staged | spared => exact .inl (outside rfl hf)
  | removed => exact .inl (outside rfl (update_none hf).2)
  | @began t abs _ =>
    by_cases hp : p = t.path
    · exact .inr ⟨t, rfl, hprogress.1, hp⟩
    · exact .inl (other t rfl (by simpa only [Function.update_of_ne hp] using hf) hp)
  | @copied t abs d =>
    rcases finished_file hf with ⟨hp, -⟩ | ⟨hf, -⟩
    · exact .inr ⟨t, rfl, hprogress.1, hp⟩
    · by_cases hp : p = t.path
      · exact .inr ⟨t, rfl, hprogress.1, hp⟩
      · exact .inl (other t rfl hf hp)
  | @renamed t abs g hg =>
    obtain ⟨hne, hf⟩ := update_none hf
    by_cases hp : p = abs
    · subst hp
      rw [Function.update_self] at hf
      obtain rfl := Option.some.inj hf
      exact .inl ((hprogress.2 g hg).isDb hcontent)
    · exact .inl (other t rfl (by simpa only [Function.update_of_ne hp] using hf) hne)
  | failed hst =>
    rcases h p f hf hcontent with hdb | ⟨t', ht', hrest⟩
    · exact .inl hdb
    · exact .inr ⟨t', hst.symm.trans ht' ▸ rfl, hrest⟩
  | @dropped t =>
    dsimp only at hf
    split at hf
    · rename_i hcommitted
      rcases h p f hf hcontent with hdb | ⟨t', ht', hc, -⟩
      · exact .inl hdb
      · obtain rfl := Option.some.inj ht'
        rw [hcommitted] at hc
        cases hc
    · obtain ⟨hne, hf⟩ := update_none hf
      exact .inl (other t rfl hf hne)
  | left => cases ha

theorem Tidied.step {past : List (State D × Act D)} {s t : State D} {a : Act D} (h : Tidied s)
    (hsnap : Snapshots c past s) (hs : Backups.step c s a = some t) (ha : tidy s a = true) :
    Tidied t := by
  cases a with
  | task o =>
    obtain ⟨files, pc, rfl, hstep⟩ := task_step c hs
    exact h.task hsnap ha hstep
  | write d | clock now | shutdown =>
    obtain rfl := Option.some.inj hs
    exact h
  | crash => cases ha
  | foreign q m =>
    obtain rfl := Option.some.inj hs
    intro p f hf hcontent
    rcases foreign_file hf with ⟨-, hforeign⟩ | hf
    · exact absurd hforeign hcontent
    · exact h p f hf hcontent

theorem snapshots_start (d : D) (now : Int) : Snapshots c [] (State.start d now) where
  staged t ht := by cases ht
  progress := progress_none rfl
  whole p f _ hf := by cases hf

theorem run_snapshots {as : List (Act D)} {d : D} {now : Int} {s : State D}
    (h : run c as (.start d now) = some s) :
    Snapshots c (Runs.visits (step c) as (.start d now)) s := by
  have hend := Runs.history_invariant (I := Snapshots c) (fun past u a v hu hs => hu.step hs) h
    (snapshots_start d now)
  simpa using hend

/-- In every run, whatever fails and wherever the process dies: a `.db` file that the server
has made is a whole copy of the database as it was when it was copied into the snapshot for
its name, which had begun before. While the process does not die and the staging files that are
to be removed are removed, nothing else is left of the snapshots that are over. -/
theorem snapshots_complete {as : List (Act D)} {d : D} {now : Int} {s : State D}
    (h : run c as (.start d now) = some s) :
    (∀ p f, isDb p = true → s.files p = some f → f.content ≠ .foreign →
      ∃ d', f.content = .copy d' ∧ Taken c (Runs.visits (step c) as (.start d now)) p d') ∧
    (Runs.Along (step c) (fun u a => tidy u a = true) as (.start d now) →
      ∀ p f, s.files p = some f → f.content ≠ .foreign →
        isDb p = true ∨ ∃ t, s.pc.staged = some t ∧ p = t.path) := by
  refine ⟨fun p f hp hf hcontent => ?_, fun ha p f hf hcontent => ?_⟩
  · exact ((run_snapshots h).whole p f hp hf).resolve_left hcontent
  · have hstart : Snapshots c [] (State.start d now) ∧ Tidied (State.start d now) :=
      ⟨snapshots_start d now, fun p f hf => (by cases hf)⟩
    have hend := ha.history_invariant (I := fun past u => Snapshots c past u ∧ Tidied u)
      (fun past u a v hu hau hs => ⟨hu.1.step hs, hu.2.step hu.1 hs hau⟩) h hstart
    exact (hend.2 p f hf hcontent).imp_right fun ⟨t, ht, _, hp⟩ => ⟨t, ht, hp⟩

def sampleSetup : Setup := ⟨"/srv/zun/backups", 14, fun _ => (2025, 1, 2)⟩

/-- The database changes when the snapshot has a name, and again while it is copied. -/
def sampleRun : List (Act Nat) :=
  [.task .ok, .task .ok, .task (.suffix 7), .write 5, .task .ok, .write 6, .task .ok, .task .ok]

theorem snapshots_complete_sample : ∃ s, run sampleSetup sampleRun (.start 4 0) = some s ∧
    ∃ d, s.files (sampleSetup.dated 0) = some ⟨.copy d, 0⟩ ∧
      Taken sampleSetup (Runs.visits (step sampleSetup) sampleRun (.start 4 0))
        (sampleSetup.dated 0) d := by
  have hrun : (run sampleSetup sampleRun (.start 4 0)).map (fun s => s.files (sampleSetup.dated 0)) =
      some (some ⟨.copy 5, 0⟩) := by
    decide +kernel
  obtain ⟨s, hs, hf⟩ := Option.map_eq_some_iff.mp hrun
  obtain ⟨d, hd, htaken⟩ := (snapshots_complete hs).1 _ _ (isDb_dated _ 0) hf (by simp)
  obtain rfl : (5 : Nat) = d := by simpa using hd
  exact ⟨s, hs, 5, hf, htaken⟩

def File.isCopy (f : File D) : Prop := ∃ d, f.content = .copy d

/-- The clock is not put back, and nobody else touches the staging file of a snapshot in progress. -/
def calm (s : State D) : Act D → Bool
  | .clock now => s.clock ≤ now
  | .foreign q _ => s.pc.staged.map Staged.path ≠ some q
  | _ => true

/-- Nobody but the server touches `p`. -/
def spares (p : AtomicWrites.Path) : Act D → Bool
  | .foreign q _ => q ≠ p
  | _ => true

def BackupPc.cutoff : BackupPc D → Option Int
  | .prune cutoff _ | .remove cutoff _ _ => some cutoff
  | _ => none

/-- What the task is about to put in place, or to take away. -/
def Aims (s : State D) : Prop :=
  match s.pc with
  | .copying t _ _ => ∀ f, s.files t.path = some f → f.content = .torn
  | .rename t _ => ∀ f, s.files t.path = some f → f.isCopy ∧
      ∀ q g, isDb q = true → s.files q = some g → g.isCopy → g.modified ≤ f.modified
  | .remove cutoff q _ => ∀ f, s.files q = some f → f.isCopy → f.modified < cutoff
  | _ => True

structure Aged (c : Setup) (s : State D) : Prop where
  staged : ∀ t, s.pc.staged = some t → isDb t.path = false
  cutoff : ∀ x, s.pc.cutoff = some x → x ≤ s.clock - c.keep
  past : ∀ p f, s.files p = some f → f.isCopy → f.modified ≤ s.clock
  aims : Aims s

theorem aims_none {s : State D} (h : s.pc.staged = none) (h' : s.pc.cutoff = none) : Aims s := by
  unfold Aims
  cases hpc : s.pc with
  | copying t abs d | rename t abs =>
    rw [hpc] at h
    cases h
  | remove cutoff q todo =>
    rw [hpc] at h'
    cases h'
  | _ => trivial

/-- Where a copy after a step of the task was before. -/
theorem copy_after {s : State D} {o : Outcome} {files : Dir D} {pc : BackupPc D}
    (h : TaskStep c s s.pc o files pc) {p : AtomicWrites.Path} {f : File D}
    (hf : files p = some f) (hcopy : f.isCopy) :
    (∃ q, s.files q = some f) ∨ f.modified = s.clock := by
  generalize s.pc = pc₀ at h
  cases h with
  | @began t _ _ =>
    by_cases hp : p = t.path
    · subst hp
      rw [Function.update_self] at hf
      obtain rfl := Option.some.inj hf
      exact .inr rfl
    · rw [Function.update_of_ne hp] at hf
      exact .inl ⟨p, hf⟩
  | copied =>
    rcases finished_file hf with ⟨-, rfl⟩ | ⟨hf, -⟩
    · exact .inr rfl
    · exact .inl ⟨p, hf⟩
  | @renamed t abs g hg =>
    obtain ⟨-, hf⟩ := update_none hf
    by_cases hp : p = abs
    · subst hp
      rw [Function.update_self] at hf
      exact .inl ⟨t.path, hg.trans hf⟩
    · rw [Function.update_of_ne hp] at hf
      exact .inl ⟨p, hf⟩
  | dropped =>
    split at hf
    · exact .inl ⟨p, hf⟩
    · exact .inl ⟨p, (update_none hf).2⟩
  | removed => exact .inl ⟨p, (update_none hf).2⟩
  | _ => exact .inl ⟨p, hf⟩

theorem cutoff_after {s : State D} {o : Outcome} {files : Dir D} {pc : BackupPc D}
    (h : TaskStep c s s.pc o files pc) (hcutoff : ∀ x, s.pc.cutoff = some x → x ≤ s.clock - c.keep)
    (x : Int) (hx : pc.cutoff = some x) : x ≤ s.clock - c.keep := by
  generalize s.pc = pc₀ at h hcutoff
  cases h with
  | goes _ _ hprune hremove =>
    cases pc with
    | prune cutoff todo =>
      obtain ⟨todo', rfl⟩ := hprune cutoff todo rfl
      exact hcutoff x hx
    | remove cutoff p todo =>
      obtain ⟨⟨todo', rfl⟩, -⟩ := hremove cutoff p todo rfl
      exact hcutoff x hx
    | _ => cases hx
  | listed =>
    obtain rfl := Option.some.inj hx
    exact Int.le_refl _
  | removed | spared => exact hcutoff x hx
  | _ => cases hx

theorem Aged.task {s : State D} {o : Outcome} {files : Dir D} {pc : BackupPc D} (h : Aged c s)
    (hs : TaskStep c s s.pc o files pc) : Aged c { s with files := files, pc := pc } where
  staged := staged_after hs h.staged
  cutoff x hx := (cutoff_after hs h.cutoff x hx : x ≤ s.clock - c.keep)
  past p f hf hcopy := by
    rcases copy_after hs hf hcopy with ⟨q, hq⟩ | hnow
    · exact h.past q f hq hcopy
    · exact Int.le_of_eq hnow
  aims := by
    have haims := h.aims
    have hstaged := h.staged
    unfold Aims at haims ⊢
    generalize s.pc = pc₀ at hs haims hstaged
    cases hs with
    | goes hnone h' _ hremove =>
      cases pc with
      | remove cutoff q todo => exact fun f hf _ => (hremove cutoff q todo rfl).2 f hf
      | copying | rename => cases h'
      | _ => trivial
    | began _ =>
      intro f hf
      simp only [Function.update_self, Option.some.injEq] at hf
      subst hf
      rfl
    | @copied t abs d =>
      -- the copy is younger than every backup that is there
      intro f hf
      rcases finished_file hf with ⟨-, rfl⟩ | ⟨hf, htorn⟩
      · refine ⟨⟨d, rfl⟩, fun q g hq hg hcopy => ?_⟩
        rcases finished_file hg with ⟨he, -⟩ | ⟨hg, -⟩
        · exact absurd he (ne_staging hq (hstaged t rfl))
        · exact h.past q g hg hcopy
      · exact absurd (haims f hf) (htorn rfl)
    | _ => trivial

theorem Aged.step {s t : State D} {a : Act D} (h : Aged c s) (ha : calm s a = true)
    (hs : Backups.step c s a = some t) : Aged c t := by
  cases a with
  | task o =>
    obtain ⟨files, pc, rfl, hstep⟩ := task_step c hs
    exact h.task hstep
  | write d | shutdown =>
    obtain rfl := Option.some.inj hs
    exact ⟨h.staged, h.cutoff, h.past, h.aims⟩
  | clock now =>
    obtain rfl := Option.some.inj hs
    have hnow : s.clock ≤ now := of_decide_eq_true ha
    refine ⟨h.staged, fun x hx => ?_, fun p f hf hcopy => ?_, h.aims⟩
    · have hcutoff := h.cutoff x hx
      dsimp only
      omega
    · exact (h.past p f hf hcopy).trans hnow
  | crash =>
    obtain rfl := Option.some.inj hs
    exact ⟨fun t ht => (by cases ht), fun x hx => (by cases hx), h.past, aims_none rfl rfl⟩
  | foreign q m =>
    obtain rfl := Option.some.inj hs
    have hother : ∀ p f, Function.update s.files q (m.map fun m => ⟨.foreign, m⟩) p = some f →
        f.isCopy → s.files p = some f := by
      rintro p f hf ⟨d, hd⟩
      rcases foreign_file hf with ⟨-, hforeign⟩ | hf
      · rw [hd] at hforeign
        cases hforeign
      · exact hf
    refine ⟨h.staged, h.cutoff, fun p f hf hcopy => h.past p f (hother p f hf hcopy) hcopy, ?_⟩
    have haims := h.aims
    unfold Aims at haims ⊢
    have hcalm : ∀ t, s.pc.staged = some t → t.path ≠ q := by
      rintro t ht rfl
      exact absurd (congrArg (Option.map Staged.path) ht) (of_decide_eq_true ha)
    dsimp only
    generalize s.pc = pc₀ at haims hcalm
    cases pc₀ with
    | copying t abs d =>
      intro f hf
      rw [Function.update_of_ne (hcalm t rfl)] at hf
      exact haims f hf
    | rename t abs =>
      intro f hf
      rw [Function.update_of_ne (hcalm t rfl)] at hf
      exact ⟨(haims f hf).1, fun p g hp hg hcopy => (haims f hf).2 p g hp (hother p g hg hcopy) hcopy⟩
    | remove cutoff p todo => exact fun f hf hcopy => haims f (hother p f hf hcopy) hcopy
    | _ => trivial

theorem run_aged {as : List (Act D)} {d : D} {now : Int} {s : State D}
    (ha : Runs.Along (step c) (fun u a => calm u a = true) as (.start d now))
    (h : run c as (.start d now) = some s) : Aged c s :=
  ha.invariant (fun _ _ _ hu hau hs => hu.step hau hs) h
    ⟨fun t ht => (by cases ht), fun x hx => (by cases hx), fun p f hf => (by cases hf),
      aims_none rfl rfl⟩

/-- A whole copy no older than `m` stands at `p`. -/
def Stands (p : AtomicWrites.Path) (m : Int) (s : State D) : Prop :=
  ∃ f, s.files p = some f ∧ f.isCopy ∧ m ≤ f.modified

theorem Stands.task {s : State D} {o : Outcome} {files : Dir D} {pc : BackupPc D}
    {p : AtomicWrites.Path} {m : Int} (h : Stands p m s) (haged : Aged c s) (hp : isDb p = true)
    (hm : s.clock ≤ m + c.keep) (hs : TaskStep c s s.pc o files pc) :
    Stands p m { s with files := files, pc := pc } := by
  obtain ⟨f, hf, hcopy, hage⟩ := h
  have hstaged := haged.staged
  have haims := haged.aims
  have hcutoff := haged.cutoff
  unfold Aims at haims
  unfold Stands
  generalize s.pc = pc₀ at hs hstaged haims hcutoff
  cases hs with
  | began _ =>
    have hne := ne_staging hp (hstaged _ rfl)
    exact ⟨f, by simpa only [Function.update_of_ne hne] using hf, hcopy, hage⟩
  | @copied t _ d =>
    have hne : p ≠ t.path := ne_staging hp (hstaged t rfl)
    exact ⟨f, by simpa only [finished, Function.update_of_ne hne] using hf, hcopy, hage⟩
  | @renamed t abs g hg =>
    have hne : p ≠ t.path := ne_staging hp (hstaged t rfl)
    by_cases habs : p = abs
    · subst habs
      -- what takes its place is a copy, and younger
      obtain ⟨hgcopy, hyounger⟩ := haims g hg
      refine ⟨g, ?_, hgcopy, hage.trans (hyounger p f hp hf hcopy)⟩
      simp only [Function.update_of_ne hne, Function.update_self]
    · exact ⟨f, by simpa only [Function.update_of_ne hne, Function.update_of_ne habs] using hf,
        hcopy, hage⟩
  | @dropped t =>
    have hne : p ≠ t.path := ne_staging hp (hstaged t rfl)
    refine ⟨f, ?_, hcopy, hage⟩
    dsimp only
    split
    · exact hf
    · rwa [Function.update_of_ne hne]
  | @removed cutoff q todo =>
    have hne : p ≠ q := by
      rintro rfl
      have hold := haims f hf hcopy
      have hlimit := hcutoff cutoff rfl
      omega
    exact ⟨f, by simpa only [Function.update_of_ne hne] using hf, hcopy, hage⟩
  | _ => exact ⟨f, hf, hcopy, hage⟩

theorem Stands.step {s t : State D} {a : Act D} {p : AtomicWrites.Path} {m : Int}
    (h : Stands p m s) (haged : Aged c s) (hp : isDb p = true) (hm : s.clock ≤ m + c.keep)
    (ha : spares p a = true) (hs : Backups.step c s a = some t) : Stands p m t := by
  cases a with
  | task o =>
    obtain ⟨files, pc, rfl, hstep⟩ := task_step c hs
    exact h.task haged hp hm hstep
  | write d | clock now | shutdown | crash =>
    obtain rfl := Option.some.inj hs
    exact h
  | foreign q n =>
    obtain rfl := Option.some.inj hs
    obtain ⟨f, hf, hrest⟩ := h
    have hne : q ≠ p := of_decide_eq_true ha
    exact ⟨f, by simpa only [Function.update_of_ne hne.symm] using hf, hrest⟩

theorem clock_le {s t : State D} {a : Act D} (hs : Backups.step c s a = some t)
    (ha : calm s a = true) : s.clock ≤ t.clock := by
  cases a with
  | task o =>
    obtain ⟨files, pc, rfl, -⟩ := task_step c hs
    exact Int.le_refl _
  | clock now =>
    obtain rfl := Option.some.inj hs
    exact of_decide_eq_true ha
  | write d | foreign q m | shutdown | crash =>
    obtain rfl := Option.some.inj hs
    exact Int.le_refl _

/-- In every run in which the clock is not put back and nobody else touches a staging
file: once a whole copy stands at a `.db` path, whatever fails and wherever the process
dies, a whole copy no older stands there for as long as it is to be kept and nobody else
touches it. -/
theorem snapshots_kept {as bs : List (Act D)} {d : D} {now : Int} {s t : State D}
    {p : AtomicWrites.Path} {f : File D} (h : run c as (.start d now) = some s)
    (hbs : run c bs s = some t)
    (hcalm : Runs.Along (step c) (fun u a => calm u a = true) (as ++ bs) (.start d now))
    (hspares : ∀ a ∈ bs, spares p a = true) (hp : isDb p = true) (hf : s.files p = some f)
    (hcopy : f.isCopy) (hclock : t.clock ≤ f.modified + c.keep) :
    ∃ g, t.files p = some g ∧ g.isCopy ∧ f.modified ≤ g.modified := by
  obtain ⟨hfirst, hrest⟩ := (Runs.along_append h).mp hcalm
  have hend := (hrest.and (.of_forall hspares s)).invariant
    (I := fun u => Aged c u ∧ (u.clock ≤ f.modified + c.keep → Stands p f.modified u))
    (fun u a v hu ha hs => ⟨hu.1.step ha.1 hs, fun hv => ?_⟩) hbs
    ⟨run_aged hfirst h, fun _ => ⟨f, hf, hcopy, Int.le_refl _⟩⟩
  · exact hend.2 hclock
  · have hclock : u.clock ≤ f.modified + c.keep := (clock_le hs ha.1).trans hv
    exact (hu.2 hclock).step hu.1 hp hclock ha.2 hs

/-- The last day of the first copy: the clock stands at the end of its window. -/
def lastDay : List (Act Nat) :=
  [.task .ok, .clock 1209600000000000, .task (.entries [sampleSetup.dated 0]), .task .ok, .task .ok,
    .write 7, .task .ok, .task .ok, .task .ok, .task (.suffix 8), .crash]

theorem snapshots_kept_sample : ∃ t g, run sampleSetup (sampleRun ++ lastDay) (.start 4 0) = some t ∧
    t.files (sampleSetup.dated 0) = some g ∧ g.isCopy := by
  have hrun : ((run sampleSetup sampleRun (.start 4 0)).bind fun s =>
      (run sampleSetup lastDay s).map fun t => (s.files (sampleSetup.dated 0), t.clock)) =
      some (some ⟨.copy 5, 0⟩, 1209600000000000) := by
    decide +kernel
  obtain ⟨s, hs, h⟩ := Option.bind_eq_some_iff.mp hrun
  obtain ⟨t, ht, h⟩ := Option.map_eq_some_iff.mp h
  simp only [Prod.mk.injEq] at h
  obtain ⟨g, hg, hcopy, -⟩ := snapshots_kept hs ht (by decide +kernel) (by decide) (isDb_dated _ 0)
    h.1 ⟨5, rfl⟩ (by rw [h.2]; decide)
  exact ⟨t, g, Runs.run_trans hs ht, hg, hcopy⟩

end ZunServer.Backups
