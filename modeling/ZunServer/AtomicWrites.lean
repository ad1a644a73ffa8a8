import Mathlib.Logic.Function.Basic
import ZunServer.Calls
import ZunServer.Runs

/-!
# The atomic file writes

`atomic_write`, `atomic_write_blocking` and `atomic_copy` of `paths.rs`, step by
step: the staging file, what is written into it, the rename, and the `Drop` that
removes it. Any number of such calls for one destination take their steps in any
order, a system call may fail, and the process may die between any two steps.
-/
namespace ZunServer.AtomicWrites

open Schema Calls

/-- A path that names a file. -/
structure Path where
  parent : String
  fileName : String
  deriving DecidableEq, Repr

abbrev Disk := Path → Option Bytes

/-- `{suffix:08x}`. -/
def hex08 (suffix : UInt32) : String :=
  String.ofList ((List.range 8).reverse.map fun i => Nat.digitChar (suffix.toNat / 16 ^ i % 16))

/-- `tmp_sibling`, with the suffix that was drawn. -/
def tmpSibling (path : Path) (suffix : UInt32) : Path :=
  ⟨path.parent, path.fileName ++ ".tmp." ++ hex08 suffix⟩

theorem tmpSibling_ne (path : Path) (suffix : UInt32) : tmpSibling path suffix ≠ path := by
  intro h
  have hname : path.fileName ++ ".tmp." ++ hex08 suffix = path.fileName := congrArg Path.fileName h
  have hlen := congrArg String.length hname
  have htmp : ".tmp.".length = 5 := rfl
  rw [String.length_append, String.length_append] at hlen
  omega

/-- `Staged`. -/
structure Staged where
  path : Path
  committed : Bool
  deriving DecidableEq, Repr

def Staged.new (dest : Path) (suffix : UInt32) : Staged := ⟨tmpSibling dest suffix, false⟩

def Staged.commit (t : Staged) : Staged := { t with committed := true }

/-- Where the bytes come from: an argument, or the file that is copied. -/
inductive Source where
  | bytes (b : Bytes)
  | file (src : Path)
  deriving DecidableEq, Repr

/-- What a call is about to do. `fill` has written some bytes of the file already, `drop` is
the `Drop` of the `Staged` on the way out. -/
inductive CallPc where
  | stage
  | openSource (t : Staged)
  | create (t : Staged) (b : Bytes)
  | fill (t : Staged) (b : Bytes) (written : Nat)
  | rename (t : Staged) (b : Bytes)
  | commit (t : Staged)
  | drop (t : Staged) (r : Except String Unit)
  | returned (r : Except String Unit)
  /-- The process died. -/
  | killed
  deriving DecidableEq, Repr

structure WriteCall where
  source : Source
  pc : CallPc
  deriving DecidableEq, Repr

def atomicWrite (b : Bytes) : WriteCall := ⟨.bytes b, .stage⟩
def atomicWriteBlocking (b : Bytes) : WriteCall := ⟨.bytes b, .stage⟩
def atomicCopy (src : Path) : WriteCall := ⟨.file src, .stage⟩

/-- What the system answers. -/
inductive Outcome where
  | suffix (n : UInt32)
  | ok
  /-- The file has so many bytes by now. -/
  | wrote (n : Nat)
  | fails (e : String)
  deriving DecidableEq, Repr

/-- One step of a call for `dest`; `inUse` are the staging files of the calls under way. A
write that fails has written any prefix, a rename that fails nothing. -/
def WriteCall.step (dest : Path) (inUse : List Path) (disk : Disk) (c : WriteCall) :
    Outcome → Option (Disk × CallPc)
  | .suffix n => match c.pc with
    | .stage =>
      let t := Staged.new dest n
      if disk t.path = none ∧ t.path ∉ inUse then some (disk, match c.source with
        | .bytes b => .create t b
        | .file _ => .openSource t)
      else none
    | _ => none
  | .ok => match c.pc, c.source with
    | .openSource t, .file src => (disk src).map fun b => (disk, .create t b)
    | .create t b, _ => some (Function.update disk t.path (some []), .fill t b 0)
    | .fill t b written, _ => if written = b.length then some (disk, .rename t b) else none
    | .rename t _, _ =>
      (disk t.path).map fun b =>
        (Function.update (Function.update disk dest (some b)) t.path none, .commit t)
    | .commit t, _ => some (disk, .drop t.commit (.ok ()))
    | .drop t r, _ =>
      some (if t.committed then disk else Function.update disk t.path none, .returned r)
    | _, _ => none
  | .wrote n => match c.pc with
    | .fill t b written =>
      if written < n ∧ n ≤ b.length then
        some (Function.update disk t.path (some (b.take n)), .fill t b n)
      else none
    | _ => none
  | .fails e => match c.pc with
    | .openSource t | .create t _ | .fill t _ _ | .rename t _ => some (disk, .drop t (.error e))
    | _ => none

/-- The staging file a call may have on disk. -/
def CallPc.staged : CallPc → Option Staged
  | .openSource t | .create t _ | .fill t _ _ | .rename t _ | .commit t | .drop t _ => some t
  | .stage | .returned _ | .killed => none

def CallPc.staging (pc : CallPc) : Option Path := pc.staged.map Staged.path

def CallPc.kill : CallPc → CallPc
  | .returned r => .returned r
  | _ => .killed

structure State where
  disk : Disk
  calls : List WriteCall

def State.start (disk : Disk) : State := ⟨disk, []⟩

def State.inUse (s : State) : List Path := s.calls.filterMap fun c => c.pc.staging

inductive Act where
  | call (c : WriteCall)
  | step (i : Nat) (o : Outcome)
  | crash
  deriving DecidableEq, Repr

def step (dest : Path) (s : State) : Act → Option State
  | .call c => if c.pc = .stage then some { s with calls := s.calls ++ [c] } else none
  | .step i o => (s.calls[i]?).bind fun c =>
    (c.step dest s.inUse s.disk o).map fun (disk, pc) =>
      ⟨disk, s.calls.set i { c with pc := pc }⟩
  | .crash => some { s with calls := s.calls.map fun c => { c with pc := c.pc.kill } }

/-- Before the rename: a failure leads to the `Drop`. -/
def CallPc.unplaced : CallPc → Option Staged
  | .openSource t | .create t _ | .fill t _ _ | .rename t _ => some t
  | .stage | .commit _ | .drop _ _ | .returned _ | .killed => none

/-- The bytes a call is to put at its destination, once it has them. -/
def CallPc.bytes : CallPc → Option Bytes
  | .create _ b | .fill _ b _ | .rename _ b => some b
  | _ => none

/-- What the staging file holds; the `Staged` is committed only after the rename. -/
def CallPc.Content (disk : Disk) : CallPc → Prop
  | .openSource t | .create t _ => t.committed = false
  | .fill t b written => t.committed = false ∧ disk t.path = some (b.take written)
  | .rename t b => t.committed = false ∧ disk t.path = some b
  | .commit t => disk t.path = none
  | .drop t _ => t.committed = true → disk t.path = none
  | .stage | .returned _ | .killed => True

/-- Only its own staging file matters to a call. -/
theorem CallPc.Content.congr {pc : CallPc} {disk disk' : Disk} (h : pc.Content disk)
    (heq : ∀ p, pc.staging = some p → disk' p = disk p) : pc.Content disk' := by
  cases pc with
  | fill t b written => exact ⟨h.1, (heq t.path rfl).trans h.2⟩
  | rename t b => exact ⟨h.1, (heq t.path rfl).trans h.2⟩
  | commit t => exact (heq t.path rfl).trans h
  | drop t r => exact fun hc => (heq t.path rfl).trans (h hc)
  | _ => exact h

theorem CallPc.unplaced_content {pc : CallPc} {t : Staged} {disk : Disk} (hpc : pc.unplaced = some t)
    (h : pc.Content disk) : t.committed = false := by
  cases pc <;> cases hpc
  · exact h
  · exact h
  · exact h.1
  · exact h.1

/-- The rename has succeeded. -/
def CallPc.installed : CallPc → Bool
  | .commit _ | .drop _ (.ok _) | .returned (.ok _) => true
  | _ => false

/-- The rename has not succeeded; of a call that was killed nothing is known. -/
def CallPc.pending : CallPc → Bool
  | .commit _ | .drop _ (.ok _) | .returned (.ok _) | .killed => false
  | _ => true

/-- The steps of a call, one by one. -/
inductive Stepped (dest : Path) (inUse : List Path) (disk : Disk) (source : Source) :
    CallPc → Outcome → Disk → CallPc → Prop
  | staged {n : UInt32} {pc : CallPc} (hfree : disk (tmpSibling dest n) = none)
      (hnew : tmpSibling dest n ∉ inUse)
      (hpc : (∃ b, source = .bytes b ∧ pc = .create (Staged.new dest n) b) ∨
        pc = .openSource (Staged.new dest n)) :
      Stepped dest inUse disk source .stage (.suffix n) disk pc
  | opened {t : Staged} {src : Path} {b : Bytes} (hs : source = .file src)
      (hb : disk src = some b) : Stepped dest inUse disk source (.openSource t) .ok disk (.create t b)
  | created {t : Staged} {b : Bytes} : Stepped dest inUse disk source (.create t b) .ok
      (Function.update disk t.path (some [])) (.fill t b 0)
  | wrote {t : Staged} {b : Bytes} {k n : Nat} (hn : n ≤ b.length) :
      Stepped dest inUse disk source (.fill t b k) (.wrote n)
        (Function.update disk t.path (some (b.take n))) (.fill t b n)
  | filled {t : Staged} {b : Bytes} :
      Stepped dest inUse disk source (.fill t b b.length) .ok disk (.rename t b)
  | renamed {t : Staged} {b x : Bytes} (hx : disk t.path = some x) :
      Stepped dest inUse disk source (.rename t b) .ok
        (Function.update (Function.update disk dest (some x)) t.path none) (.commit t)
  | committed {t : Staged} :
      Stepped dest inUse disk source (.commit t) .ok disk (.drop t.commit (.ok ()))
  | dropped {t : Staged} {r : Except String Unit} : Stepped dest inUse disk source (.drop t r) .ok
      (if t.committed then disk else Function.update disk t.path none) (.returned r)
  | failed {pc : CallPc} {t : Staged} {e : String} (hpc : pc.unplaced = some t) :
      Stepped dest inUse disk source pc (.fails e) disk (.drop t (.error e))

theorem WriteCall.stepped {dest : Path} {inUse : List Path} {disk disk' : Disk} {c : WriteCall}
    {o : Outcome} {pc : CallPc} (h : c.step dest inUse disk o = some (disk', pc)) :
    Stepped dest inUse disk c.source c.pc o disk' pc := by
  obtain ⟨source, pc₀⟩ := c
  cases o with
  | suffix n =>
    cases pc₀ <;> simp only [step, reduceCtorEq] at h
    obtain ⟨⟨hfree, hnew⟩, h⟩ := Option.ite_none_right_eq_some.mp h
    cases source with
    | bytes b =>
      cases h
      exact .staged hfree hnew (.inl ⟨b, rfl, rfl⟩)
    | file src =>
      cases h
      exact .staged hfree hnew (.inr rfl)
  | ok =>
    cases pc₀ with
    | openSource t =>
      cases source <;> simp only [step, reduceCtorEq] at h
      obtain ⟨b, hb, h⟩ := Option.map_eq_some_iff.mp h
      cases h
      exact .opened rfl hb
    | fill t b written =>
      simp only [step] at h
      obtain ⟨hall, h⟩ := Option.ite_none_right_eq_some.mp h
      cases h
      rw [hall]
      exact .filled
    | rename t b =>
      simp only [step] at h
      obtain ⟨x, hx, h⟩ := Option.map_eq_some_iff.mp h
      cases h
      exact .renamed hx
    | create t b =>
      cases h
      exact .created
    | commit t =>
      cases h
      exact .committed
    | drop t r =>
      cases h
      exact .dropped
    | _ => cases h
  | wrote n =>
    cases pc₀ <;> simp only [step, reduceCtorEq] at h
    obtain ⟨⟨-, hn⟩, h⟩ := Option.ite_none_right_eq_some.mp h
    cases h
    exact .wrote hn
  | fails e => cases pc₀ <;> cases h <;> exact .failed rfl

section
variable {dest : Path} {inUse : List Path} {disk disk' : Disk} {source : Source} {pc pc' : CallPc}
  {o : Outcome}

/-- A call touches its destination and its own staging file only. -/
theorem Stepped.frame (h : Stepped dest inUse disk source pc o disk' pc') {p : Path}
    (hdest : p ≠ dest) (hp : pc.staging ≠ some p) : disk' p = disk p := by
  cases h with
  | created | wrote =>
    have hne : p ≠ _ := fun he => hp (congrArg some he.symm)
    simp [hne]
  | renamed =>
    have hne : p ≠ _ := fun he => hp (congrArg some he.symm)
    simp [hdest, hne]
  | dropped =>
    have hne : p ≠ _ := fun he => hp (congrArg some he.symm)
    split <;> simp [hne]
  | _ => rfl

/-- The staging file stays the same one; a new one is nobody's and not there yet. -/
theorem Stepped.staging (h : Stepped dest inUse disk source pc o disk' pc') {p : Path}
    (hp : pc'.staging = some p) : pc.staging = some p ∨
      pc = .stage ∧ (∃ n, p = tmpSibling dest n) ∧ disk p = none ∧ p ∉ inUse := by
  cases h with
  | staged hfree hnew hpc =>
    right
    rcases hpc with ⟨b, -, rfl⟩ | rfl <;> cases hp <;> exact ⟨rfl, ⟨_, rfl⟩, hfree, hnew⟩
  | failed hpc =>
    left
    cases pc <;> cases hpc <;> exact hp
  | dropped => cases hp
  | _ => exact .inl hp

/-- Only the rename touches the destination. -/
theorem Stepped.installs (h : Stepped dest inUse disk source pc o disk' pc')
    (hne : pc.staging ≠ some dest) : disk' dest = disk dest ∨
      ∃ t b, pc = .rename t b ∧ o = .ok ∧ pc' = .commit t ∧ disk' dest = disk t.path := by
  cases h with
  | created | wrote =>
    have hpath : dest ≠ _ := fun he => hne (congrArg some he.symm)
    simp [hpath]
  | renamed hx =>
    have hpath : dest ≠ _ := fun he => hne (congrArg some he.symm)
    simp [hpath, hx]
  | dropped =>
    have hpath : dest ≠ _ := fun he => hne (congrArg some he.symm)
    left
    split <;> simp [hpath]
  | _ => exact .inl rfl

theorem Stepped.pending (h : Stepped dest inUse disk source pc o disk' pc')
    (hne : pc.staging ≠ some dest) (hpc : pc'.pending = true) :
    pc.pending = true ∧ disk' dest = disk dest := by
  have hpend : pc.pending = true := by
    cases h with
    | failed hpc => cases pc <;> cases hpc <;> rfl
    | dropped =>
      rename_i t r
      cases r with
      | ok u => cases hpc
      | error e => rfl
    | committed => cases hpc
    | _ => rfl
  rcases h.installs hne with hsame | ⟨t, b, -, -, rfl, -⟩
  · exact ⟨hpend, hsame⟩
  · cases hpc

theorem Stepped.installed (h : Stepped dest inUse disk source pc o disk' pc')
    (hne : pc.staging ≠ some dest) (hpc : pc'.installed = true) : pc.installed = true ∨
      ∃ t b, pc = .rename t b ∧ o = .ok ∧ disk' dest = disk t.path := by
  cases h with
  | renamed hx =>
    rename_i t b x
    have hpath : dest ≠ t.path := fun he => hne (congrArg some he.symm)
    exact .inr ⟨t, b, rfl, rfl, by simp [hpath, hx]⟩
  | staged hfree hnew hpc' => rcases hpc' with ⟨b, -, rfl⟩ | rfl <;> cases hpc
  | dropped =>
    rename_i t r
    left
    cases r with
    | ok u => rfl
    | error e => cases hpc
  | committed => exact .inl rfl
  | _ => cases hpc

/-- A call keeps track of its staging file. -/
theorem Stepped.content (h : Stepped dest inUse disk source pc o disk' pc')
    (hc : pc.Content disk) : pc'.Content disk' := by
  cases h with
  | staged hfree hnew hpc => rcases hpc with ⟨b, -, rfl⟩ | rfl <;> rfl
  | opened hs hb => exact hc
  | created => exact ⟨hc, by simp⟩
  | wrote hn => exact ⟨hc.1, by simp⟩
  | filled => exact ⟨hc.1, by simpa using hc.2⟩
  | renamed hx => simp [CallPc.Content]
  | committed => exact fun _ => hc
  | dropped => trivial
  | failed hpc =>
    intro htrue
    rw [CallPc.unplaced_content hpc hc] at htrue
    cases htrue

/-- A call has its bytes from its argument, or from the file it has opened. -/
theorem Stepped.bytes (h : Stepped dest inUse disk source pc o disk' pc') {b : Bytes}
    (hb : pc'.bytes = some b) : pc.bytes = some b ∨ (pc = .stage ∧ source = .bytes b) ∨
      ∃ t src, pc = .openSource t ∧ o = .ok ∧ source = .file src ∧ disk src = some b := by
  cases h with
  | staged hfree hnew hpc =>
    rcases hpc with ⟨b', hs, rfl⟩ | rfl <;> cases hb
    exact .inr (.inl ⟨rfl, hs⟩)
  | opened hs hopen =>
    cases hb
    exact .inr (.inr ⟨_, _, rfl, rfl, hs, hopen⟩)
  | created | wrote | filled => exact .inl hb
  | _ => cases hb

/-- Gone, the staging file of a call that is over. -/
theorem Stepped.cleans (h : Stepped dest inUse disk source pc o disk' pc') (hc : pc.Content disk)
    {p : Path} (hp : pc.staging = some p) (hp' : pc'.staging ≠ some p) : disk' p = none := by
  cases h with
  | dropped =>
    rename_i t r
    cases hp
    by_cases hcom : t.committed = true
    · simpa [hcom] using hc hcom
    · simp [hcom]
  | failed hpc => cases pc <;> cases hpc <;> exact absurd hp hp'
  | staged => cases hp
  | _ => exact absurd hp hp'

end

/-- Where a call is from. -/
inductive Origin (dest : Path) (s s' : State) (j : Nat) (c : WriteCall) : Act → Prop
  | kept {a : Act} (hj : s.calls[j]? = some c) (ha : ∀ o, a ≠ .step j o) : Origin dest s s' j c a
  | moved {o : Outcome} {pc : CallPc} (hj : s.calls[j]? = some ⟨c.source, pc⟩)
      (h : Stepped dest s.inUse s.disk c.source pc o s'.disk c.pc) : Origin dest s s' j c (.step j o)
  | new (hj : j = s.calls.length) (hpc : c.pc = .stage) (hdisk : s'.disk = s.disk) :
      Origin dest s s' j c (.call c)
  | killed {pc : CallPc} (hj : s.calls[j]? = some ⟨c.source, pc⟩) (hpc : c.pc = pc.kill) :
      Origin dest s s' j c .crash

/-- What becomes of the disk. -/
inductive DiskStep (dest : Path) (s s' : State) : Act → Prop
  | same {a : Act} (ha : ∀ i o, a ≠ .step i o) (h : s'.disk = s.disk) : DiskStep dest s s' a
  | stepped {i : Nat} {o : Outcome} {c : WriteCall} {pc : CallPc} (hi : s.calls[i]? = some c)
      (h : Stepped dest s.inUse s.disk c.source c.pc o s'.disk pc)
      (hi' : s'.calls[i]? = some ⟨c.source, pc⟩) : DiskStep dest s s' (.step i o)

section
variable {dest : Path} {s s' : State} {a : Act}

theorem step_disk (h : step dest s a = some s') : DiskStep dest s s' a := by
  cases a with
  | call c =>
    obtain ⟨-, h⟩ := Option.ite_none_right_eq_some.mp h
    cases h
    exact .same (by simp) rfl
  | step i o =>
    obtain ⟨c, hi, h⟩ := Option.bind_eq_some_iff.mp h
    obtain ⟨⟨disk, pc⟩, hstep, h⟩ := Option.map_eq_some_iff.mp h
    cases h
    have hlen := (List.getElem?_eq_some_iff.mp hi).1
    exact .stepped hi (WriteCall.stepped hstep) (by simp [hlen])
  | crash =>
    cases h
    exact .same (by simp) rfl

theorem step_length (h : step dest s a = some s') : s.calls.length ≤ s'.calls.length := by
  cases a with
  | call c =>
    obtain ⟨-, h⟩ := Option.ite_none_right_eq_some.mp h
    cases h
    simp
  | step i o =>
    obtain ⟨c, hi, h⟩ := Option.bind_eq_some_iff.mp h
    obtain ⟨⟨disk, pc⟩, hstep, h⟩ := Option.map_eq_some_iff.mp h
    cases h
    simp
  | crash =>
    cases h
    simp

theorem step_origin (h : step dest s a = some s') {j : Nat} {c : WriteCall}
    (hj : s'.calls[j]? = some c) : Origin dest s s' j c a := by
  cases a with
  | call c₀ =>
    obtain ⟨hpc, h⟩ := Option.ite_none_right_eq_some.mp h
    cases h
    by_cases hlen : j < s.calls.length
    · rw [List.getElem?_append_left hlen] at hj
      exact .kept hj (by simp)
    · have hlast : j = s.calls.length := by
        have := (List.getElem?_eq_some_iff.mp hj).1
        simp at this
        omega
      subst hlast
      obtain rfl : c₀ = c := by simpa using hj
      exact .new rfl hpc rfl
  | step i o =>
    obtain ⟨c₀, hi, h⟩ := Option.bind_eq_some_iff.mp h
    obtain ⟨⟨disk, pc⟩, hstep, h⟩ := Option.map_eq_some_iff.mp h
    cases h
    by_cases hij : i = j
    · subst hij
      obtain ⟨hlen, -⟩ := List.getElem?_eq_some_iff.mp hi
      obtain rfl : ⟨c₀.source, pc⟩ = c := by simpa [hlen] using hj
      exact .moved hi (WriteCall.stepped hstep)
    · rw [List.getElem?_set_ne hij] at hj
      exact .kept hj (by simp [hij])
  | crash =>
    cases h
    rw [List.getElem?_map] at hj
    obtain ⟨c₀, hj₀, rfl⟩ := Option.map_eq_some_iff.mp hj
    exact .killed hj₀ rfl

/-- Unless the process dies, a call stays as it is until it takes a step. -/
theorem step_kept (h : step dest s a = some s') (hcrash : a ≠ .crash) {j : Nat} {c : WriteCall}
    (hj : s.calls[j]? = some c) (ha : ∀ o, a ≠ .step j o) : s'.calls[j]? = some c := by
  have hlen := (List.getElem?_eq_some_iff.mp hj).1
  cases a with
  | call c₀ =>
    obtain ⟨-, h⟩ := Option.ite_none_right_eq_some.mp h
    cases h
    rwa [List.getElem?_append_left hlen]
  | step i o =>
    obtain ⟨c₀, hi, h⟩ := Option.bind_eq_some_iff.mp h
    obtain ⟨⟨disk, pc⟩, hstep, h⟩ := Option.map_eq_some_iff.mp h
    cases h
    have hij : i ≠ j := by
      rintro rfl
      exact ha o rfl
    rwa [List.getElem?_set_ne hij]
  | crash => exact absurd rfl hcrash

theorem mem_inUse {p : Path} :
    p ∈ s.inUse ↔ ∃ (i : Nat) (c : WriteCall), s.calls[i]? = some c ∧ c.pc.staging = some p := by
  rw [State.inUse, List.mem_filterMap]
  simp only [List.mem_iff_getElem?]
  constructor
  · rintro ⟨c, ⟨i, hi⟩, hp⟩
    exact ⟨i, c, hi, hp⟩
  · rintro ⟨i, c, hi, hp⟩
    exact ⟨c, ⟨i, hi⟩, hp⟩

theorem staging_kill (pc : CallPc) : pc.kill.staging = none := by
  cases pc <;> rfl

/-- A staging file was in use before the step, or is a new one. -/
theorem staging_before (h : step dest s a = some s') {j : Nat} {c : WriteCall} {p : Path}
    (hj : s'.calls[j]? = some c) (hp : c.pc.staging = some p) :
    (∃ c₀, s.calls[j]? = some c₀ ∧ c₀.pc.staging = some p) ∨
      (∃ o, a = .step j o) ∧ (∃ n, p = tmpSibling dest n) ∧ s.disk p = none ∧ p ∉ s.inUse := by
  cases step_origin h hj with
  | kept hj ha => exact .inl ⟨c, hj, hp⟩
  | moved hj hstep =>
    rcases hstep.staging hp with hp₀ | ⟨-, hname, hfree, hnew⟩
    · exact .inl ⟨_, hj, hp₀⟩
    · exact .inr ⟨⟨_, rfl⟩, hname, hfree, hnew⟩
  | new hlen hpc hdisk =>
    rw [hpc] at hp
    cases hp
  | killed hj hpc =>
    rw [hpc, staging_kill] at hp
    cases hp

end

/-- Every call has a staging file to itself, which is not the destination, and holds there
what the call relies on. -/
structure Staging (dest : Path) (s : State) : Prop where
  named : ∀ (i : Nat) (c : WriteCall) (p : Path), s.calls[i]? = some c →
    c.pc.staging = some p → ∃ n, p = tmpSibling dest n
  apart : ∀ (i j : Nat) (c d : WriteCall) (p : Path), s.calls[i]? = some c →
    s.calls[j]? = some d → c.pc.staging = some p → d.pc.staging = some p → i = j
  content : ∀ (i : Nat) (c : WriteCall), s.calls[i]? = some c → c.pc.Content s.disk

section
variable {dest : Path} {s s' : State} {a : Act}

theorem Staging.ne_dest (hs : Staging dest s) {i : Nat} {c : WriteCall} {p : Path}
    (hi : s.calls[i]? = some c) (hp : c.pc.staging = some p) : p ≠ dest := by
  obtain ⟨n, rfl⟩ := hs.named i c p hi hp
  exact tmpSibling_ne dest n

/-- Nobody else touches a staging file. -/
theorem Staging.kept_disk (hs : Staging dest s) (h : step dest s a = some s') {j : Nat}
    {c : WriteCall} {p : Path} (hj : s.calls[j]? = some c) (ha : ∀ o, a ≠ .step j o)
    (hp : c.pc.staging = some p) : s'.disk p = s.disk p := by
  cases step_disk h with
  | same ha' heq => rw [heq]
  | stepped hi hstep hi' =>
    apply hstep.frame (hs.ne_dest hj hp)
    intro hp'
    obtain rfl := hs.apart _ _ _ _ _ hi hj hp' hp
    exact ha _ rfl

theorem Staging.step (hs : Staging dest s) (h : step dest s a = some s') : Staging dest s' := by
  constructor
  · intro i c p hi hp
    rcases staging_before h hi hp with ⟨c₀, hi₀, hp₀⟩ | ⟨-, hname, -⟩
    · exact hs.named i c₀ p hi₀ hp₀
    · exact hname
  · intro i j c d p hi hj hpi hpj
    rcases staging_before h hi hpi with ⟨c₀, hi₀, hpi₀⟩ | ⟨⟨o, hai⟩, -, -, hnewi⟩ <;>
      rcases staging_before h hj hpj with ⟨d₀, hj₀, hpj₀⟩ | ⟨⟨o', haj⟩, -, -, hnewj⟩
    · exact hs.apart i j c₀ d₀ p hi₀ hj₀ hpi₀ hpj₀
    · exact absurd (mem_inUse.mpr ⟨i, c₀, hi₀, hpi₀⟩) hnewj
    · exact absurd (mem_inUse.mpr ⟨j, d₀, hj₀, hpj₀⟩) hnewi
    · rw [hai] at haj
      cases haj
      rfl
  · intro i c hi
    cases step_origin h hi with
    | kept hi₀ ha => exact (hs.content i c hi₀).congr fun p hp => hs.kept_disk h hi₀ ha hp
    | moved hi₀ hstep => exact hstep.content (hs.content i _ hi₀)
    | new hlen hpc hdisk =>
      rw [hpc]
      trivial
    | killed hi₀ hpc =>
      rw [hpc]
      cases ‹CallPc› <;> trivial

theorem staging_start (dest : Path) (disk : Disk) : Staging dest (.start disk) := by
  constructor <;> simp [State.start]

end

/-- The bytes that the `i`-th call is to install: its argument, or what the file to copy held
when the call opened it. -/
def Supplied (past : List (State × Act)) (i : Nat) (source : Source) (b : Bytes) : Prop :=
  source = .bytes b ∨ ∃ m src t, source = .file src ∧ (m, .step i .ok) ∈ past ∧
    m.calls[i]? = some ⟨source, .openSource t⟩ ∧ m.disk src = some b

/-- The `i`-th call has renamed its staging file, and the destination then held its bytes. -/
def Installs (dest : Path) (past : List (State × Act)) (i : Nat) (source : Source) (b : Bytes) : Prop :=
  Supplied past i source b ∧ ∃ m m' t b', (m, .step i .ok) ∈ past ∧
    m.calls[i]? = some ⟨source, .rename t b'⟩ ∧ step dest m (.step i .ok) = some m' ∧
    m'.disk dest = some b

theorem Supplied.append {past : List (State × Act)} {i : Nat} {source : Source} {b : Bytes}
    (h : Supplied past i source b) (x : State × Act) : Supplied (past ++ [x]) i source b := by
  rcases h with h | ⟨m, src, t, hs, hm, hi, hb⟩
  · exact .inl h
  · exact .inr ⟨m, src, t, hs, List.mem_append_left _ hm, hi, hb⟩

theorem Installs.append {dest : Path} {past : List (State × Act)} {i : Nat} {source : Source}
    {b : Bytes} (h : Installs dest past i source b) (x : State × Act) :
    Installs dest (past ++ [x]) i source b := by
  obtain ⟨hs, m, m', t, b', hm, hrest⟩ := h
  exact ⟨hs.append x, m, m', t, b', List.mem_append_left _ hm, hrest⟩

/-- What the steps so far have to do with where the calls are. -/
structure History (dest : Path) (disk₀ : Disk) (past : List (State × Act)) (s : State) : Prop where
  staging : Staging dest s
  seen : ∀ (m : State) (i : Nat) (o : Outcome), (m, .step i o) ∈ past → i < s.calls.length
  supplied : ∀ (i : Nat) (c : WriteCall) (b : Bytes), s.calls[i]? = some c → c.pc.bytes = some b →
    Supplied past i c.source b
  installed : ∀ (i : Nat) (c : WriteCall), s.calls[i]? = some c → c.pc.installed = true →
    ∃ b, Installs dest past i c.source b
  pending : ∀ (i : Nat) (c : WriteCall), s.calls[i]? = some c → c.pc.pending = true →
    ∀ m o, (m, .step i o) ∈ past → ∀ m' ∈ step dest m (.step i o), m'.disk dest = m.disk dest
  dest : s.disk dest = disk₀ dest ∨
    ∃ i source b, Installs dest past i source b ∧ s.disk dest = some b

section
variable {dest : Path} {disk₀ : Disk} {past : List (State × Act)} {s s' : State} {a : Act}

theorem History.staging_ne (hs : History dest disk₀ past s) {i : Nat} {c : WriteCall}
    (hi : s.calls[i]? = some c) : c.pc.staging ≠ some dest :=
  fun hp => hs.staging.ne_dest hi hp rfl

/-- The rename of a call installs the bytes that the call has. -/
theorem History.installs (hs : History dest disk₀ past s) {i : Nat} {source : Source} {t : Staged}
    {b : Bytes} (hi : s.calls[i]? = some ⟨source, .rename t b⟩)
    (h : step dest s (.step i .ok) = some s') (hdisk : s'.disk dest = s.disk t.path) :
    Installs dest (past ++ [(s, .step i .ok)]) i source b ∧ s'.disk dest = some b := by
  have hb : s'.disk dest = some b := by
    rw [hdisk]
    exact (hs.staging.content i _ hi).2
  have hsup := (hs.supplied i _ b hi rfl).append (s, .step i .ok)
  exact ⟨⟨hsup, s, s', t, b, by simp, hi, h, hb⟩, hb⟩

theorem History.step_supplied (hs : History dest disk₀ past s) (h : step dest s a = some s')
    {i : Nat} {c : WriteCall} {b : Bytes} (hi : s'.calls[i]? = some c) (hb : c.pc.bytes = some b) :
    Supplied (past ++ [(s, a)]) i c.source b := by
  cases step_origin h hi with
  | kept hi₀ ha => exact (hs.supplied i c b hi₀ hb).append _
  | moved hi₀ hstep =>
    rcases hstep.bytes hb with hb₀ | ⟨-, hsrc⟩ | ⟨t, src, rfl, rfl, hsrc, hopen⟩
    · exact (hs.supplied i _ b hi₀ hb₀).append _
    · exact .inl hsrc
    · exact .inr ⟨s, src, t, hsrc, by simp, hi₀, hopen⟩
  | new hlen hpc hdisk =>
    rw [hpc] at hb
    cases hb
  | killed hi₀ hpc =>
    rw [hpc] at hb
    cases ‹CallPc› <;> cases hb

theorem History.step_installed (hs : History dest disk₀ past s) (h : step dest s a = some s')
    {i : Nat} {c : WriteCall} (hi : s'.calls[i]? = some c) (hc : c.pc.installed = true) :
    ∃ b, Installs dest (past ++ [(s, a)]) i c.source b := by
  cases step_origin h hi with
  | kept hi₀ ha =>
    obtain ⟨b, hb⟩ := hs.installed i c hi₀ hc
    exact ⟨b, hb.append _⟩
  | moved hi₀ hstep =>
    rcases hstep.installed (hs.staging_ne hi₀) hc with hpc | ⟨t, b, rfl, rfl, hdisk⟩
    · obtain ⟨b, hb⟩ := hs.installed i _ hi₀ hpc
      exact ⟨b, hb.append _⟩
    · exact ⟨b, (hs.installs hi₀ h hdisk).1⟩
  | new hlen hpc hdisk =>
    rw [hpc] at hc
    cases hc
  | killed hi₀ hpc =>
    rename_i pc
    have hpc₀ : pc.installed = true := by
      rw [hpc] at hc
      cases pc <;> first | exact hc | cases hc
    obtain ⟨b, hb⟩ := hs.installed i _ hi₀ hpc₀
    exact ⟨b, hb.append _⟩

/-- A call that is pending after the step was pending before it, or is new. -/
theorem History.step_pending (hs : History dest disk₀ past s) (h : step dest s a = some s')
    {i : Nat} {c : WriteCall} (hi : s'.calls[i]? = some c) (hc : c.pc.pending = true)
    {m m' : State} {o : Outcome} (hm : (m, .step i o) ∈ past ++ [(s, a)])
    (hm' : m' ∈ step dest m (.step i o)) : m'.disk dest = m.disk dest := by
  rcases List.mem_append.mp hm with hpast | hlast
  · cases step_origin h hi with
    | kept hi₀ ha => exact hs.pending i c hi₀ hc m o hpast m' hm'
    | moved hi₀ hstep =>
      exact hs.pending i _ hi₀ (hstep.pending (hs.staging_ne hi₀) hc).1 m o hpast m' hm'
    | new hlen hpc hdisk =>
      have hlt := hs.seen m i o hpast
      omega
    | killed hi₀ hpc =>
      rename_i pc
      have hpc₀ : pc.pending = true := by
        rw [hpc] at hc
        cases pc <;> first | exact hc | cases hc
      exact hs.pending i _ hi₀ hpc₀ m o hpast m' hm'
  · obtain ⟨rfl, rfl⟩ := by simpa using hlast
    obtain rfl := Option.some.inj (hm'.symm.trans h)
    cases step_origin h hi with
    | kept hi₀ ha => exact absurd rfl (ha o)
    | moved hi₀ hstep => exact (hstep.pending (hs.staging_ne hi₀) hc).2

theorem History.step_dest (hs : History dest disk₀ past s) (h : step dest s a = some s') :
    s'.disk dest = disk₀ dest ∨
      ∃ i source b, Installs dest (past ++ [(s, a)]) i source b ∧ s'.disk dest = some b := by
  have hsame : s'.disk dest = s.disk dest → s'.disk dest = disk₀ dest ∨
      ∃ i source b, Installs dest (past ++ [(s, a)]) i source b ∧ s'.disk dest = some b := by
    intro heq
    rw [heq]
    exact hs.dest.imp_right fun ⟨i, source, b, hb, hd⟩ => ⟨i, source, b, hb.append _, hd⟩
  cases step_disk h with
  | same ha heq => exact hsame (by rw [heq])
  | stepped hi hstep hi' =>
    rename_i i o c pc
    rcases hstep.installs (hs.staging_ne hi) with heq | ⟨t, b, hpc, rfl, -, hdisk⟩
    · exact hsame heq
    · obtain ⟨source, pc₀⟩ := c
      obtain rfl : pc₀ = .rename t b := hpc
      exact .inr ⟨i, source, b, hs.installs hi h hdisk⟩

theorem History.step (hs : History dest disk₀ past s) (h : step dest s a = some s') :
    History dest disk₀ (past ++ [(s, a)]) s' where
  staging := hs.staging.step h
  seen m i o hm := by
    rcases List.mem_append.mp hm with hm | hm
    · exact (hs.seen m i o hm).trans_le (step_length h)
    · obtain ⟨rfl, rfl⟩ := by simpa using hm
      obtain ⟨c, hi, -⟩ := Option.bind_eq_some_iff.mp h
      exact (List.getElem?_eq_some_iff.mp hi).1.trans_le (step_length h)
  supplied _ _ _ hi hb := hs.step_supplied h hi hb
  installed _ _ hi hc := hs.step_installed h hi hc
  pending _ _ hi hc _ _ hm _ hm' := hs.step_pending h hi hc hm hm'
  dest := hs.step_dest h

theorem history_start (dest : Path) (disk₀ : Disk) : History dest disk₀ [] (.start disk₀) := by
  refine ⟨staging_start dest disk₀, ?_, ?_, ?_, ?_, .inl rfl⟩ <;> simp [State.start]

end

/-- While nobody was killed, the disk differs from the first one at the destination and at the
staging files in use only, and these are new. -/
structure Clean (dest : Path) (disk₀ : Disk) (s : State) : Prop where
  staging : Staging dest s
  absent : ∀ p ∈ s.inUse, disk₀ p = none
  same : ∀ p, p ≠ dest → p ∉ s.inUse → s.disk p = disk₀ p

theorem Clean.step {dest : Path} {disk₀ : Disk} {s s' : State} {a : Act} (hs : Clean dest disk₀ s)
    (hcrash : a ≠ .crash) (h : step dest s a = some s') : Clean dest disk₀ s' := by
  constructor
  · exact hs.staging.step h
  · intro p hp
    obtain ⟨j, c, hj, hpj⟩ := mem_inUse.mp hp
    rcases staging_before h hj hpj with ⟨c₀, hj₀, hpj₀⟩ | ⟨-, hname, hfree, hnew⟩
    · exact hs.absent p (mem_inUse.mpr ⟨j, c₀, hj₀, hpj₀⟩)
    · obtain ⟨n, rfl⟩ := hname
      rw [← hs.same _ (tmpSibling_ne dest n) hnew]
      exact hfree
  · intro p hdest hp
    by_cases huse : p ∈ s.inUse
    · -- the call whose file it was has just removed or renamed it
      obtain ⟨j, c, hj, hpj⟩ := mem_inUse.mp huse
      have hmoved : ∃ o, a = .step j o := by
        by_contra hnot
        have hj' := step_kept h hcrash hj fun o ho => hnot ⟨o, ho⟩
        exact hp (mem_inUse.mpr ⟨j, c, hj', hpj⟩)
      obtain ⟨o, rfl⟩ := hmoved
      cases step_disk h with
      | same ha heq => exact absurd rfl (ha j o)
      | stepped hi hstep hi' =>
        obtain rfl := Option.some.inj (hj.symm.trans hi)
        have hgone := hstep.cleans (hs.staging.content j c hj) hpj fun hp' =>
          hp (mem_inUse.mpr ⟨j, _, hi', hp'⟩)
        rw [hgone, hs.absent p huse]
    · rw [← hs.same p hdest huse]
      cases step_disk h with
      | same ha heq => rw [heq]
      | stepped hi hstep hi' =>
        exact hstep.frame hdest fun hp' => huse (mem_inUse.mpr ⟨_, _, hi, hp'⟩)

theorem clean_start (dest : Path) (disk₀ : Disk) : Clean dest disk₀ (.start disk₀) := by
  refine ⟨staging_start dest disk₀, ?_, ?_⟩ <;> simp [State.start, State.inUse]

theorem run_clean {dest : Path} {disk₀ : Disk} {as : List Act} {s : State}
    (h : Runs.run (step dest) as (.start disk₀) = some s) (hcrash : ∀ a ∈ as, a ≠ .crash) :
    Clean dest disk₀ s := by
  exact (Runs.Along.of_forall hcrash _).invariant (fun _ _ _ hs hc hstep => hs.step hc hstep) h
    (clean_start dest disk₀)

theorem run_history {dest : Path} {disk₀ : Disk} {as : List Act} {s : State}
    (h : Runs.run (step dest) as (.start disk₀) = some s) :
    History dest disk₀ (Runs.visits (step dest) as (.start disk₀)) s := by
  have hrun := Runs.history_invariant (I := History dest disk₀)
    (fun _ _ _ _ hs hstep => hs.step hstep) h (history_start dest disk₀)
  simpa using hrun

/-- Whatever the calls do in whatever order: the destination holds what it held, or all the bytes
of one of them; a call that failed has not touched it, one that succeeded has put its bytes
there; and when all have returned and none was killed, nothing else on the disk is different. -/
theorem atomic_writes {dest : Path} {disk₀ : Disk} {as : List Act} {s : State}
    (h : Runs.run (step dest) as (.start disk₀) = some s) :
    let past := Runs.visits (step dest) as (.start disk₀)
    (s.disk dest = disk₀ dest ∨ ∃ i source b, Installs dest past i source b ∧ s.disk dest = some b) ∧
    (∀ i source e, s.calls[i]? = some ⟨source, .returned (.error e)⟩ →
      ∀ m o, (m, .step i o) ∈ past → ∀ m' ∈ step dest m (.step i o), m'.disk dest = m.disk dest) ∧
    (∀ i source, s.calls[i]? = some ⟨source, .returned (.ok ())⟩ →
      ∃ b, Installs dest past i source b) ∧
    ((∀ a ∈ as, a ≠ .crash) → (∀ c ∈ s.calls, ∃ r, c.pc = .returned r) →
      ∀ p, p ≠ dest → s.disk p = disk₀ p) := by
  intro past
  have hhist := run_history h
  refine ⟨hhist.dest, ?_, ?_, ?_⟩
  · intro i source e hi
    exact hhist.pending i _ hi rfl
  · intro i source hi
    exact hhist.installed i _ hi rfl
  · intro hcrash hall p hdest
    apply (run_clean h hcrash).same p hdest
    intro hp
    obtain ⟨c, hc, hpc⟩ := List.mem_filterMap.mp hp
    obtain ⟨r, hr⟩ := hall c hc
    rw [hr] at hpc
    cases hpc

/-- A writer that succeeds beside a copy whose rename is refused. -/
def sampleDest : Path := ⟨"/srv/zun/outputs", "a.png"⟩
def sampleSource : Path := ⟨"/srv/zun/cache", "b.png"⟩

def sampleDisk : Disk :=
  Function.update (Function.update (fun _ => none) sampleDest (some [9])) sampleSource (some [4, 5])

def sampleRun : List Act :=
  [.call (atomicWrite [1, 2, 3]), .call (atomicCopy sampleSource), .step 0 (.suffix 7),
    .step 1 (.suffix 8), .step 0 .ok, .step 0 (.wrote 2), .step 1 .ok, .step 0 (.wrote 3),
    .step 0 .ok, .step 1 .ok, .step 1 (.wrote 2), .step 1 .ok, .step 0 .ok,
    .step 1 (.fails "Permission denied (os error 13)"), .step 1 .ok, .step 0 .ok, .step 0 .ok]

theorem atomic_writes_sample : ∃ s, Runs.run (step sampleDest) sampleRun (.start sampleDisk) = some s ∧
    s.disk sampleDest = some [1, 2, 3] ∧ ∀ p, p ≠ sampleDest → s.disk p = sampleDisk p := by
  have hrun : (Runs.run (step sampleDest) sampleRun (.start sampleDisk)).map
      (fun s => (s.disk sampleDest, s.calls)) = some (some [1, 2, 3],
        [⟨.bytes [1, 2, 3], .returned (.ok ())⟩,
          ⟨.file sampleSource, .returned (.error "Permission denied (os error 13)")⟩]) := by
    decide +kernel
  obtain ⟨s, hs, hpair⟩ := Option.map_eq_some_iff.mp hrun
  obtain ⟨hdest, hcalls⟩ := Prod.mk.inj hpair
  obtain ⟨-, -, -, hclean⟩ := atomic_writes hs
  refine ⟨s, hs, hdest, hclean (by simp [sampleRun]) ?_⟩
  rw [hcalls]
  intro c hc
  simp only [List.mem_cons, List.not_mem_nil, or_false] at hc
  rcases hc with rfl | rfl
  · exact ⟨_, rfl⟩
  · exact ⟨_, rfl⟩

/-- `data_dir.join(subdir).join(filename)`. -/
def absolute (dataDir : String) (p : DataPath) : Path := ⟨dataDir ++ "/" ++ p.sub.name, p.filename⟩

theorem absolute_inj {dataDir : String} {p q : DataPath} (h : absolute dataDir p = absolute dataDir q) :
    p = q := by
  obtain ⟨sub, name⟩ := p
  obtain ⟨sub', name'⟩ := q
  simp only [absolute, Path.mk.injEq, String.append_right_inj] at h
  obtain ⟨hsub, rfl⟩ := h
  cases sub <;> cases sub' <;> first | rfl | simp [Subdir.name] at hsub

/-- The files of the server as they are on the disk. -/
def filesOf (dataDir : String) (disk : Disk) : Files := fun p => disk (absolute dataDir p)

/-- A write with nobody else about: where it is tells what the destination holds. -/
structure Alone (dest : Path) (disk₀ : Disk) (b : Bytes) (pc : CallPc) (s : State) : Prop where
  staging : Staging dest s
  calls : s.calls = [⟨.bytes b, pc⟩]
  bytes : ∀ b', pc.bytes = some b' → b' = b
  pending : pc.pending = true → s.disk dest = disk₀ dest
  installed : pc.installed = true → s.disk dest = some b

theorem Alone.step {dest : Path} {disk₀ : Disk} {b : Bytes} {pc : CallPc} {s s' : State} {o : Outcome}
    (hs : Alone dest disk₀ b pc s) (h : step dest s (.step 0 o) = some s') :
    ∃ pc', Alone dest disk₀ b pc' s' := by
  have hi₀ : s.calls[0]? = some ⟨.bytes b, pc⟩ := by simp [hs.calls]
  have hne : pc.staging ≠ some dest := fun hp => hs.staging.ne_dest hi₀ hp rfl
  cases step_disk h with
  | same ha heq => exact absurd rfl (ha 0 o)
  | stepped hi hstep hi' =>
    rename_i c pc'
    obtain rfl := Option.some.inj (hi₀.symm.trans hi)
    refine ⟨pc', hs.staging.step h, ?_, ?_, ?_, ?_⟩
    · obtain ⟨c', hc', hrest⟩ := Option.bind_eq_some_iff.mp h
      obtain ⟨⟨disk, pc''⟩, -, hrest⟩ := Option.map_eq_some_iff.mp hrest
      rw [← hrest, hs.calls] at hi' ⊢
      simpa using hi'
    · intro b' hb'
      rcases hstep.bytes hb' with hb | ⟨-, hsrc⟩ | ⟨t, src, -, -, hsrc, -⟩
      · exact hs.bytes b' hb
      · exact (Source.bytes.inj hsrc).symm
      · cases hsrc
    · intro hpc'
      obtain ⟨hpc, hsame⟩ := hstep.pending hne hpc'
      exact hsame.trans (hs.pending hpc)
    · intro hpc'
      rcases hstep.installed hne hpc' with hpc | ⟨t, b', rfl, rfl, hdisk⟩
      · rcases hstep.installs hne with hsame | ⟨t, b', rfl, -, -, -⟩
        · exact hsame.trans (hs.installed hpc)
        · cases hpc
      · rw [hdisk, (hs.staging.content 0 _ hi₀).2, hs.bytes b' rfl]

/-- What the server takes as one step: a call of `atomic_write` that runs to its end. -/
theorem alone_execFile {dataDir : String} {p : DataPath} {b : Bytes} {w : World} {disk : Disk}
    {os : List Outcome} {s : State} {r : Except String Unit} (hw : w.files = filesOf dataDir disk)
    (h : Runs.run (step (absolute dataDir p)) (.call (atomicWrite b) :: os.map (.step 0))
      (.start disk) = some s) (hr : s.calls = [⟨.bytes b, .returned r⟩]) :
    ∃ f, execFile w (.atomicWrite p b) f =
      some ({ w with files := filesOf dataDir s.disk }, r) := by
  have hclean : Clean (absolute dataDir p) disk s := run_clean h (by simp)
  obtain ⟨m, hm, hrun⟩ := Runs.run_cons_some.mp h
  have hm' : m = ⟨disk, [atomicWrite b]⟩ := (Option.some.inj hm).symm
  have hstart : ∃ pc, Alone (absolute dataDir p) disk b pc m := by
    refine ⟨.stage, (staging_start _ disk).step hm, ?_, ?_, ?_, ?_⟩ <;>
      simp [hm', atomicWrite, CallPc.bytes, CallPc.installed]
  have halone : ∃ pc, Alone (absolute dataDir p) disk b pc s := by
    have hall : ∀ a ∈ os.map (Act.step 0), ∃ o, a = .step 0 o := by simp
    refine (Runs.Along.of_forall hall m).invariant
      (I := fun s => ∃ pc, Alone (absolute dataDir p) disk b pc s) ?_ hrun hstart
    rintro s₁ a s₂ ⟨pc, hs⟩ ⟨o, rfl⟩ hstep
    exact hs.step hstep
  obtain ⟨pc, hs⟩ := halone
  have hpc : pc = .returned r := by
    have hcalls := hs.calls.symm.trans hr
    simpa using hcalls
  subst hpc
  have hother : ∀ q, q ≠ p → filesOf dataDir s.disk q = w.files q := by
    intro q hq
    rw [hw]
    apply hclean.same _ (fun he => hq (absolute_inj he))
    simp [State.inUse, hr, CallPc.staging, CallPc.staged]
  cases r with
  | error e =>
    refine ⟨.ioFails e, ?_⟩
    have hfiles : filesOf dataDir s.disk = w.files := by
      funext q
      by_cases hq : q = p
      · rw [hq, hw]
        exact hs.pending rfl
      · exact hother q hq
    rw [hfiles]
    rfl
  | ok u =>
    refine ⟨.ok, ?_⟩
    have hfiles : filesOf dataDir s.disk = w.files.put p (some b) := by
      funext q
      by_cases hq : q = p
      · rw [hq, Files.put_same]
        exact hs.installed rfl
      · rw [Files.put_other _ _ _ _ hq]
        exact hother q hq
    rw [hfiles]
    rfl

end ZunServer.AtomicWrites
