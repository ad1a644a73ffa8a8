import Mathlib.Data.List.TakeWhile
import ZunServer.Worker

/-!
# What redaction keeps and what it hides

`redact_internal` is one cut of the redacted tokens joined by blanks. Where the
cut falls, which text it lets through and what it does not depend on.
-/
namespace ZunServer.Redaction

open Redact

def joined : List (List Char) → List Char
  | [] => []
  | tok :: toks => redactToken tok ++ toks.flatMap fun t => ' ' :: redactToken t

/-- The tokens as they are stored, one blank between any two, before the cut. -/
def redacted (s : String) : List Char := joined (splitWhitespace s.toList)

def cut (l : List Char) : Option (List Char) :=
  if utf8Len l < maxLen then some l else (truncate maxLen l).map (· ++ ['…'])

theorem joined_map (toks : List (List Char)) :
    joined toks = [' '].intercalate (toks.map redactToken) := by
  cases toks with
  | nil => rfl
  | cons tok toks =>
    induction toks generalizing tok with
    | nil => simp [joined]
    | cons next toks ih => simpa [joined] using ih next

theorem cut_append {l : List Char} (h : maxLen ≤ utf8Len l) (m : List Char) :
    cut (l ++ m) = (truncate maxLen l).map (· ++ ['…']) := by
  have hlong : ¬ utf8Len (l ++ m) < maxLen := by
    rw [utf8Len_append]
    omega
  rw [cut, if_neg hlong, truncate_append h]

/-- From the second token on, the loop appends what is left and cuts once. -/
theorem redactLoop_rest {out : List Char} (h : utf8Len out < maxLen) (toks : List (List Char)) :
    redactLoop out false toks = cut (out ++ toks.flatMap fun t => ' ' :: redactToken t) := by
  induction toks generalizing out with
  | nil => simp [redactLoop, cut, h]
  | cons tok toks ih =>
    have hsplit : out ++ (tok :: toks).flatMap (fun t => ' ' :: redactToken t) =
        (out ++ [' '] ++ redactToken tok) ++ toks.flatMap fun t => ' ' :: redactToken t := by simp
    rw [hsplit]
    simp only [redactLoop, Bool.false_eq_true, ↓reduceIte]
    split
    · rename_i hlong
      rw [cut_append hlong]
    · rename_i hshort
      exact ih (by omega)

theorem redactInternal_eq (s : String) :
    redactInternal s = (cut (redacted s)).map String.ofList := by
  have hloop : redactLoop [] true (splitWhitespace s.toList) = cut (redacted s) := by
    unfold redacted
    cases splitWhitespace s.toList with
    | nil => rfl
    | cons tok toks =>
      simp only [redactLoop, joined, ↓reduceIte, List.nil_append]
      split
      · rename_i hlong
        rw [cut_append hlong]
      · rename_i hshort
        exact redactLoop_rest (by omega) toks
  rw [redactInternal, hloop]

theorem redactInternal_ofList (l : List Char) : redactInternal (String.ofList l) =
    (redactLoop [] true (splitWhitespace l)).map String.ofList := by
  rw [redactInternal, String.toList_ofList]

/-- The result is some text kept of the redacted one, of at most `maxLen` bytes,
and an ellipsis behind it exactly when that is not all of it. -/
def Bounded (s : String) : Prop :=
  ∃ kept, kept <+: redacted s ∧ utf8Len kept ≤ maxLen ∧
    redactInternal s = some (String.ofList (if kept = redacted s then kept else kept ++ ['…']))

theorem ofList_inj {l m : List Char} (h : String.ofList l = String.ofList m) : l = m := by
  have hlist := congrArg String.toList h
  simpa only [String.toList_ofList] using hlist

/-- Redaction is so bounded exactly for a redacted text that is shorter than the
cap, or is longer and has a character boundary at the cap. -/
theorem redact_bounded (s : String) :
    Bounded s ↔ utf8Len (redacted s) < maxLen ∨ (maxLen < utf8Len (redacted s) ∧
      ∃ kept, kept <+: redacted s ∧ utf8Len kept = maxLen) := by
  unfold Bounded
  rw [redactInternal_eq]
  by_cases hshort : utf8Len (redacted s) < maxLen
  · refine ⟨fun _ => .inl hshort, fun _ => ⟨redacted s, List.prefix_rfl, hshort.le, ?_⟩⟩
    rw [cut, if_pos hshort, if_pos rfl, Option.map_some]
  · have hlong : maxLen ≤ utf8Len (redacted s) := by omega
    rw [cut, if_neg hshort]
    constructor
    · rintro ⟨kept, hpre, hle, hres⟩
      obtain ⟨l, hl, hres⟩ := Option.map_eq_some_iff.mp hres
      obtain ⟨q, hq, rfl⟩ := Option.map_eq_some_iff.mp hl
      obtain ⟨hq, hlen⟩ := (truncate_eq_some hlong).mp hq
      have hres := ofList_inj hres
      split at hres
      · -- the ellipsis cannot be part of what was kept: it would not fit
        have hsize := congrArg utf8Len hres
        rw [utf8Len_append] at hsize
        have hdots : utf8Len ['…'] = 3 := by decide
        omega
      · rename_i hne
        obtain rfl := List.append_cancel_right hres
        refine .inr ⟨lt_of_le_of_ne hlong fun he => hne ?_, q, hq, hlen⟩
        have hback := prefix_of_utf8Len_le List.prefix_rfl hq (by omega)
        exact hq.eq_of_length_le hback.length_le
    · rintro (h | ⟨hlt, kept, hpre, hlen⟩)
      · exact absurd h hshort
      · have hcut : truncate maxLen (redacted s) = some kept :=
          (truncate_eq_some hlong).mpr ⟨hpre, hlen⟩
        have hne : kept ≠ redacted s := by
          rintro rfl
          omega
        refine ⟨kept, hpre, hlen.le, ?_⟩
        rw [hcut, if_neg hne]
        rfl

/-- An error text whose byte 400 is the second half of a character. -/
def accented : String := String.ofList ('a' :: List.replicate 200 'é')

theorem redact_panics : redactInternal accented = none ∧ ¬ Bounded accented := by
  have hloop : redactLoop [] true (splitWhitespace ('a' :: List.replicate 200 'é')) = none := by
    decide +kernel
  have hnone : redactInternal accented = none := (redactInternal_ofList _).trans (by rw [hloop]; rfl)
  refine ⟨hnone, ?_⟩
  rintro ⟨kept, -, -, h⟩
  rw [hnone] at h
  cases h

/-- The worker dies of an error that is not about ComfyUI being away exactly if
its text is long and has no character boundary at the cap. -/
theorem errorArm_panics {job : Database.QueuedJob} {e : Calls.AnyError}
    (he : e.unreachable = false) :
    Worker.errorArm job e = .panicked job ↔ maxLen ≤ utf8Len (redacted e.chain) ∧
      ∀ kept, kept <+: redacted e.chain → utf8Len kept ≠ maxLen := by
  have hnone : redactInternal e.chain = none ↔ maxLen ≤ utf8Len (redacted e.chain) ∧
      ∀ kept, kept <+: redacted e.chain → utf8Len kept ≠ maxLen := by
    rw [redactInternal_eq, Option.map_eq_none_iff, cut]
    split
    · rename_i hshort
      exact iff_of_false (by simp) fun h => absurd h.1 (by omega)
    · rename_i hlong
      rw [Option.map_eq_none_iff, Option.eq_none_iff_forall_ne_some]
      simp only [ne_eq, truncate_eq_some (Nat.le_of_not_lt hlong), not_and, Nat.le_of_not_lt hlong,
        true_and]
  rw [← hnone]
  unfold Worker.errorArm
  simp only [he, Bool.false_eq_true, ↓reduceIte]
  cases redactInternal e.chain <;> simp

theorem prefixes_head {p : Char → Prop} {pres : List String} {l : List Char}
    (hpres : ∀ r ∈ pres, ∃ c cs, r.toList = c :: cs ∧ p c)
    (h : pres.any (fun r => r.toList.isPrefixOf l) = true) : ∃ c cs, l = c :: cs ∧ p c := by
  obtain ⟨r, hr, hpre⟩ := List.any_eq_true.mp h
  obtain ⟨c, cs, hc, hp⟩ := hpres r hr
  obtain ⟨rest, rfl⟩ := List.isPrefixOf_iff_prefix.mp hpre
  exact ⟨c, cs ++ rest, by rw [hc, List.cons_append], hp⟩

theorem path_head {core : List Char} (h : isRedactablePath core = true) :
    ∃ cs, core = '/' :: cs := by
  have hroots : ∀ r ∈ roots, ∃ c cs, r.toList = c :: cs ∧ c = '/' := by
    intro r hr
    simp only [roots, List.mem_cons, List.not_mem_nil, or_false] at hr
    rcases hr with rfl | rfl | rfl | rfl | rfl | rfl | rfl | rfl | rfl | rfl <;>
      exact ⟨_, _, rfl, rfl⟩
  obtain ⟨c, cs, hc, rfl⟩ := prefixes_head hroots h
  exact ⟨cs, hc⟩

theorem url_head {core : List Char} (h : isRedactableUrl core = true) :
    ∃ c cs, core = c :: cs ∧ (c = 'h' ∨ c = 'w') := by
  refine prefixes_head (fun r hr => ?_) h
  simp only [List.mem_cons, List.not_mem_nil, or_false] at hr
  rcases hr with rfl | rfl | rfl | rfl <;> exact ⟨_, _, rfl, by decide⟩

/-- What stands for a core of one of the two kinds. -/
inductive Kind (core : List Char) : List Char → Prop
  | path (h : isRedactablePath core = true) : Kind core "<path>".toList
  | url (h : isRedactableUrl core = true) : Kind core "<url>".toList

theorem Kind.head {core sign : List Char} (h : Kind core sign) :
    ∃ c cs, core = c :: cs ∧ isLead c = false := by
  cases h with
  | path h =>
    obtain ⟨cs, hc⟩ := path_head h
    exact ⟨_, cs, hc, by decide⟩
  | url h =>
    obtain ⟨c, cs, hc, rfl | rfl⟩ := url_head h
    · exact ⟨_, cs, hc, by decide⟩
    · exact ⟨_, cs, hc, by decide⟩

theorem Kind.not_path {core : List Char} (h : isRedactableUrl core = true) :
    isRedactablePath core = false := by
  obtain ⟨c, cs, rfl, hc⟩ := url_head h
  by_contra hpath
  obtain ⟨cs', he⟩ := path_head (Bool.eq_true_of_not_eq_false hpath)
  obtain ⟨rfl, -⟩ := List.cons.inj he
  rcases hc with hc | hc <;> cases hc

/-- A token whose core is redacted: the brackets and the punctuation around it stay. -/
theorem redactToken_kind {lead core trail sign : List Char} (hlead : ∀ c ∈ lead, isLead c = true)
    (htrail : ∀ c ∈ trail, isTrail c = true) (hend : ∀ c ∈ core.getLast?, isTrail c = false)
    (h : Kind core sign) : redactToken (lead ++ core ++ trail) = lead ++ sign ++ trail := by
  obtain ⟨c, cs, hc, hhead⟩ := h.head
  have hstop : (core ++ trail).takeWhile isLead = [] ∧
      (core ++ trail).dropWhile isLead = core ++ trail := by simp [hc, hhead]
  have hback : (core ++ trail).reverse = trail.reverse ++ core.reverse := List.reverse_append
  have hall : ∀ c ∈ trail.reverse, isTrail c = true := fun c hc => htrail c (List.mem_reverse.mp hc)
  have hlast : core.reverse.takeWhile isTrail = [] ∧
      core.reverse.dropWhile isTrail = core.reverse := by
    rw [List.getLast?_eq_head?_reverse] at hend
    cases hrev : core.reverse with
    | nil => simp
    | cons d ds =>
      rw [hrev] at hend
      have hd : isTrail d = false := hend d rfl
      simp [hd]
  unfold redactToken
  dsimp only
  rw [List.append_assoc, List.takeWhile_append_of_pos hlead, List.dropWhile_append_of_pos hlead,
    hstop.1, hstop.2, hback, List.takeWhile_append_of_pos hall, List.dropWhile_append_of_pos hall,
    hlast.1, hlast.2]
  simp only [List.append_nil, List.reverse_reverse]
  cases h with
  | path h => rw [if_pos h]
  | url h => rw [if_neg (by simp [Kind.not_path h]), if_pos h]

/-- Two tokens that differ at most in a secret of one kind. -/
inductive Twin : List Char → List Char → Prop
  | same (tok : List Char) : Twin tok tok
  | secret {lead core core' trail sign : List Char} (hlead : ∀ c ∈ lead, isLead c = true)
      (htrail : ∀ c ∈ trail, isTrail c = true) (hcore : Kind core sign) (hcore' : Kind core' sign)
      (hend : ∀ c ∈ core.getLast?, isTrail c = false)
      (hend' : ∀ c ∈ core'.getLast?, isTrail c = false) :
      Twin (lead ++ core ++ trail) (lead ++ core' ++ trail)

theorem Twin.redacted {tok tok' : List Char} (h : Twin tok tok') :
    redactToken tok = redactToken tok' := by
  cases h with
  | same => rfl
  | secret hlead htrail hcore hcore' hend hend' =>
    rw [redactToken_kind hlead htrail hend hcore, redactToken_kind hlead htrail hend' hcore']

theorem twins_map {toks toks' : List (List Char)} (h : List.Forall₂ Twin toks toks') :
    toks.map redactToken = toks'.map redactToken := by
  induction h with
  | nil => rfl
  | cons hhead _ ih => rw [List.map_cons, List.map_cons, hhead.redacted, ih]

/-- Of a secret nothing but its kind reaches the result, nor whether there is one. -/
theorem redact_twins {s s' : String}
    (h : List.Forall₂ Twin (splitWhitespace s.toList) (splitWhitespace s'.toList)) :
    redactInternal s = redactInternal s' := by
  rw [redactInternal_eq, redactInternal_eq, redacted, redacted, joined_map, joined_map,
    twins_map h]

theorem redact_twins_sample :
    redactInternal "open (/tmp/a): denied" = redactInternal "open (/home/u/secret): denied" := by
  have hleft : splitWhitespace "open (/tmp/a): denied".toList =
      ["open".toList, "(".toList ++ "/tmp/a".toList ++ "):".toList, "denied".toList] := by decide
  have hright : splitWhitespace "open (/home/u/secret): denied".toList =
      ["open".toList, "(".toList ++ "/home/u/secret".toList ++ "):".toList, "denied".toList] := by
    decide
  refine redact_twins ?_
  rw [hleft, hright]
  refine .cons (.same _) (.cons ?_ (.cons (.same _) .nil))
  exact .secret (List.all_eq_true.mp (by decide)) (List.all_eq_true.mp (by decide))
    (.path (by decide)) (.path (by decide)) ((Option.any_eq_false _ _).mp (by decide))
    ((Option.any_eq_false _ _).mp (by decide))

def schemes : List String := ["http://", "https://", "ws://", "wss://"]

/-- Which characters are letters and digits; of the ASCII ones that is fixed. -/
structure Alphabet where
  alphanumeric : Char → Bool
  ascii : ∀ c, c.toNat < 128 → alphanumeric c = c.isAlphanum

def Alphabet.latin : Alphabet := ⟨Char.isAlphanum, fun _ _ => rfl⟩

/-- What may stand in front of a `/` inside a path or a word. -/
def nameChar (alpha : Alphabet) (c : Char) : Bool :=
  alpha.alphanumeric c ∨ c ∈ ['.', '_', '-', '/']

theorem nameChar_ascii (alpha : Alphabet) {c : Char} (h : c.toNat < 128) :
    nameChar alpha c = nameChar .latin c := by
  rw [nameChar, nameChar, alpha.ascii c h]
  rfl

/-- `r` begins a URL, or behind `a` an absolute path under a known root. -/
def Secret (alpha : Alphabet) (a r : List Char) : Prop :=
  (∃ scheme ∈ schemes, r = scheme.toList) ∨
    (∃ root ∈ roots, r = root.toList) ∧ ∀ c ∈ a.getLast?, nameChar alpha c = false

def Exposed (alpha : Alphabet) (l : List Char) : Prop :=
  ∃ a r b, l = a ++ r ++ b ∧ Secret alpha a r

/-- A token is the brackets in front of it, a core and the punctuation behind it. -/
def lead (tok : List Char) : List Char := tok.takeWhile isLead
def trail (tok : List Char) : List Char :=
  ((tok.dropWhile isLead).reverse.takeWhile isTrail).reverse
def core (tok : List Char) : List Char :=
  ((tok.dropWhile isLead).reverse.dropWhile isTrail).reverse

def Redactable (tok : List Char) : Prop :=
  isRedactablePath (core tok) = true ∨ isRedactableUrl (core tok) = true

instance (tok : List Char) : Decidable (Redactable tok) :=
  inferInstanceAs (Decidable (_ ∨ _))

/-- The bytes a token takes where a core that is a path counts for six and one that is a URL
for five. -/
def width (tok : List Char) : Nat :=
  if isRedactablePath (core tok) then utf8Len (lead tok) + 6 + utf8Len (trail tok)
  else if isRedactableUrl (core tok) then utf8Len (lead tok) + 5 + utf8Len (trail tok)
  else utf8Len tok

/-- In a token whose core is neither a path nor a URL, a secret ends only where the bytes that
are kept have run out. -/
def Covered (alpha : Alphabet) (s : String) : Prop :=
  ∀ pre tok post a r b, splitWhitespace s.toList = pre ++ tok :: post → ¬ Redactable tok →
    tok = a ++ r ++ b → Secret alpha a r →
    maxLen < (pre.map fun t => width t + 1).sum + utf8Len a + utf8Len r

theorem redactToken_eq (tok : List Char) : redactToken tok =
    if isRedactablePath (core tok) then lead tok ++ "<path>".toList ++ trail tok
    else if isRedactableUrl (core tok) then lead tok ++ "<url>".toList ++ trail tok
    else tok := rfl

theorem utf8Len_redactToken (tok : List Char) : utf8Len (redactToken tok) = width tok := by
  have hpath : utf8Len "<path>".toList = 6 := by decide
  have hurl : utf8Len "<url>".toList = 5 := by decide
  rw [redactToken_eq, width]
  split
  · rw [utf8Len_append, utf8Len_append, hpath]
  · split
    · rw [utf8Len_append, utf8Len_append, hurl]
    · rfl

theorem utf8Len_shown (toks : List (List Char)) :
    utf8Len (toks.flatMap fun t => redactToken t ++ [' ']) =
      (toks.map fun t => width t + 1).sum := by
  have hblank : utf8Len [' '] = 1 := by decide
  induction toks with
  | nil => rfl
  | cons tok toks ih =>
    rw [List.flatMap_cons, utf8Len_append, utf8Len_append, utf8Len_redactToken, hblank, ih,
      List.map_cons, List.sum_cons]

theorem Secret.chars {alpha : Alphabet} {a r : List Char} (h : Secret alpha a r) :
    ' ' ∉ r ∧ '…' ∉ r ∧ '/' ∈ r := by
  have hlist : ∀ w ∈ schemes ++ roots, ' ' ∉ w.toList ∧ '…' ∉ w.toList ∧ '/' ∈ w.toList := by
    decide
  rcases h with ⟨w, hw, rfl⟩ | ⟨⟨w, hw, rfl⟩, -⟩
  · exact hlist w (List.mem_append_left _ hw)
  · exact hlist w (List.mem_append_right _ hw)

/-- A blank in front is no better than the start of the text. -/
theorem secret_behind {alpha : Alphabet} {before a r : List Char}
    (hbefore : ∀ c ∈ before.getLast?, c = ' ') :
    Secret alpha (before ++ a) r ↔ Secret alpha a r := by
  have hlast : (∀ c ∈ (before ++ a).getLast?, nameChar alpha c = false) ↔
      ∀ c ∈ a.getLast?, nameChar alpha c = false := by
    cases a using List.reverseRecOn with
    | nil =>
      rw [List.append_nil]
      refine iff_of_true (fun c hc => ?_) (by simp)
      rw [hbefore c hc, nameChar_ascii alpha (by decide)]
      decide
    | append_singleton a c => rw [← List.append_assoc, List.getLast?_concat, List.getLast?_concat]
  unfold Secret
  rw [hlast]

theorem flatMap_blank (ts : List (List Char)) :
    ∀ c ∈ (ts.flatMap fun t => redactToken t ++ [' ']).getLast?, c = ' ' := by
  cases ts using List.reverseRecOn with
  | nil => simp
  | append_singleton ts t => simp [← List.append_assoc]

/-- Words that are each followed by a blank: what has no blank in it stands in one word. -/
theorem word_of_infix {ts : List (List Char)} {a r b : List Char}
    (h : ts.flatMap (fun t => t ++ [' ']) = a ++ r ++ b) (hr : ' ' ∉ r) (hne : r ≠ []) :
    ∃ pre t post a' b', ts = pre ++ t :: post ∧ t = a' ++ r ++ b' ∧
      a = pre.flatMap (fun t => t ++ [' ']) ++ a' := by
  induction ts generalizing a with
  | nil =>
    have hnil : r = [] := by simp_all
    exact absurd hnil hne
  | cons t ts ih =>
    rw [List.flatMap_cons, List.append_assoc a] at h
    rcases List.append_eq_append_iff.mp h with ⟨c, rfl, hrest⟩ | ⟨c, ht, hrest⟩
    · obtain ⟨pre, t', post, a', b', rfl, ht', rfl⟩ := ih (a := c) (by rw [hrest, List.append_assoc])
      exact ⟨t :: pre, t', post, a', b', rfl, ht', by simp⟩
    · -- `c` is what of the word and its blank lies behind `a`
      rcases List.append_eq_append_iff.mp hrest with ⟨d, rfl, -⟩ | ⟨d, rfl, hb⟩
      · cases d using List.reverseRecOn with
        | nil =>
          rw [List.append_nil] at ht
          have hblank : ' ' ∈ r := by
            have hlast := congrArg List.getLast? ht
            rw [List.getLast?_concat, List.getLast?_append_of_ne_nil a hne] at hlast
            exact List.mem_of_getLast? hlast.symm
          exact absurd hblank hr
        | append_singleton d x =>
          rw [← List.append_assoc, ← List.append_assoc] at ht
          obtain ⟨ht, -⟩ := List.append_inj' ht rfl
          exact ⟨[], t, ts, a, d, rfl, ht, by simp⟩
      · cases c using List.reverseRecOn with
        | nil =>
          rw [List.append_nil] at ht
          obtain ⟨pre, t', post, a', b', rfl, ht', ha⟩ := ih (a := []) (by simpa using hb)
          exact ⟨t :: pre, t', post, a', b', rfl, ht', by
            rw [List.flatMap_cons, List.append_assoc, ← ha, ht, List.append_nil]⟩
        | append_singleton c x =>
          rw [← List.append_assoc] at ht
          obtain ⟨-, hx⟩ := List.append_inj' ht rfl
          obtain rfl := List.singleton_inj.mp hx
          exact absurd (by simp) hr

/-- A token whose core is a path or a URL has no `/` left. -/
theorem Redactable.hidden {tok : List Char} (h : Redactable tok) : '/' ∉ redactToken tok := by
  have hlead : '/' ∉ lead tok := fun hm => absurd (List.mem_takeWhile_imp hm) (by decide)
  have htrail : '/' ∉ trail tok := fun hm =>
    absurd (List.mem_takeWhile_imp (List.mem_reverse.mp hm)) (by decide)
  have hsign : ∀ sign : List Char, '/' ∉ sign → '/' ∉ lead tok ++ sign ++ trail tok := by
    intro sign hs hm
    rw [List.mem_append, List.mem_append] at hm
    exact hm.elim (fun hm => hm.elim hlead hs) htrail
  rw [redactToken_eq]
  split
  · exact hsign _ (by decide)
  · rename_i hpath
    rw [if_pos (h.resolve_left hpath)]
    exact hsign _ (by decide)

theorem redactToken_shown {tok : List Char} (h : ¬ Redactable tok) : redactToken tok = tok := by
  obtain ⟨hpath, hurl⟩ := not_or.mp h
  rw [redactToken_eq, if_neg hpath, if_neg hurl]

theorem joined_blank {toks : List (List Char)} (h : toks ≠ []) :
    joined toks ++ [' '] = toks.flatMap fun t => redactToken t ++ [' '] := by
  cases toks with
  | nil => exact absurd rfl h
  | cons tok toks =>
    induction toks generalizing tok with
    | nil => simp [joined]
    | cons next toks ih => simpa [joined] using ih next (by simp)

/-- A secret in the joined tokens is one in a token that is stored as it is. -/
theorem secret_joined {alpha : Alphabet} {toks : List (List Char)} {a r : List Char}
    (hsec : Secret alpha a r) (h : a ++ r <+: joined toks) :
    ∃ pre tok post a' b, toks = pre ++ tok :: post ∧ ¬ Redactable tok ∧ tok = a' ++ r ++ b ∧
      Secret alpha a' r ∧ a = pre.flatMap (fun t => redactToken t ++ [' ']) ++ a' := by
  obtain ⟨hblank, -, hslash⟩ := hsec.chars
  obtain ⟨b, hb⟩ := h
  have hne : toks ≠ [] := by
    rintro rfl
    have hr : a ++ r = [] := (List.append_eq_nil_iff.mp hb).1
    rw [(List.append_eq_nil_iff.mp hr).2] at hslash
    cases hslash
  have hflat : (toks.map redactToken).flatMap (fun t => t ++ [' ']) = a ++ r ++ (b ++ [' ']) := by
    rw [List.flatMap_map, ← joined_blank hne, ← hb, List.append_assoc (a ++ r)]
  obtain ⟨pre, t, post, a', b', hsplit, ht, rfl⟩ :=
    word_of_infix hflat hblank (List.ne_nil_of_mem hslash)
  obtain ⟨pre, rest, rfl, rfl, hrest⟩ := List.map_eq_append_iff.mp hsplit
  obtain ⟨tok, post, rfl, rfl, -⟩ := List.map_eq_cons_iff.mp hrest
  rw [List.flatMap_map] at hsec ⊢
  have hbehind : Secret alpha a' r := (secret_behind (flatMap_blank _)).mp hsec
  have hshown : ¬ Redactable tok := by
    intro hred
    apply hred.hidden
    rw [ht]
    simp [hslash]
  exact ⟨pre, tok, post, a', b', rfl, hshown, redactToken_shown hshown ▸ ht, hbehind, rfl⟩

theorem token_prefix (pre : List (List Char)) (tok : List Char) (post : List (List Char)) :
    pre.flatMap (fun t => redactToken t ++ [' ']) ++ redactToken tok <+:
      joined (pre ++ tok :: post) := by
  obtain ⟨q, hq⟩ : ∃ q, [' '] ++ post.flatMap (fun t => redactToken t ++ [' ']) = q ++ [' '] := by
    cases post using List.reverseRecOn with
    | nil => exact ⟨[], rfl⟩
    | append_singleton post t =>
      refine ⟨[' '] ++ post.flatMap (fun t => redactToken t ++ [' ']) ++ redactToken t, ?_⟩
      simp
  have hblank : joined (pre ++ tok :: post) ++ [' '] =
      pre.flatMap (fun t => redactToken t ++ [' ']) ++ redactToken tok ++ q ++ [' '] := by
    rw [joined_blank (by simp), List.append_assoc _ q, ← hq]
    simp
  exact ⟨q, (List.append_cancel_right hblank).symm⟩

/-- What comes out is the part of the redacted text that fits, with an ellipsis perhaps. -/
theorem result_kept {s out : String} (h : redactInternal s = some out) :
    ∃ kept, (out.toList = kept ∨ out.toList = kept ++ ['…']) ∧
      ∀ x, x <+: kept ↔ x <+: redacted s ∧ utf8Len x ≤ maxLen := by
  rw [redactInternal_eq] at h
  obtain ⟨l, hl, rfl⟩ := Option.map_eq_some_iff.mp h
  rw [String.toList_ofList]
  unfold cut at hl
  split at hl
  · rename_i hshort
    obtain rfl := Option.some.inj hl
    refine ⟨_, .inl rfl, fun x => ⟨fun hx => ⟨hx, ?_⟩, fun hx => hx.1⟩⟩
    have hle := utf8Len_prefix hx
    omega
  · rename_i hlong
    obtain ⟨kept, hk, rfl⟩ := Option.map_eq_some_iff.mp hl
    obtain ⟨hkept, hlen⟩ := (truncate_eq_some (by omega)).mp hk
    refine ⟨kept, .inr rfl, fun x => ⟨fun hx => ⟨hx.trans hkept, ?_⟩, fun ⟨hx, hle⟩ => ?_⟩⟩
    · exact hlen ▸ utf8Len_prefix hx
    · exact prefix_of_utf8Len_le hx hkept (by omega)

theorem exposed_iff {alpha : Alphabet} {kept l : List Char} (h : l = kept ∨ l = kept ++ ['…']) :
    Exposed alpha l ↔ ∃ a r, a ++ r <+: kept ∧ Secret alpha a r := by
  constructor
  · rintro ⟨a, r, b, hl, hsec⟩
    obtain ⟨-, hdots, hslash⟩ := hsec.chars
    have hpre : a ++ r <+: l := ⟨b, hl.symm⟩
    refine ⟨a, r, ?_, hsec⟩
    rcases h with rfl | rfl
    · exact hpre
    · rcases List.prefix_concat_iff.mp hpre with he | hpre
      · -- the whole of it would end in the ellipsis
        have hlast := congrArg List.getLast? he
        rw [List.getLast?_append_of_ne_nil a (List.ne_nil_of_mem hslash),
          List.getLast?_concat] at hlast
        exact absurd (List.mem_of_getLast? hlast) hdots
      · exact hpre
  · rintro ⟨a, r, ⟨b, rfl⟩, hsec⟩
    rcases h with rfl | rfl
    · exact ⟨a, r, b, rfl, hsec⟩
    · exact ⟨a, r, b ++ ['…'], by simp, hsec⟩

/-- No URL and no path gets through exactly when the tokens whose core is neither have none in
what is kept of them. -/
theorem redact_hides (alpha : Alphabet) {s out : String} (h : redactInternal s = some out) :
    ¬ Exposed alpha out.toList ↔ Covered alpha s := by
  obtain ⟨kept, hout, hkept⟩ := result_kept h
  rw [exposed_iff hout]
  constructor
  · rintro hno pre tok post a r b htoks hshown rfl hsec
    by_contra hfits
    have hsec' : Secret alpha (pre.flatMap (fun t => redactToken t ++ [' ']) ++ a) r :=
      (secret_behind (flatMap_blank pre)).mpr hsec
    have hpre := token_prefix pre (a ++ r ++ b) post
    rw [redactToken_shown hshown, ← htoks, ← List.append_assoc, ← List.append_assoc] at hpre
    refine hno ⟨_, r, (hkept _).mpr ⟨(List.prefix_append _ b).trans hpre, ?_⟩, hsec'⟩
    rw [utf8Len_append, utf8Len_append, utf8Len_shown]
    omega
  · rintro hcov ⟨a, r, hpre, hsec⟩
    obtain ⟨hpre, hle⟩ := (hkept _).mp hpre
    obtain ⟨pre, tok, post, a', b, htoks, hshown, htok, hsec', rfl⟩ := secret_joined hsec hpre
    have hout := hcov pre tok post a' r b htoks hshown htok hsec'
    rw [utf8Len_append, utf8Len_append, utf8Len_shown] at hle
    omega

theorem redact_hides_sample : ∃ out, redactInternal "read (/tmp/foo.jpg): denied" = some out ∧
    ∀ alpha, ¬ Exposed alpha out.toList := by
  have hout : redactInternal "read (/tmp/foo.jpg): denied" = some "read (<path>): denied" := by
    decide
  have hall : ∀ t ∈ splitWhitespace "read (/tmp/foo.jpg): denied".toList,
      ¬ Redactable t → '/' ∉ t := by decide
  refine ⟨_, hout, fun alpha => (redact_hides alpha hout).mpr ?_⟩
  intro pre tok post a r b htoks hshown htok hsec
  have hmem : tok ∈ splitWhitespace "read (/tmp/foo.jpg): denied".toList := by
    rw [htoks]
    exact List.mem_append_right pre List.mem_cons_self
  refine absurd ?_ (hall tok hmem hshown)
  rw [htok]
  simp [hsec.chars.2.2]

/-- The `execution_error` of ComfyUI quotes a path inside its JSON. -/
def traceback : String := "comfyui execution_error: " ++
  "\x7b\"traceback\":[\"File \\\"/home/u/ComfyUI/execution.py\\\", line 1\"]\x7d"

theorem path_shown : redactInternal traceback = some traceback ∧
    ∀ alpha, Exposed alpha traceback.toList := by
  refine ⟨by decide +kernel, fun alpha =>
    ⟨"comfyui execution_error: \x7b\"traceback\":[\"File \\\"".toList, "/home/".toList,
      "u/ComfyUI/execution.py\\\", line 1\"]\x7d".toList, by decide +kernel,
      .inr ⟨⟨"/home/", by decide, rfl⟩, fun c hc => ?_⟩⟩⟩
  have hquote : c = '"' := by
    have hlast : "comfyui execution_error: \x7b\"traceback\":[\"File \\\"".toList.getLast? =
        some '"' := by decide
    exact (Option.some.inj (hlast.symm.trans hc)).symm
  rw [hquote, nameChar_ascii alpha (by decide)]
  decide

end ZunServer.Redaction
