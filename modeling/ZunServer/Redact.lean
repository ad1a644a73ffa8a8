import Mathlib.Data.List.Infix

/-!
# Redaction of stored error messages

`error::redact_internal`, on the characters of the string. Byte lengths are
UTF-8 lengths, as in the source; `none` is a panic of `String::truncate` at a
byte that is not a character boundary.
-/
namespace ZunServer.Redact

/-- The byte cap of `redact_internal`. -/
def maxLen : Nat := 400

def utf8Len (s : List Char) : Nat := s.foldr (fun c n => c.utf8Size + n) 0

@[simp] theorem utf8Len_nil : utf8Len [] = 0 := rfl
@[simp] theorem utf8Len_cons (c : Char) (cs : List Char) :
    utf8Len (c :: cs) = c.utf8Size + utf8Len cs := rfl

@[simp] theorem utf8Len_append (l m : List Char) : utf8Len (l ++ m) = utf8Len l + utf8Len m := by
  induction l with
  | nil => simp
  | cons c cs ih => simp [ih, Nat.add_assoc]

theorem utf8Len_eq_zero {l : List Char} : utf8Len l = 0 ↔ l = [] := by
  cases l with
  | nil => simp
  | cons c cs => simp [c.utf8Size_pos.ne']

theorem utf8Len_prefix {p l : List Char} (h : p <+: l) : utf8Len p ≤ utf8Len l := by
  obtain ⟨q, rfl⟩ := h
  simp

/-- Of two prefixes of a text the one of fewer bytes is a prefix of the other. -/
theorem prefix_of_utf8Len_le {p q l : List Char} (hp : p <+: l) (hq : q <+: l)
    (h : utf8Len p ≤ utf8Len q) : p <+: q := by
  rcases List.prefix_or_prefix_of_prefix hp hq with hpq | ⟨r, rfl⟩
  · exact hpq
  · rw [utf8Len_append] at h
    obtain rfl : r = [] := utf8Len_eq_zero.mp (by omega)
    simp

/-- `char::is_whitespace`. -/
def isWhitespace (c : Char) : Bool :=
  (0x09 ≤ c.toNat ∧ c.toNat ≤ 0x0d) ∨ c.toNat = 0x20 ∨ c.toNat = 0x85 ∨ c.toNat = 0xa0 ∨
  c.toNat = 0x1680 ∨ (0x2000 ≤ c.toNat ∧ c.toNat ≤ 0x200a) ∨ c.toNat = 0x2028 ∨
  c.toNat = 0x2029 ∨ c.toNat = 0x202f ∨ c.toNat = 0x205f ∨ c.toNat = 0x3000

/-- `str::split_whitespace`: the maximal runs of other characters. `cur` is the
run being read, reversed. -/
def splitWhitespaceFrom (cur : List Char) : List Char → List (List Char)
  | [] => if cur = [] then [] else [cur.reverse]
  | c :: cs =>
    if isWhitespace c then
      if cur = [] then splitWhitespaceFrom [] cs
      else cur.reverse :: splitWhitespaceFrom [] cs
    else splitWhitespaceFrom (c :: cur) cs

def splitWhitespace (s : List Char) : List (List Char) := splitWhitespaceFrom [] s

def isLead (c : Char) : Bool := c ∈ ['(', '[', '{', '"', '\'', '<']

def isTrail (c : Char) : Bool := c ∈ [')', ']', '}', '"', '\'', '>', ',', ';', '.', ':']

def roots : List String :=
  ["/home/", "/tmp/", "/var/", "/usr/", "/opt/", "/etc/", "/root/", "/srv/", "/mnt/", "/data/"]

def isRedactablePath (s : List Char) : Bool := roots.any (fun r => r.toList.isPrefixOf s)

def isRedactableUrl (s : List Char) : Bool :=
  ["http://", "https://", "ws://", "wss://"].any (fun r => r.toList.isPrefixOf s)

def redactToken (tok : List Char) : List Char :=
  let lead := tok.takeWhile isLead
  let rest := tok.dropWhile isLead
  let trail := (rest.reverse.takeWhile isTrail).reverse
  let core := (rest.reverse.dropWhile isTrail).reverse
  if isRedactablePath core then lead ++ "<path>".toList ++ trail
  else if isRedactableUrl core then lead ++ "<url>".toList ++ trail
  else tok

/-- `String::truncate`. -/
def truncate (n : Nat) : List Char → Option (List Char)
  | [] => some []
  | c :: cs =>
    if n = 0 then some []
    else if c.utf8Size ≤ n then (truncate (n - c.utf8Size) cs).map (c :: ·)
    else none

/-- A text of at least `n` bytes is cut to its prefix of `n` bytes, if there is one. -/
theorem truncate_eq_some {n : Nat} {l p : List Char} (hn : n ≤ utf8Len l) :
    truncate n l = some p ↔ p <+: l ∧ utf8Len p = n := by
  induction l generalizing n p with
  | nil =>
    obtain rfl : n = 0 := by simpa using hn
    cases p <;> simp [truncate]
  | cons c cs ih =>
    have hpos := c.utf8Size_pos
    unfold truncate
    split
    · rename_i hzero
      subst hzero
      rw [utf8Len_eq_zero]
      constructor
      · rintro ⟨⟩
        simp
      · rintro ⟨-, rfl⟩
        rfl
    · rename_i hne
      cases p with
      | nil =>
        split <;> simp [Ne.symm hne]
      | cons d p =>
        rw [List.cons_prefix_cons]
        split
        · rename_i hle
          have hrest : n - c.utf8Size ≤ utf8Len cs := by
            rw [utf8Len_cons] at hn
            omega
          simp only [Option.map_eq_some_iff, ih hrest, List.cons.injEq, utf8Len_cons]
          constructor
          · rintro ⟨q, ⟨hq, hlen⟩, rfl, rfl⟩
            exact ⟨⟨rfl, hq⟩, by omega⟩
          · rintro ⟨⟨rfl, hq⟩, hlen⟩
            exact ⟨p, ⟨hq, by omega⟩, rfl, rfl⟩
        · rename_i hle
          simp only [reduceCtorEq, false_iff, utf8Len_cons, not_and]
          rintro ⟨rfl, -⟩
          omega

/-- The cut looks no further than the bytes it keeps. -/
theorem truncate_append {n : Nat} {l : List Char} (hn : n ≤ utf8Len l) (m : List Char) :
    truncate n (l ++ m) = truncate n l := by
  induction l generalizing n with
  | nil =>
    obtain rfl : n = 0 := by simpa using hn
    cases m <;> simp [truncate]
  | cons c cs ih =>
    rw [List.cons_append]
    unfold truncate
    split
    · rfl
    · split
      · rw [ih (by rw [utf8Len_cons] at hn; omega)]
      · rfl

/-- The token loop; `out` is the output so far, without the separating blank. -/
def redactLoop (out : List Char) (first : Bool) : List (List Char) → Option (List Char)
  | [] => some out
  | tok :: toks =>
    let out := (if first then out else out ++ [' ']) ++ redactToken tok
    if maxLen ≤ utf8Len out then (truncate maxLen out).map (· ++ ['…'])
    else redactLoop out false toks

def redactInternal (s : String) : Option String :=
  (redactLoop [] true (splitWhitespace s.toList)).map String.ofList

example : redactInternal "read (/tmp/foo.jpg): denied" = some "read (<path>): denied" := by decide

end ZunServer.Redact
