import Mathlib.Algebra.Order.Floor.Ring
import Mathlib.Data.Int.Log
import Mathlib.Data.Rat.Floor
import Mathlib.Tactic.FieldSimp
import Mathlib.Tactic.Linarith

/-!
# Rounding to a binary floating point format

A number is rounded to the nearest multiple of its last place, of two the even
one. The last place comes from the size of the number and is not smaller than
that of the smallest numbers. There is no largest number: what would overflow
stays as large as it is.
-/
namespace BinaryFloat

/-- The nearest integer, of two the even one. -/
def roundEven (x : ℚ) : ℤ :=
  if Int.fract x < 1 / 2 ∨ (Int.fract x = 1 / 2 ∧ ⌊x⌋ % 2 = 0) then ⌊x⌋ else ⌊x⌋ + 1

theorem abs_roundEven_sub_le (x : ℚ) : |(roundEven x : ℚ) - x| ≤ 1 / 2 := by
  have hfract : x - ⌊x⌋ = Int.fract x := Int.self_sub_floor x
  have hlt := Int.fract_lt_one x
  have hnonneg := Int.fract_nonneg x
  rw [abs_le]
  unfold roundEven
  split
  · rename_i h
    have hhalf : Int.fract x ≤ 1 / 2 := h.elim le_of_lt fun h => h.1.le
    constructor <;> linarith
  · rename_i h
    have hhalf : 1 / 2 ≤ Int.fract x := not_lt.mp fun hx => h (.inl hx)
    push_cast
    constructor <;> linarith

/-- An integer on one side of a number is on that side of what it is rounded to. -/
theorem le_roundEven {x : ℚ} {n : ℤ} (h : (n : ℚ) ≤ x) : n ≤ roundEven x := by
  have hfloor : n ≤ ⌊x⌋ := Int.le_floor.mpr h
  unfold roundEven
  split <;> omega

theorem roundEven_le {x : ℚ} {n : ℤ} (h : x ≤ n) : roundEven x ≤ n := by
  rcases h.lt_or_eq with hlt | rfl
  · have hfloor : ⌊x⌋ < n := Int.floor_lt.mpr hlt
    unfold roundEven
    split <;> omega
  · rw [roundEven, if_pos (.inl (by simp)), Int.floor_intCast]

/-- The digits of a number and the exponent of the smallest. -/
structure Format where
  precision : ℕ
  minExp : ℤ
  precise : 0 < precision
  small : minExp ≤ 1 - precision

def f64 : Format := ⟨53, -1074, by decide, by decide⟩
def f32 : Format := ⟨24, -149, by decide, by decide⟩

namespace Format

variable (F : Format)

/-- The exponent of the last place. -/
def exponent (x : ℚ) : ℤ := max (Int.log 2 |x| + 1 - F.precision) F.minExp

def place (x : ℚ) : ℚ := 2 ^ F.exponent x

def round (x : ℚ) : ℚ := roundEven (x / F.place x) * F.place x

variable {F}

theorem place_pos (x : ℚ) : 0 < F.place x := zpow_pos (by norm_num) _

/-- A multiple of the last place on one side of a number is on that side of what it is
rounded to. -/
theorem le_round {x : ℚ} {n : ℤ} (h : n * F.place x ≤ x) : n * F.place x ≤ F.round x := by
  have hdiv : (n : ℚ) ≤ x / F.place x := (le_div_iff₀ (place_pos x)).mpr h
  exact mul_le_mul_of_nonneg_right (Int.cast_le.mpr (le_roundEven hdiv)) (place_pos x).le

theorem round_le {x : ℚ} {n : ℤ} (h : x ≤ n * F.place x) : F.round x ≤ n * F.place x := by
  have hdiv : x / F.place x ≤ n := (div_le_iff₀ (place_pos x)).mpr h
  exact mul_le_mul_of_nonneg_right (Int.cast_le.mpr (roundEven_le hdiv)) (place_pos x).le

theorem round_nonneg {x : ℚ} (h : 0 ≤ x) : 0 ≤ F.round x := by
  have hzero := le_round (F := F) (x := x) (n := 0) (by simpa using h)
  simpa using hzero

theorem round_nonpos {x : ℚ} (h : x ≤ 0) : F.round x ≤ 0 := by
  have hzero := round_le (F := F) (x := x) (n := 0) (by simpa using h)
  simpa using hzero

@[simp] theorem round_zero : F.round 0 = 0 := by
  simp [round, roundEven]

/-- Up to one the last place is small. -/
theorem exponent_le {x : ℚ} (h : |x| ≤ 1) : F.exponent x ≤ 1 - F.precision := by
  have hlog : Int.log 2 |x| ≤ 0 := by
    rcases (abs_nonneg x).eq_or_lt with hx | hx
    · simp [← hx]
    · exact (Int.log_mono_right hx h).trans_eq (Int.log_one_right 2)
  exact max_le (by omega) F.small

/-- A power of two that is no smaller than the last place is a multiple of it. -/
theorem pow_multiple {x : ℚ} {k : ℤ} (h : F.exponent x ≤ k) :
    ∃ n : ℤ, (2 : ℚ) ^ k = n * F.place x := by
  obtain ⟨m, hm⟩ := Int.eq_ofNat_of_zero_le (Int.sub_nonneg.mpr h)
  refine ⟨2 ^ m, ?_⟩
  have hk : k = m + F.exponent x := by omega
  rw [hk, place, zpow_add₀ two_ne_zero, zpow_natCast]
  push_cast
  rfl

theorem round_le_one {x : ℚ} (hx : 0 ≤ x) (h : x ≤ 1) : F.round x ≤ 1 := by
  have hexp : F.exponent x ≤ 0 := by
    have hle := exponent_le (F := F) (abs_le.mpr ⟨by linarith, h⟩)
    have hprec := F.precise
    omega
  obtain ⟨n, hn⟩ := pow_multiple hexp
  rw [zpow_zero] at hn
  rw [hn] at h ⊢
  exact round_le h

/-- From one on, the power of two below a number is a multiple of its last place. -/
theorem one_le_round {x : ℚ} (h : 1 ≤ x) : 1 ≤ F.round x := by
  have hpos : 0 < x := by linarith
  have hlog : 0 ≤ Int.log 2 x := (Int.log_one_right 2).symm.trans_le (Int.log_mono_right one_pos h)
  have hexp : F.exponent x ≤ Int.log 2 x := by
    have hprec := F.precise
    have hsmall := F.small
    rw [exponent, abs_of_pos hpos]
    exact max_le (by omega) (by omega)
  obtain ⟨n, hn⟩ := pow_multiple hexp
  have hbelow : (2 : ℚ) ^ Int.log 2 x ≤ x := Int.zpow_log_le_self one_lt_two hpos
  calc (1 : ℚ) ≤ 2 ^ Int.log 2 x := one_le_zpow₀ one_le_two hlog
    _ = n * F.place x := hn
    _ ≤ F.round x := le_round (hn ▸ hbelow)

@[simp] theorem round_one : F.round 1 = 1 :=
  le_antisymm (round_le_one zero_le_one le_rfl) (one_le_round le_rfl)

/-- To clamp what was rounded is to round what was clamped. -/
theorem clamp_round (x : ℚ) : max 0 (min 1 (F.round x)) = F.round (max 0 (min 1 x)) := by
  rcases le_total x 0 with hneg | hpos
  · rw [min_eq_right (hneg.trans zero_le_one), max_eq_left hneg,
      min_eq_right ((round_nonpos hneg).trans zero_le_one), max_eq_left (round_nonpos hneg),
      round_zero]
  · rcases le_total x 1 with hle | hge
    · rw [min_eq_right hle, max_eq_right hpos, min_eq_right (round_le_one hpos hle),
        max_eq_right (round_nonneg hpos)]
    · rw [min_eq_left hge, min_eq_left (one_le_round hge), max_eq_right zero_le_one, round_one]

/-- Up to one, rounding moves a number by half of the last place of one at most. -/
theorem abs_round_sub_le {x : ℚ} (hx : 0 ≤ x) (h : x ≤ 1) :
    |F.round x - x| ≤ 1 / 2 ^ F.precision := by
  have hplace : F.place x ≤ 2 / 2 ^ F.precision := by
    have hexp := exponent_le (F := F) (abs_le.mpr ⟨by linarith, h⟩)
    calc F.place x ≤ (2 : ℚ) ^ (1 - F.precision : ℤ) := zpow_le_zpow_right₀ one_le_two hexp
      _ = 2 / 2 ^ F.precision := by rw [zpow_sub₀ two_ne_zero, zpow_one, zpow_natCast]
  have hscale : F.round x - x = (roundEven (x / F.place x) - x / F.place x) * F.place x := by
    have hne := (place_pos (F := F) x).ne'
    rw [round]
    field_simp
  rw [hscale, abs_mul, abs_of_pos (place_pos x)]
  calc |(roundEven (x / F.place x) : ℚ) - x / F.place x| * F.place x
      ≤ 1 / 2 * F.place x :=
        mul_le_mul_of_nonneg_right (abs_roundEven_sub_le _) (place_pos x).le
    _ ≤ 1 / 2 * (2 / 2 ^ F.precision) := by linarith
    _ = 1 / 2 ^ F.precision := by ring

end Format

example : f32.round (f64.round (1 / 3)) = 11184811 / 2 ^ 25 := by decide +kernel

end BinaryFloat
