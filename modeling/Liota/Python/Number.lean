import Mathlib.Algebra.Order.Floor.Defs
import Mathlib.Data.Rat.Floor
import Mathlib.Order.Iterate
import Mathlib.Tactic.Ring
import Mathlib.Tactic.NormNum
import Mathlib.Tactic.Linarith
import Mathlib.Algebra.Order.Field.Power

namespace Liota.Python

/-- The nearest integer, and the even one of two. -/
def roundEven (q : ℚ) : ℤ :=
  let n := ⌊q⌋
  if q - n < 1 / 2 then n
  else if 1 / 2 < q - n then n + 1
  else if n % 2 = 0 then n else n + 1

def scaleBy (k : ℤ) (q : ℚ) : ℚ := if 0 ≤ k then q * 2 ^ k.toNat else q / 2 ^ (-k).toNat

/-- The `e` with `2 ^ e ≤ |q| < 2 ^ (e + 1)`. -/
def exponent (q : ℚ) : ℤ :=
  let e : ℤ := q.num.natAbs.log2 - q.den.log2
  if |q| < scaleBy e 1 then e - 1 else e

/-- The `float` nearest to a number: 53 binary digits, ties to even. The range of the exponent is
not bounded here. -/
def toFloat (q : ℚ) : ℚ :=
  if q = 0 then 0
  else scaleBy (exponent q - 52) (roundEven (scaleBy (52 - exponent q) q))

theorem abs_roundEven_sub_le (q : ℚ) : |(roundEven q : ℚ) - q| ≤ 1 / 2 := by
  have hle := Int.floor_le q
  have hlt := Int.lt_floor_add_one q
  rw [abs_le]
  unfold roundEven
  dsimp only
  split_ifs with hlow hhigh heven
  · constructor <;> linarith
  · push_cast
    constructor <;> linarith
  · constructor <;> linarith
  · push_cast
    constructor <;> linarith

theorem roundEven_mono {q r : ℚ} (h : q ≤ r) : roundEven q ≤ roundEven r := by
  by_contra hlt
  have hstep : (roundEven r : ℚ) + 1 ≤ roundEven q := by exact_mod_cast not_le.mp hlt
  have hq := abs_le.mp (abs_roundEven_sub_le q)
  have hr := abs_le.mp (abs_roundEven_sub_le r)
  obtain rfl : q = r := by linarith
  exact hlt le_rfl

theorem roundEven_intCast (n : ℤ) : roundEven n = n := by
  simp [roundEven]

theorem scaleBy_eq (k : ℤ) (q : ℚ) : scaleBy k q = q * 2 ^ k := by
  unfold scaleBy
  split
  · next h =>
    obtain ⟨n, rfl⟩ := Int.eq_ofNat_of_zero_le h
    simp
  · next h =>
    obtain ⟨n, hn⟩ := Int.eq_ofNat_of_zero_le (show 0 ≤ -k by omega)
    obtain rfl : k = -n := by omega
    simp [div_eq_mul_inv]

theorem abs_eq_div (q : ℚ) : |q| = q.num.natAbs / q.den := by
  conv_lhs => rw [← Rat.num_div_den q]
  rw [abs_div, Nat.abs_cast, Nat.cast_natAbs, Int.cast_abs]

theorem exponent_spec {q : ℚ} (hq : q ≠ 0) :
    (2 : ℚ) ^ exponent q ≤ |q| ∧ |q| < 2 ^ (exponent q + 1) := by
  have hnum : q.num.natAbs ≠ 0 := by simpa using hq
  have hden : (0 : ℚ) < q.den := by exact_mod_cast q.den_pos
  have hnumle : (2 : ℚ) ^ q.num.natAbs.log2 ≤ q.num.natAbs := by
    exact_mod_cast Nat.log2_self_le hnum
  have hnumlt : (q.num.natAbs : ℚ) < 2 ^ (q.num.natAbs.log2 + 1) := by
    exact_mod_cast Nat.lt_log2_self
  have hdenle : (2 : ℚ) ^ q.den.log2 ≤ q.den := by
    exact_mod_cast Nat.log2_self_le q.den_ne_zero
  have hdenlt : (q.den : ℚ) < 2 ^ (q.den.log2 + 1) := by
    exact_mod_cast Nat.lt_log2_self
  have hupper : |q| < 2 ^ ((q.num.natAbs.log2 : ℤ) - q.den.log2 + 1) := by
    rw [abs_eq_div, div_lt_iff₀ hden]
    calc (q.num.natAbs : ℚ) < 2 ^ (q.num.natAbs.log2 + 1) := hnumlt
      _ = 2 ^ ((q.num.natAbs.log2 : ℤ) - q.den.log2 + 1) * 2 ^ q.den.log2 := by
        rw [← zpow_natCast, ← zpow_natCast, ← zpow_add₀ two_ne_zero]
        congr 1
        push_cast
        ring
      _ ≤ 2 ^ ((q.num.natAbs.log2 : ℤ) - q.den.log2 + 1) * q.den := by gcongr
  have hlower : 2 ^ ((q.num.natAbs.log2 : ℤ) - q.den.log2 - 1) ≤ |q| := by
    rw [abs_eq_div, le_div_iff₀ hden]
    calc (2 : ℚ) ^ ((q.num.natAbs.log2 : ℤ) - q.den.log2 - 1) * q.den
        ≤ 2 ^ ((q.num.natAbs.log2 : ℤ) - q.den.log2 - 1) * 2 ^ (q.den.log2 + 1) := by gcongr
      _ = 2 ^ q.num.natAbs.log2 := by
        rw [← zpow_natCast, ← zpow_natCast, ← zpow_add₀ two_ne_zero]
        congr 1
        push_cast
        ring
      _ ≤ q.num.natAbs := hnumle
  unfold exponent
  dsimp only
  rw [scaleBy_eq, one_mul]
  split
  · next h => exact ⟨hlower, by rwa [sub_add_cancel]⟩
  · next h => exact ⟨not_lt.mp h, hupper⟩

theorem toFloat_eq {q : ℚ} (hq : q ≠ 0) :
    toFloat q = roundEven (q * 2 ^ (52 - exponent q)) * 2 ^ (exponent q - 52) := by
  rw [toFloat, if_neg hq, scaleBy_eq, scaleBy_eq]

theorem toFloat_zero : toFloat 0 = 0 := rfl

theorem toFloat_le {q : ℚ} {n : ℤ} (h : q ≤ n * 2 ^ (exponent q - 52)) (hq : q ≠ 0) :
    toFloat q ≤ n * 2 ^ (exponent q - 52) := by
  have hscaled : q * 2 ^ (52 - exponent q) ≤ n := by
    rw [← neg_sub, zpow_neg, ← div_eq_mul_inv, div_le_iff₀ (by positivity)]
    exact h
  have hround := (roundEven_mono hscaled).trans_eq (roundEven_intCast n)
  rw [toFloat_eq hq]
  have hround' : (roundEven (q * 2 ^ (52 - exponent q)) : ℚ) ≤ n := by exact_mod_cast hround
  gcongr

theorem le_toFloat {q : ℚ} {n : ℤ} (h : n * 2 ^ (exponent q - 52) ≤ q) (hq : q ≠ 0) :
    n * 2 ^ (exponent q - 52) ≤ toFloat q := by
  have hscaled : n ≤ q * 2 ^ (52 - exponent q) := by
    rw [← neg_sub, zpow_neg, ← div_eq_mul_inv, le_div_iff₀ (by positivity)]
    exact h
  have hround := (roundEven_intCast n).ge.trans (roundEven_mono hscaled)
  rw [toFloat_eq hq]
  have hround' : (n : ℚ) ≤ roundEven (q * 2 ^ (52 - exponent q)) := by exact_mod_cast hround
  gcongr

theorem exponent_lt {q : ℚ} (hq : q ≠ 0) {k : ℤ} (h : |q| < 2 ^ k) : exponent q < k :=
  (zpow_lt_zpow_iff_right₀ one_lt_two).mp ((exponent_spec hq).1.trans_lt h)

theorem le_exponent {q : ℚ} (hq : q ≠ 0) {k : ℤ} (h : 2 ^ k ≤ |q|) : k ≤ exponent q := by
  have hlt := (zpow_lt_zpow_iff_right₀ one_lt_two).mp (h.trans_lt (exponent_spec hq).2)
  omega

theorem zpow_two_eq (e : ℤ) (n : ℕ) : (2 : ℚ) ^ e = ((2 ^ n : ℤ) : ℚ) * 2 ^ (e - n) := by
  push_cast
  rw [← zpow_natCast, ← zpow_add₀ two_ne_zero, add_sub_cancel]

theorem toFloat_le_of_pos {q : ℚ} (hq : 0 < q) : toFloat q ≤ 2 ^ (exponent q + 1) := by
  have hspec := (exponent_spec hq.ne').2
  rw [abs_of_pos hq] at hspec
  have hpow := zpow_two_eq (exponent q + 1) 53
  rw [show exponent q + 1 - (53 : ℕ) = exponent q - 52 by push_cast; ring] at hpow
  rw [hpow] at hspec ⊢
  exact toFloat_le hspec.le hq.ne'

theorem le_toFloat_of_pos {q : ℚ} (hq : 0 < q) : 2 ^ exponent q ≤ toFloat q := by
  have hspec := (exponent_spec hq.ne').1
  rw [abs_of_pos hq] at hspec
  have hpow := zpow_two_eq (exponent q) 52
  rw [Nat.cast_ofNat] at hpow
  rw [hpow] at hspec ⊢
  exact le_toFloat hspec hq.ne'

theorem roundEven_neg (q : ℚ) : roundEven (-q) = -roundEven q := by
  have hle := Int.floor_le q
  have hlt := Int.lt_floor_add_one q
  by_cases hint : q = ⌊q⌋
  · rw [hint, ← Int.cast_neg, roundEven_intCast, roundEven_intCast]
  · have hlt' : (⌊q⌋ : ℚ) < q := lt_of_le_of_ne hle (Ne.symm hint)
    have hfloor : ⌊-q⌋ = -⌊q⌋ - 1 := by
      rw [Int.floor_eq_iff]
      push_cast
      constructor <;> linarith
    simp only [roundEven, hfloor]
    push_cast
    split_ifs <;> first | omega | (exfalso; linarith)

theorem exponent_neg (q : ℚ) : exponent (-q) = exponent q := by
  simp [exponent]

theorem toFloat_neg (q : ℚ) : toFloat (-q) = -toFloat q := by
  by_cases hq : q = 0
  · simp [hq, toFloat_zero]
  · rw [toFloat_eq hq, toFloat_eq (neg_ne_zero.mpr hq), exponent_neg, neg_mul, roundEven_neg]
    push_cast
    ring

theorem toFloat_nonneg {q : ℚ} (hq : 0 ≤ q) : 0 ≤ toFloat q := by
  rcases hq.eq_or_lt with rfl | hpos
  · exact le_rfl
  · exact (zpow_pos two_pos _).le.trans (le_toFloat_of_pos hpos)

theorem toFloat_mono_of_pos {q r : ℚ} (hq : 0 < q) (h : q ≤ r) : toFloat q ≤ toFloat r := by
  have hr := hq.trans_le h
  have hle : exponent q ≤ exponent r := by
    apply le_exponent hr.ne'
    rw [abs_of_pos hr]
    have hspec := (exponent_spec hq.ne').1
    rw [abs_of_pos hq] at hspec
    exact hspec.trans h
  rcases hle.eq_or_lt with heq | hlt
  · rw [toFloat_eq hq.ne', toFloat_eq hr.ne', heq]
    have hround : roundEven (q * 2 ^ (52 - exponent r)) ≤ roundEven (r * 2 ^ (52 - exponent r)) :=
      roundEven_mono (by gcongr)
    gcongr
  · calc toFloat q ≤ 2 ^ (exponent q + 1) := toFloat_le_of_pos hq
      _ ≤ 2 ^ exponent r := zpow_le_zpow_right₀ one_le_two hlt
      _ ≤ toFloat r := le_toFloat_of_pos hr

theorem toFloat_mono : Monotone toFloat := by
  intro q r h
  rcases lt_or_ge 0 q with hq | hq
  · exact toFloat_mono_of_pos hq h
  · have hleft : toFloat q ≤ 0 := by
      have hneg := toFloat_nonneg (neg_nonneg.mpr hq)
      rw [toFloat_neg] at hneg
      exact neg_nonneg.mp hneg
    rcases lt_or_ge r 0 with hr | hr
    · have hneg := toFloat_mono_of_pos (neg_pos.mpr hr) (neg_le_neg h)
      rw [toFloat_neg, toFloat_neg] at hneg
      exact neg_le_neg_iff.mp hneg
    · exact hleft.trans (toFloat_nonneg hr)

theorem toFloat_of_lt {n k : ℤ} (h : |n| < 2 ^ 53) : toFloat (n * 2 ^ k) = n * 2 ^ k := by
  by_cases hn : n = 0
  · simp [hn, toFloat_zero]
  have hq : (n : ℚ) * 2 ^ k ≠ 0 := mul_ne_zero (by exact_mod_cast hn) (zpow_pos two_pos k).ne'
  have hexp : exponent (n * 2 ^ k) < 53 + k := by
    apply exponent_lt hq
    rw [abs_mul, abs_of_pos (zpow_pos two_pos k : (0 : ℚ) < 2 ^ k), zpow_add₀ two_ne_zero]
    have hcast : |(n : ℚ)| < 2 ^ (53 : ℤ) := by exact_mod_cast h
    gcongr
  obtain ⟨d, hd⟩ := Int.eq_ofNat_of_zero_le (show 0 ≤ k + (52 - exponent (n * 2 ^ k)) by omega)
  rw [toFloat_eq hq]
  generalize exponent ((n : ℚ) * 2 ^ k) = e at hd
  have hscaled : (n : ℚ) * 2 ^ k * 2 ^ (52 - e) = ((n * 2 ^ d : ℤ) : ℚ) := by
    rw [mul_assoc, ← zpow_add₀ two_ne_zero, hd]
    push_cast
    rfl
  rw [hscaled, roundEven_intCast, ← hscaled, mul_assoc, mul_assoc, ← zpow_add₀ two_ne_zero,
    ← zpow_add₀ two_ne_zero]
  congr 2
  ring

theorem toFloat_toFloat (q : ℚ) : toFloat (toFloat q) = toFloat q := by
  by_cases hq : q = 0
  · rw [hq]
    rfl
  rw [toFloat_eq hq]
  have hbound : |(roundEven (q * 2 ^ (52 - exponent q)))| ≤ 2 ^ 53 := by
    have hlt := (exponent_spec hq).2
    have hscaled : |q * 2 ^ (52 - exponent q)| ≤ 2 ^ 53 := by
      rw [abs_mul, abs_of_pos (zpow_pos two_pos _ : (0 : ℚ) < 2 ^ (52 - exponent q))]
      calc |q| * 2 ^ (52 - exponent q) ≤ 2 ^ (exponent q + 1) * 2 ^ (52 - exponent q) := by gcongr
        _ = 2 ^ 53 := by
          rw [← zpow_add₀ two_ne_zero, show exponent q + 1 + (52 - exponent q) = 53 by ring]
          rfl
    rw [abs_le] at hscaled ⊢
    constructor
    · rw [← roundEven_intCast (-2 ^ 53)]
      apply roundEven_mono
      push_cast
      exact hscaled.1
    · rw [← roundEven_intCast (2 ^ 53)]
      apply roundEven_mono
      push_cast
      exact hscaled.2
  generalize roundEven (q * 2 ^ (52 - exponent q)) = n at hbound
  rcases hbound.eq_or_lt with heq | hlt
  · obtain ⟨m, rfl⟩ : ∃ m, n = m * 2 := by
      rcases abs_eq (by positivity) |>.mp heq with rfl | rfl
      · exact ⟨2 ^ 52, by norm_num⟩
      · exact ⟨-2 ^ 52, by norm_num⟩
    have hm : |m| < 2 ^ 53 := by
      rw [abs_mul] at heq
      norm_num at heq ⊢
      omega
    have hshift : ((m * 2 : ℤ) : ℚ) * 2 ^ (exponent q - 52) = m * 2 ^ (exponent q - 51) := by
      rw [show exponent q - 51 = exponent q - 52 + 1 by ring, zpow_add_one₀ two_ne_zero]
      push_cast
      ring
    rw [hshift]
    exact toFloat_of_lt hm
  · exact toFloat_of_lt hlt

/-- An `int`, or a finite `float` by its value. -/
inductive Number
  | int (n : ℤ)
  | float (q : ℚ)
  deriving DecidableEq

namespace Number

instance (n : ℕ) : OfNat Number n := ⟨.int n⟩

def val : Number → ℚ
  | .int n => n
  | .float q => q

/-- `x * 1000`. -/
def millis : Number → Number
  | .int n => .int (n * 1000)
  | .float q => .float (toFloat (q * 1000))

/-- `t + x * 1000`, for a `t` that is an `int` if `x` is one. A `float` makes the sum a `float`. -/
def after (x : Number) (t : ℚ) : ℚ :=
  match x.millis with
  | .int n => t + n
  | .float q => toFloat (toFloat t + q)

theorem iterate_after_int (n : ℤ) (k : ℕ) (t : ℚ) :
    (Number.int n).after^[k] t = t + k * (n * 1000) := by
  induction k with
  | zero => simp
  | succ k ih =>
    rw [Function.iterate_succ_apply', ih]
    simp only [after, millis]
    push_cast
    ring

theorem after_mono (x : Number) : Monotone x.after := by
  intro s t h
  cases x with
  | int n => exact add_le_add_left h _
  | float q => exact toFloat_mono (add_le_add_left (toFloat_mono h) _)

theorem after_le_after_after (x : Number) (hx : 0 ≤ x.val) (t : ℚ) :
    x.after t ≤ x.after (x.after t) := by
  cases x with
  | int n =>
    apply after_mono
    have hn : (0 : ℚ) ≤ n := hx
    simp only [after, millis]
    push_cast
    linarith
  | float q =>
    have hmillis : 0 ≤ toFloat (q * 1000) := toFloat_nonneg (mul_nonneg hx (by norm_num))
    have hsum : toFloat (toFloat t) ≤ toFloat (toFloat t + toFloat (q * 1000)) :=
      toFloat_mono (le_add_of_nonneg_right hmillis)
    simp only [after, millis]
    rw [toFloat_toFloat (toFloat t + _)]
    rw [toFloat_toFloat] at hsum
    exact toFloat_mono (add_le_add_left hsum _)

theorem iterate_after_mono (x : Number) (hx : 0 ≤ x.val) (t : ℚ) {j k : ℕ} (hj : 0 < j)
    (h : j ≤ k) : x.after^[j] t ≤ x.after^[k] t := by
  obtain ⟨j, rfl⟩ := Nat.exists_eq_succ_of_ne_zero hj.ne'
  obtain ⟨k, rfl⟩ := Nat.exists_eq_add_of_le h
  rw [Nat.succ_eq_add_one, show j + 1 + k = j + k + 1 by omega, Function.iterate_succ_apply,
    Function.iterate_succ_apply]
  exact Monotone.monotone_iterate_of_le_map x.after_mono (x.after_le_after_after hx t)
    (Nat.le_add_right j k)

end Number

end Liota.Python
