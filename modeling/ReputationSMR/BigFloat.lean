import Mathlib.Algebra.Order.Floor.Ring
import Mathlib.Algebra.Order.Ring.Pow
import Mathlib.Algebra.Order.BigOperators.Group.List
import Mathlib.Data.Int.Log
import Mathlib.Data.Rat.Floor
import Mathlib.Tactic.Linarith
import Mathlib.Tactic.Positivity

/-! Numbers with a fixed number of significant bits and an exponent without bounds. A result is rounded
to the nearest such number, of two the one with an even last bit. Rounding errs by at most half a unit in
the last place, so a sum of nonnegative numbers stays within a power of `1 ± unit` of the exact one, in
whatever order the numbers are added. -/
namespace BigFloat

/-- The nearest integer, of two the even one. -/
def nearest (x : ℚ) : ℤ :=
  if x - ⌊x⌋ < 1 / 2 then ⌊x⌋ else if 1 / 2 < x - ⌊x⌋ then ⌊x⌋ + 1 else ⌊x⌋ + ⌊x⌋ % 2

theorem nearest_sub_le (x : ℚ) : |(nearest x : ℚ) - x| ≤ 1 / 2 := by
  have low : (⌊x⌋ : ℚ) ≤ x := Int.floor_le x
  rw [abs_le, nearest]
  split
  next below => constructor <;> linarith
  next notBelow =>
    split
    next above =>
      have high : x < ⌊x⌋ + 1 := Int.lt_floor_add_one x
      push_cast
      constructor <;> linarith
    next notAbove =>
      rcases Int.emod_two_eq_zero_or_one ⌊x⌋ with even | odd
      · rw [even]
        push_cast
        constructor <;> linarith
      · rw [odd]
        push_cast
        constructor <;> linarith

/-- The place of the last bit of a number that is rounded to `prec` bits. -/
def ulp (prec : Nat) (x : ℚ) : ℚ := 2 ^ (Int.log 2 |x| + 1 - prec)

def round (prec : Nat) (x : ℚ) : ℚ := nearest (x / ulp prec x) * ulp prec x

/-- The largest relative error of a rounding. -/
def unit (prec : Nat) : ℚ := 1 / 2 ^ prec

theorem ulp_pos (prec : Nat) (x : ℚ) : 0 < ulp prec x := zpow_pos (by norm_num) _

theorem unit_pos (prec : Nat) : 0 < unit prec := by
  unfold unit
  positivity

theorem unit_le_one (prec : Nat) : unit prec ≤ 1 := by
  rw [unit, div_le_one (by positivity)]
  exact one_le_pow₀ (by norm_num)

theorem half_ulp_le {prec : Nat} {x : ℚ} (nonzero : x ≠ 0) : ulp prec x / 2 ≤ unit prec * |x| := by
  have power : (2 : ℚ) ^ Int.log 2 |x| ≤ |x| := Int.zpow_log_le_self (by decide) (abs_pos.mpr nonzero)
  have split : ulp prec x / 2 = unit prec * 2 ^ Int.log 2 |x| := by
    rw [ulp, unit, zpow_sub₀ (by norm_num), zpow_add_one₀ (by norm_num), zpow_natCast]
    ring
  rw [split]
  exact mul_le_mul_of_nonneg_left power (unit_pos prec).le

theorem round_sub_le (prec : Nat) (x : ℚ) : |round prec x - x| ≤ unit prec * |x| := by
  by_cases zero : x = 0
  · subst zero
    simp [round,nearest]
  · have scaled : round prec x - x = (nearest (x / ulp prec x) - x / ulp prec x) * ulp prec x := by
      rw [sub_mul, div_mul_cancel₀ _ (ulp_pos prec x).ne', round]
    calc |round prec x - x| = |(nearest (x / ulp prec x) : ℚ) - x / ulp prec x| * ulp prec x := by
          rw [scaled, abs_mul, abs_of_pos (ulp_pos prec x)]
      _ ≤ 1 / 2 * ulp prec x := mul_le_mul_of_nonneg_right (nearest_sub_le _) (ulp_pos prec x).le
      _ = ulp prec x / 2 := by ring
      _ ≤ unit prec * |x| := half_ulp_le zero

/-- What `k` roundings may make of `x`. -/
structure Within (prec k : Nat) (x y : ℚ) : Prop where
  lower : (1 - unit prec) ^ k * x ≤ y
  upper : y ≤ (1 + unit prec) ^ k * x

section Errors

variable {prec k l : Nat} {x y z : ℚ}

theorem shrink_nonneg (prec k : Nat) : 0 ≤ (1 - unit prec) ^ k := pow_nonneg (sub_nonneg.mpr (unit_le_one prec)) k

theorem grow_nonneg (prec k : Nat) : 0 ≤ (1 + unit prec) ^ k := pow_nonneg (by linarith [unit_pos prec]) k

theorem within_round (nonneg : 0 ≤ x) : Within prec 1 x (round prec x) := by
  have error := round_sub_le prec x
  rw [abs_of_nonneg nonneg, abs_le] at error
  constructor <;> rw [pow_one] <;> linarith

theorem Within.nonneg (within : Within prec k x y) (nonneg : 0 ≤ x) : 0 ≤ y :=
  (mul_nonneg (shrink_nonneg prec k) nonneg).trans within.lower

theorem Within.trans (first : Within prec k x y) (second : Within prec l y z) : Within prec (k + l) x z where
  lower := by
    calc (1 - unit prec) ^ (k + l) * x = (1 - unit prec) ^ l * ((1 - unit prec) ^ k * x) := by ring
      _ ≤ (1 - unit prec) ^ l * y := mul_le_mul_of_nonneg_left first.lower (shrink_nonneg prec l)
      _ ≤ z := second.lower
  upper := by
    calc z ≤ (1 + unit prec) ^ l * y := second.upper
      _ ≤ (1 + unit prec) ^ l * ((1 + unit prec) ^ k * x) := mul_le_mul_of_nonneg_left first.upper (grow_nonneg prec l)
      _ = (1 + unit prec) ^ (k + l) * x := by ring

theorem Within.scale (within : Within prec k x y) {c : ℚ} (nonneg : 0 ≤ c) : Within prec k (x * c) (y * c) where
  lower := by
    rw [← mul_assoc]
    exact mul_le_mul_of_nonneg_right within.lower nonneg
  upper := by
    rw [← mul_assoc]
    exact mul_le_mul_of_nonneg_right within.upper nonneg

theorem Within.add {x' y' : ℚ} (left : Within prec k x y) (right : Within prec k x' y') :
    Within prec k (x + x') (y + y') where
  lower := by
    rw [mul_add]
    exact add_le_add left.lower right.lower
  upper := by
    rw [mul_add]
    exact add_le_add left.upper right.upper

theorem Within.mono (within : Within prec k x y) (nonneg : 0 ≤ x) (more : k ≤ l) : Within prec l x y where
  lower := by
    refine (mul_le_mul_of_nonneg_right ?_ nonneg).trans within.lower
    exact pow_le_pow_of_le_one (sub_nonneg.mpr (unit_le_one prec)) (by linarith [unit_pos prec]) more
  upper := by
    refine within.upper.trans (mul_le_mul_of_nonneg_right ?_ nonneg)
    exact pow_le_pow_right₀ (by linarith [unit_pos prec]) more

theorem Within.lt {x' y' : ℚ} (left : Within prec k x y) (right : Within prec l x' y')
    (apart : (1 + unit prec) ^ k * x < (1 - unit prec) ^ l * x') : y < y' :=
  (left.upper.trans_lt apart).trans_le right.lower

theorem within_self (nonneg : 0 ≤ x) : Within prec k x x where
  lower := mul_le_of_le_one_left nonneg
    (pow_le_one₀ (sub_nonneg.mpr (unit_le_one prec)) (by linarith [unit_pos prec]))
  upper := le_mul_of_one_le_left nonneg (one_le_pow₀ (by linarith [unit_pos prec]))

/-- Two numbers that are ordered alike after `k` and after `l` roundings. -/
def Apart (prec k l : Nat) (x y : ℚ) : Prop :=
  (1 + unit prec) ^ k * x < (1 - unit prec) ^ l * y ∨ (1 + unit prec) ^ l * y < (1 - unit prec) ^ k * x

instance (prec k l : Nat) (x y : ℚ) : Decidable (Apart prec k l x y) := inferInstanceAs (Decidable (_ ∨ _))

theorem Apart.le_iff {x' y' : ℚ} (apart : Apart prec k l x y) (left : Within prec k x x') (right : Within prec l y y') :
    (x' < y' ∨ y' < x') ∧ (0 ≤ x → 0 ≤ y → (x ≤ y ↔ x' < y')) := by
  rcases apart with below | above
  · refine ⟨Or.inl (left.lt right below),fun nonneg nonneg' => ⟨fun _ => left.lt right below,fun _ => ?_⟩⟩
    exact ((within_self nonneg).lt (within_self nonneg') below).le
  · have greater := right.lt left above
    refine ⟨Or.inr greater,fun nonneg nonneg' => ⟨fun le => ?_,fun less => absurd less greater.not_gt⟩⟩
    exact absurd ((within_self nonneg').lt (within_self nonneg) above) le.not_gt

theorem le_shrink {m : Nat} (most : k ≤ m) : 1 - m * unit prec ≤ (1 - unit prec) ^ k := by
  have bernoulli := one_add_mul_le_pow (show (-2 : ℚ) ≤ -unit prec by linarith [unit_le_one prec]) k
  have fewer : (k : ℚ) * unit prec ≤ m * unit prec :=
    mul_le_mul_of_nonneg_right (Nat.cast_le.mpr most) (unit_pos prec).le
  rw [← sub_eq_add_neg] at bernoulli
  linarith

/-- A product of factors `1 + unit` is at most the inverse of one of factors `1 - unit`. -/
theorem grow_le {m : Nat} (most : k ≤ m) (small : m * unit prec ≤ 1 / 2) :
    (1 + unit prec) ^ k ≤ 1 + 2 * (m * unit prec) := by
  have inverse : (1 + unit prec) ^ k * (1 - unit prec) ^ k ≤ 1 := by
    rw [← mul_pow]
    exact pow_le_one₀ (mul_nonneg (by linarith [unit_pos prec]) (sub_nonneg.mpr (unit_le_one prec)))
      (by nlinarith [unit_pos prec])
  have bound : (1 + unit prec) ^ k * (1 - m * unit prec) ≤ 1 :=
    (mul_le_mul_of_nonneg_left (le_shrink most) (grow_nonneg prec k)).trans inverse
  have positive : 0 ≤ m * unit prec := mul_nonneg (Nat.cast_nonneg m) (unit_pos prec).le
  have half : (0 : ℚ) < 1 - m * unit prec := by linarith
  rw [← le_div_iff₀ half] at bound
  refine bound.trans ?_
  rw [div_le_iff₀ half]
  nlinarith

theorem less_apart {m : Nat} (left : k ≤ m) (right : l ≤ m) (small : m * unit prec ≤ 1 / 2) (nonneg : 0 ≤ x)
    (nonneg' : 0 ≤ y) (gap : (1 + 2 * (m * unit prec)) * x < (1 - m * unit prec) * y) :
    (1 + unit prec) ^ k * x < (1 - unit prec) ^ l * y :=
  (mul_le_mul_of_nonneg_right (grow_le left small) nonneg).trans_lt
    (gap.trans_le (mul_le_mul_of_nonneg_right (le_shrink right) nonneg'))

/-- Copies of one number are apart from half of all copies, unless they are half of them, while the roundings
change a sum by less than one copy. -/
theorem copies_apart {m : Nat} (positive : 0 < x) (fewer : k ≤ m) (notHalf : 2 * k ≠ m)
    (small : m * ((m + 2 : Nat) * unit prec) < 1 / 4) :
    Apart prec (1 + k) (1 + m + 1) (k * x) (m * x * (1 / 2)) := by
  have inhabited : (1 : ℚ) ≤ m := by exact_mod_cast (show 1 ≤ m by omega)
  have part : 0 ≤ k * x := mul_nonneg (Nat.cast_nonneg k) positive.le
  have half : 0 ≤ m * x * (1 / 2) := mul_nonneg (mul_nonneg (Nat.cast_nonneg m) positive.le) (by norm_num)
  have nonneg : 0 ≤ (m + 2 : Nat) * unit prec := mul_nonneg (Nat.cast_nonneg _) (unit_pos prec).le
  generalize error : (m + 2 : Nat) * unit prec = e at small nonneg
  have few : (m + 2 : Nat) * unit prec ≤ 1 / 2 := by
    rw [error]
    nlinarith
  rcases Nat.lt_or_gt_of_ne notHalf with below | above
  · refine Or.inl (less_apart (m := m + 2) (by omega) (by omega) few part half ?_)
    have cast : 2 * (k : ℚ) + 1 ≤ m := by exact_mod_cast below
    have gap : (1 + 2 * e) * k < (1 - e) * (m * (1 / 2)) := by nlinarith
    rw [error]
    linarith [mul_lt_mul_of_pos_right gap positive]
  · refine Or.inr (less_apart (m := m + 2) (by omega) (by omega) few half part ?_)
    have cast : (m : ℚ) + 1 ≤ 2 * k := by exact_mod_cast above
    have gap : (1 + 2 * e) * (m * (1 / 2)) < (1 - e) * k := by nlinarith
    rw [error]
    linarith [mul_lt_mul_of_pos_right gap positive]

end Errors

/-! ## Sums -/

/-- The numbers are rounded and added one after the other, with a rounding after each addition. -/
def accumulate (prec : Nat) (start : ℚ) (xs : List ℚ) : ℚ :=
  xs.foldl (fun sum x => round prec (sum + round prec x)) start

theorem accumulate_within {prec : Nat} {xs : List ℚ} (nonneg : ∀ x ∈ xs, 0 ≤ x) {k : Nat} {exact sum : ℚ}
    (start : 0 ≤ exact) (positive : 1 ≤ k) (within : Within prec k exact sum) :
    Within prec (k + xs.length) (exact + xs.sum) (accumulate prec sum xs) := by
  induction xs generalizing k exact sum with
  | nil => simpa [accumulate] using within
  | cons x xs ih =>
    have head : 0 ≤ x := nonneg x List.mem_cons_self
    have entry : Within prec k x (round prec x) := (within_round head).mono head positive
    have added := within.add entry
    have next := added.trans (within_round (added.nonneg (add_nonneg start head)))
    have rest := ih (fun y later => nonneg y (List.mem_cons_of_mem x later)) (add_nonneg start head)
      (Nat.le_add_left 1 k) next
    rw [List.sum_cons, ← add_assoc, List.length_cons, Nat.add_comm xs.length 1, ← Nat.add_assoc]
    exact rest

theorem sum_within (prec : Nat) {xs : List ℚ} (nonneg : ∀ x ∈ xs, 0 ≤ x) :
    Within prec (1 + xs.length) xs.sum (accumulate prec 0 xs) := by
  have zero : Within prec 1 0 0 := by constructor <;> rw [mul_zero]
  have all := accumulate_within nonneg le_rfl le_rfl zero
  rwa [zero_add] at all

end BigFloat
