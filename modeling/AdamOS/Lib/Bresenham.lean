import AdamOS.Lib.Word
import Mathlib.Data.Int.GCD
import Mathlib.Logic.Function.Iterate
import Mathlib.Tactic.LinearCombination
import Mathlib.Tactic.Ring

/-! A walk on the grid from (0, 0) to (dx, dy) with dx and dy not negative: a step goes one to the right,
one up, or both, as twice the error term tells. `double` is the doubling of the error term. -/
namespace AdamOS.Bresenham
open AdamOS.Word
variable {double : Int → Int} {dx dy m : Int} {p : Int × Int} {k : Nat}

/- The error term after p.1 steps to the right and p.2 steps up. -/
def error (dx dy : Int) (p : Int × Int) : Int := dx * (p.2 + 1) - dy * (p.1 + 1)

def advance (double : Int → Int) (dx dy : Int) (p : Int × Int) : Int × Int :=
  (if double (error dx dy p) > -dy then p.1 + 1 else p.1,
    if double (error dx dy p) < dx then p.2 + 1 else p.2)

def walk (double : Int → Int) (dx dy : Int) (k : Nat) : Int × Int := (advance double dx dy)^[k] (0, 0)

def twice (e : Int) : Int := 2 * e

theorem walk_succ : walk double dx dy (k + 1) = advance double dx dy (walk double dx dy k) :=
  Function.iterate_succ_apply' _ _ _

theorem error_advance : error dx dy (advance double dx dy p) = error dx dy p +
    (if double (error dx dy p) < dx then dx else 0) -
    (if double (error dx dy p) > -dy then dy else 0) := by
  unfold advance
  generalize double (error dx dy p) = e
  unfold error
  split <;> split <;> ring

theorem error_offset : dx * p.2 - dy * p.1 = error dx dy p - dx + dy := by
  unfold error
  ring

theorem walk_step : ((walk double dx dy (k + 1)).1 = (walk double dx dy k).1 ∨
      (walk double dx dy (k + 1)).1 = (walk double dx dy k).1 + 1) ∧
    ((walk double dx dy (k + 1)).2 = (walk double dx dy k).2 ∨
      (walk double dx dy (k + 1)).2 = (walk double dx dy k).2 + 1) := by
  rw [walk_succ, advance]
  split <;> split <;> simp

theorem walk_nonneg : 0 ≤ (walk double dx dy k).1 ∧ 0 ≤ (walk double dx dy k).2 := by
  induction k with
  | zero => exact ⟨Int.le_refl 0, Int.le_refl 0⟩
  | succ k ih =>
    rw [walk_succ, advance]
    split <;> split <;> constructor <;> dsimp only <;> omega

theorem walk_le : (walk double dx dy k).1 ≤ k ∧ (walk double dx dy k).2 ≤ k := by
  induction k with
  | zero => exact ⟨Int.le_refl 0, Int.le_refl 0⟩
  | succ k ih =>
    rw [walk_succ, advance]
    split <;> split <;> constructor <;> dsimp only <;> omega

/-- Two doublings that agree along a walk give the same walk. -/
theorem walk_congr {f : Int → Int} (h : ∀ j < k, f (error dx dy (walk double dx dy j)) =
    double (error dx dy (walk double dx dy j))) : walk f dx dy k = walk double dx dy k := by
  induction k with
  | zero => rfl
  | succ k ih =>
    rw [walk_succ, walk_succ, ih fun j hj => h j (Nat.lt_succ_of_lt hj), advance, advance,
      h k (Nat.lt_succ_self k)]

/-! ### The exact walk -/

theorem walk_swap : walk twice dy dx k = (walk twice dx dy k).swap := by
  induction k with
  | zero => rfl
  | succ k ih =>
    have herror : error dy dx (walk twice dx dy k).swap = -error dx dy (walk twice dx dy k) := by
      unfold error
      dsimp only [Prod.swap]
      ring
    rw [walk_succ, walk_succ, ih, advance, advance, herror]
    unfold twice
    dsimp only [Prod.swap]
    exact Prod.ext (if_congr (by omega) rfl rfl) (if_congr (by omega) rfl rfl)

theorem error_swap : error dy dx (walk twice dy dx k) = -error dx dy (walk twice dx dy k) := by
  rw [walk_swap]
  unfold error
  dsimp only [Prod.swap]
  ring

/-- Where the line is not steep, every step goes to the right and the error term stays in a window. -/
theorem flat_window (h0 : 0 ≤ dy) (hle : dy ≤ dx) (hpos : 0 < dx) (k : Nat) :
    (walk twice dx dy k).1 = k ∧ -dy < 2 * error dx dy (walk twice dx dy k) ∧
      dx - 2 * dy ≤ 2 * error dx dy (walk twice dx dy k) ∧
      2 * error dx dy (walk twice dx dy k) < 3 * dx - 2 * dy := by
  induction k with
  | zero =>
    have hstart : error dx dy (walk twice dx dy 0) = dx - dy := by
      unfold error walk
      dsimp only [Function.iterate_zero, id]
      ring
    rw [hstart]
    exact ⟨rfl, by omega, by omega, by omega⟩
  | succ k ih =>
    obtain ⟨ha, hlow, hlow', hhigh⟩ := ih
    have hstep := @error_advance twice dx dy (walk twice dx dy k)
    rw [← walk_succ] at hstep
    rw [hstep]
    have hright : (walk twice dx dy (k + 1)).1 = (walk twice dx dy k).1 + 1 := by
      rw [walk_succ, advance]
      exact if_pos hlow
    rw [hright, ha]
    generalize error dx dy (walk twice dx dy k) = e at *
    have hgo : twice e > -dy := hlow
    rw [if_pos hgo]
    unfold twice
    refine ⟨rfl, ?_⟩
    split <;> omega

structure Straight (dx dy : Int) : Prop where
  box : ∀ k : Nat, k ≤ max dx dy → (walk twice dx dy k).1 ≤ dx ∧ (walk twice dx dy k).2 ≤ dy
  last : walk twice dx dy (max dx dy).toNat = (dx, dy)
  before : ∀ k : Nat, k < max dx dy → walk twice dx dy k ≠ (dx, dy)
  close : ∀ k, 2 * |dx * (walk twice dx dy k).2 - dy * (walk twice dx dy k).1| ≤ max dx dy

theorem Straight.swap (h : Straight dx dy) : Straight dy dx where
  box k hk := by
    rw [walk_swap]
    exact (h.box k (max_comm dy dx ▸ hk)).symm
  last := by rw [walk_swap, max_comm, h.last, Prod.swap_prod_mk]
  before k hk he := by
    rw [walk_swap] at he
    exact h.before k (max_comm dy dx ▸ hk) (Prod.swap_injective he)
  close k := by
    rw [walk_swap, max_comm, abs_sub_comm]
    exact h.close k

theorem flat_straight (h0 : 0 ≤ dy) (hle : dy ≤ dx) (hpos : 0 < dx) : Straight dx dy := by
  have hbelow : ∀ k : Nat, k ≤ dx → (walk twice dx dy k).2 ≤ dy := fun k hk => by
    obtain ⟨ha, -, -, hhigh⟩ := flat_window h0 hle hpos k
    rw [error, ha] at hhigh
    have hrise := Int.mul_le_mul_of_nonneg_left hk h0
    by_contra hover
    have hcell := Int.mul_le_mul_of_nonneg_left (by omega : dy + 2 ≤ (walk twice dx dy k).2 + 1)
      (Int.le_of_lt hpos)
    rw [Int.mul_add, Int.mul_comm dx dy] at hcell
    rw [Int.mul_add dy] at hhigh
    omega
  have hmax : max dx dy = dx := max_eq_left hle
  refine ⟨fun k hk => ?_, ?_, fun k hk he => ?_, fun k => ?_⟩
  · rw [hmax] at hk
    exact ⟨(flat_window h0 hle hpos k).1 ▸ hk, hbelow k hk⟩
  · obtain ⟨ha, -, hlow, -⟩ := flat_window h0 hle hpos dx.toNat
    have hend : (dx.toNat : Int) = dx := Int.toNat_of_nonneg (Int.le_of_lt hpos)
    have hb := hbelow dx.toNat (Int.le_of_eq hend)
    rw [hmax]
    refine Prod.ext (ha.trans hend) (Int.le_antisymm hb ?_)
    -- one row lower the error term would be below the window
    by_contra hunder
    rw [error, ha, hend] at hlow
    have hcell := Int.mul_le_mul_of_nonneg_left
      (by omega : (walk twice dx dy dx.toNat).2 + 1 ≤ dy) (Int.le_of_lt hpos)
    rw [Int.mul_add dy, Int.mul_comm dy dx] at hlow
    omega
  · have ha := (flat_window h0 hle hpos k).1
    rw [he] at ha
    rw [hmax] at hk
    exact Int.lt_irrefl _ (ha ▸ hk)
  · obtain ⟨-, -, hlow, hhigh⟩ := flat_window h0 hle hpos k
    have hnear := abs_le.mpr
      (⟨by omega, by omega⟩ : -(dx / 2) ≤ error dx dy (walk twice dx dy k) - dx + dy ∧
        error dx dy (walk twice dx dy k) - dx + dy ≤ dx / 2)
    rw [error_offset, hmax]
    omega

theorem straight_point : Straight 0 0 := by
  have hstay : ∀ k, walk twice 0 0 k = (0, 0) := fun k => by
    induction k with
    | zero => rfl
    | succ k ih =>
      rw [walk_succ, ih]
      rfl
  refine ⟨fun k _ => ?_, hstay _, fun k hk => absurd hk (Int.not_lt.mpr (Int.natCast_nonneg k)), fun k => ?_⟩
  · rw [hstay]
    exact ⟨Int.le_refl 0, Int.le_refl 0⟩
  · rw [hstay]
    decide

/-- The exact walk ends in (dx, dy) after as many steps as the longer side has, and not before, inside
the box and within half a step of the line. -/
theorem straight (hx : 0 ≤ dx) (hy : 0 ≤ dy) : Straight dx dy := by
  rcases Int.le_total dy dx with hle | hle
  · rcases Int.le_iff_lt_or_eq.mp hx with hpos | rfl
    · exact flat_straight hy hle hpos
    · obtain rfl := Int.le_antisymm hle hy
      exact straight_point
  · rcases Int.le_iff_lt_or_eq.mp hy with hpos | rfl
    · exact (flat_straight hx hle hpos).swap
    · obtain rfl := Int.le_antisymm hle hx
      exact straight_point

/-! ### The largest error term -/

/- The largest multiple of the greatest common divisor that is below the upper end of the window. -/
def peak (long short : Int) : Int :=
  (3 * long - 2 * short - 1) / (2 * long.gcd short) * long.gcd short

theorem dvd_error (p : Int × Int) : (dx.gcd dy : Int) ∣ error dx dy p :=
  Int.dvd_sub (Dvd.dvd.mul_right (Int.gcd_dvd_left ..) _) (Dvd.dvd.mul_right (Int.gcd_dvd_right ..) _)

/-- The multiples of the greatest common divisor below the upper end are those up to the peak. -/
theorem le_peak_iff (hpos : 0 < dx) (hm : (dx.gcd dy : Int) ∣ m) :
    m ≤ peak dx dy ↔ 2 * m < 3 * dx - 2 * dy := by
  have hg : 0 < (dx.gcd dy : Int) := Int.natCast_pos.mpr (Int.gcd_pos_of_ne_zero_left _ hpos.ne')
  obtain ⟨c, rfl⟩ := hm
  unfold peak
  rw [Int.mul_comm _ c, Int.mul_le_mul_iff_of_pos_right hg, Int.le_ediv_iff_mul_le (by omega)]
  rw [show c * (2 * (dx.gcd dy : Int)) = 2 * (c * (dx.gcd dy : Int)) by ring]
  omega

theorem dvd_peak : (dx.gcd dy : Int) ∣ peak dx dy := Int.dvd_mul_left ..

theorem two_peak_lt (hpos : 0 < dx) : 2 * peak dx dy < 3 * dx - 2 * dy :=
  (le_peak_iff hpos dvd_peak).mp (Int.le_refl _)

/-- Every multiple of the greatest common divisor in the window is an error term of the walk. -/
theorem flat_attains (h0 : 0 ≤ dy) (hle : dy ≤ dx) (hpos : 0 < dx) (hm : (dx.gcd dy : Int) ∣ m)
    (hlow : dx - 2 * dy ≤ 2 * m) (hhigh : 2 * m < 3 * dx - 2 * dy) :
    ∃ k : Nat, k < dx ∧ error dx dy (walk twice dx dy k) = m := by
  obtain ⟨c, hc⟩ := hm
  -- m = dx * u - dy * (a + 1) with a in [0, dx)
  have hmod : ∃ a u : Int, 0 ≤ a ∧ a < dx ∧ m = dx * u - dy * (a + 1) := by
    refine ⟨(-(dx.gcdB dy * c) - 1) % dx, dx.gcdA dy * c - dy * ((-(dx.gcdB dy * c) - 1) / dx),
      Int.emod_nonneg _ hpos.ne', Int.emod_lt_of_pos _ hpos, ?_⟩
    have hdiv := Int.emod_add_mul_ediv (-(dx.gcdB dy * c) - 1) dx
    rw [hc, Int.gcd_eq_gcd_ab]
    linear_combination dy * hdiv
  obtain ⟨a, u, ha0, ha, rfl⟩ := hmod
  have hcast := Int.toNat_of_nonneg ha0
  refine ⟨a.toNat, by omega, ?_⟩
  obtain ⟨hcol, -, hlow', hhigh'⟩ := flat_window h0 hle hpos a.toNat
  rw [error, hcol, hcast] at *
  -- two numbers of the window that differ by a multiple of dx are equal
  have hrow : (walk twice dx dy a.toNat).2 + 1 = u := by
    rcases Int.lt_trichotomy ((walk twice dx dy a.toNat).2 + 1) u with hlt | heq | hlt
    · have := Int.mul_le_mul_of_nonneg_left (Int.add_one_le_of_lt hlt) (Int.le_of_lt hpos)
      rw [Int.mul_add dx _ 1] at this
      omega
    · exact heq
    · have := Int.mul_le_mul_of_nonneg_left (Int.add_one_le_of_lt hlt) (Int.le_of_lt hpos)
      rw [Int.mul_add dx _ 1] at this
      omega
  rw [hrow]

theorem flat_le_peak (h0 : 0 ≤ dy) (hle : dy ≤ dx) (hpos : 0 < dx) (k : Nat) :
    error dx dy (walk twice dx dy k) ≤ peak dx dy :=
  (le_peak_iff hpos (dvd_error _)).mpr (flat_window h0 hle hpos k).2.2.2

theorem flat_reaches_peak (h0 : 0 ≤ dy) (hle : dy ≤ dx) (hpos : 0 < dx) :
    ∃ k : Nat, k < dx ∧ error dx dy (walk twice dx dy k) = peak dx dy := by
  have hstart : dx - dy ≤ peak dx dy :=
    (le_peak_iff hpos (Int.dvd_sub (Int.gcd_dvd_left ..) (Int.gcd_dvd_right ..))).mpr (by omega)
  exact flat_attains h0 hle hpos dvd_peak (by omega) (two_peak_lt hpos)

/-! ### Doubling in 32 bits -/

def twice32 (e : Int) : Int := int32 (2 * e)

theorem twice32_spec (e : Int) : ∃ q, twice32 e = 2 * e - 4294967296 * q ∧
    -2147483648 ≤ twice32 e ∧ twice32 e < 2147483648 := by
  refine ⟨(2 * e - twice32 e) / 4294967296, ?_, int32_bounds _⟩
  unfold twice32 int32 toInt32 ofInt32 wrap
  split <;> omega

/- Twice the error term is beyond the ints, on the side of the longer axis. -/
def Lost (dx dy e : Int) : Prop := if dy ≤ dx then 1073741824 ≤ e else e < -1073741824

def DoubleFits (dx dy : Int) : Prop :=
  if dy ≤ dx then peak dx dy < 1073741824 else peak dy dx ≤ 1073741824

instance : Decidable (DoubleFits dx dy) :=
  inferInstanceAs (Decidable (if dy ≤ dx then peak dx dy < _ else peak dy dx ≤ _))

/-- Up to the end no error term is beyond the ints just when the largest is not. -/
theorem doubleFits_iff (hx : 0 ≤ dx) (hy : 0 ≤ dy) : DoubleFits dx dy ↔
    ∀ k : Nat, k < max dx dy → ¬Lost dx dy (error dx dy (walk twice dx dy k)) := by
  unfold DoubleFits Lost
  split
  · rename_i hle
    rw [max_eq_left hle]
    constructor
    · intro hpeak k hk hlost
      have hbound := flat_le_peak hy hle (Int.lt_of_le_of_lt (Int.natCast_nonneg k) hk) k
      omega
    · intro hall
      rcases Int.le_iff_lt_or_eq.mp hx with hpos | rfl
      · obtain ⟨k, hk, he⟩ := flat_reaches_peak hy hle hpos
        exact Int.not_le.mp (he ▸ hall k hk)
      · obtain rfl := Int.le_antisymm hle hy
        decide
  · rename_i hlt
    have hle : dx ≤ dy := Int.le_of_lt (Int.not_le.mp hlt)
    have hpos : 0 < dy := Int.lt_of_le_of_lt hx (Int.not_le.mp hlt)
    rw [max_eq_right hle]
    constructor
    · intro hpeak k hk hlost
      have hbound := flat_le_peak hx hle hpos k
      rw [error_swap] at hbound
      omega
    · intro hall
      obtain ⟨k, hk, he⟩ := flat_reaches_peak hx hle hpos
      rw [error_swap] at he
      have := hall k hk
      omega

theorem twice32_eq (hx : 0 ≤ dx) (hx' : dx < 2147483648) (hy : 0 ≤ dy) (hy' : dy < 2147483648)
    (h : ¬Lost dx dy (error dx dy (walk twice dx dy k))) :
    twice32 (error dx dy (walk twice dx dy k)) = twice (error dx dy (walk twice dx dy k)) := by
  have hwindow : -2147483648 ≤ 2 * error dx dy (walk twice dx dy k) ∧
      2 * error dx dy (walk twice dx dy k) < 2147483648 := by
    unfold Lost at h
    split at h
    · rename_i hle
      rcases Int.le_iff_lt_or_eq.mp hx with hpos | rfl
      · have := flat_window hy hle hpos k
        omega
      · obtain rfl := Int.le_antisymm hle hy
        simp [error]
    · rename_i hlt
      have := flat_window hx (by omega) (by omega : 0 < dy) k
      rw [error_swap] at this
      omega
  exact int32_eq hwindow.1 hwindow.2

/-- A walk that is lost stays lost, and does not come back to the error term of the end point. -/
theorem Lost.advance (hx : 0 ≤ dx) (hx' : dx < 2147483648) (hy : 0 ≤ dy) (hy' : dy < 2147483648)
    (h : Lost dx dy (error dx dy p)) : Lost dx dy (error dx dy (advance twice32 dx dy p)) ∧
      error dx dy (Bresenham.advance twice32 dx dy p) ≠ dx - dy := by
  obtain ⟨q, hq, hlow, hhigh⟩ := twice32_spec (error dx dy p)
  rw [error_advance]
  generalize error dx dy p = e at *
  generalize twice32 e = d at *
  unfold Lost at *
  split at h <;> rename_i hle
  · rw [if_pos hle]
    split <;> split <;> omega
  · rw [if_neg hle]
    split <;> split <;> omega

theorem walk32_spec (hx : 0 ≤ dx) (hx' : dx < 2147483648) (hy : 0 ≤ dy) (hy' : dy < 2147483648)
    (k : Nat) : (walk twice32 dx dy k = walk twice dx dy k ∧
        ∀ j < k, ¬Lost dx dy (error dx dy (walk twice dx dy j))) ∨
      (Lost dx dy (error dx dy (walk twice32 dx dy k)) ∧
        error dx dy (walk twice32 dx dy k) ≠ dx - dy) := by
  induction k with
  | zero => exact .inl ⟨rfl, fun _ hj => absurd hj (Nat.not_lt_zero _)⟩
  | succ k ih =>
    rw [walk_succ]
    rcases ih with ⟨heq, hbefore⟩ | ⟨hlost, -⟩
    · rw [heq]
      by_cases hlost : Lost dx dy (error dx dy (walk twice dx dy k))
      · exact .inr (hlost.advance hx hx' hy hy')
      · refine .inl ⟨?_, fun j hj => ?_⟩
        · rw [walk_succ, advance, advance, twice32_eq hx hx' hy hy' hlost]
        · rcases Nat.lt_succ_iff_lt_or_eq.mp hj with hlt | rfl
          · exact hbefore j hlt
          · exact hlost
    · exact .inr (hlost.advance hx hx' hy hy')

/-- Where the error term can be doubled all the way, the walk is the exact one up to the end. -/
theorem DoubleFits.walk32 (h : DoubleFits dx dy) (hx : 0 ≤ dx) (hx' : dx < 2147483648) (hy : 0 ≤ dy)
    (hy' : dy < 2147483648) (hk : k ≤ max dx dy) : walk twice32 dx dy k = walk twice dx dy k :=
  walk_congr fun j hj => twice32_eq hx hx' hy hy' ((doubleFits_iff hx hy).mp h j (by omega))

/-- The walk with 32 bits comes to (dx, dy) just when the error term can be doubled all the way. -/
theorem walk32_reaches_iff (hx : 0 ≤ dx) (hx' : dx < 2147483648) (hy : 0 ≤ dy)
    (hy' : dy < 2147483648) :
    (∃ k : Nat, k ≤ dx + dy ∧ walk twice32 dx dy k = (dx, dy)) ↔ DoubleFits dx dy := by
  have hline := straight hx hy
  constructor
  · rintro ⟨n, -, hn⟩
    rw [doubleFits_iff hx hy]
    rcases walk32_spec hx hx' hy hy' n with ⟨heq, hbefore⟩ | ⟨-, hne⟩
    · intro k hk
      refine hbefore k ?_
      by_contra hover
      exact hline.before n (by omega) (heq ▸ hn)
    · refine absurd ?_ hne
      rw [hn, error]
      ring
  · intro hfits
    refine ⟨(max dx dy).toNat, by omega, ?_⟩
    rw [hfits.walk32 hx hx' hy hy' (by omega), hline.last]

end AdamOS.Bresenham
