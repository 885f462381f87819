import AdamOS.Display.Canvas
import AdamOS.Lib.Bresenham
import Mathlib.Data.List.Range
import Mathlib.Data.Int.Order.Basic

/-! Where window_draw_line goes. The pen follows, in 32 bits, the walk over the two sides of the line's box,
and the walk comes to the end of the line as long as twice its error term is an int. -/
namespace AdamOS.Line
open AdamOS.Bresenham AdamOS.Drawing AdamOS.Vga AdamOS.Word
variable {σ : Type*} {l : Segment} {k n : Nat}

/-! ### The calls of the loop -/

/- The points with which the loop calls the function that sets a pixel, in order. -/
def calls (l : Segment) : Option (List (Int × Int)) := drawLine (fun x y ps => ps ++ [(x, y)]) l []

theorem drawFrom_calls {plot : Int → Int → σ → σ} (fuel : Nat) (p : Pen) (ps : List (Int × Int)) (s : σ) :
    drawFrom plot l fuel p (ps.foldl (fun s q => plot q.1 q.2 s) s) =
      (drawFrom (fun x y ps => ps ++ [(x, y)]) l fuel p ps).map
        fun qs => qs.foldl (fun s q => plot q.1 q.2 s) s := by
  induction fuel generalizing p ps with
  | zero => rfl
  | succ fuel ih =>
    have hplot : plot p.x p.y (ps.foldl (fun s q => plot q.1 q.2 s) s) =
        (ps ++ [(p.x, p.y)]).foldl (fun s q => plot q.1 q.2 s) s := by
      rw [List.foldl_append, List.foldl_cons, List.foldl_nil]
    rw [drawFrom, drawFrom, hplot]
    split
    · rfl
    · exact ih _ _

theorem drawLine_calls {plot : Int → Int → σ → σ} (s : σ) :
    drawLine plot l s = (calls l).map fun ps => ps.foldl (fun s q => plot q.1 q.2 s) s :=
  drawFrom_calls lineFuel l.start [] s

namespace Segment

def Ends (l : Segment) (n : Nat) : Prop :=
  l.arrived (l.advance^[n] l.start) = true ∧ ∀ k < n, l.arrived (l.advance^[k] l.start) = false

def point (l : Segment) (k : Nat) : Int × Int := ((l.advance^[k] l.start).x, (l.advance^[k] l.start).y)

end Segment

theorem drawFrom_ends {fuel j : Nat} (h : l.Ends n) (hj : j ≤ n) (hn : n < fuel + j) (ps : List (Int × Int)) :
    drawFrom (fun x y ps => ps ++ [(x, y)]) l fuel (l.advance^[j] l.start) ps =
      some (ps ++ (List.range' j (n + 1 - j)).map l.point) := by
  induction fuel generalizing j ps with
  | zero => omega
  | succ fuel ih =>
    have hpoint : ((l.advance^[j] l.start).x, (l.advance^[j] l.start).y) = l.point j := rfl
    rw [drawFrom, hpoint]
    rcases Nat.lt_or_eq_of_le hj with hlt | rfl
    · rw [if_neg (by rw [h.2 j hlt]; exact Bool.false_ne_true), ← Function.iterate_succ_apply' l.advance j,
        ih hlt (by omega), List.append_assoc, show n + 1 - j = (n + 1 - (j + 1)) + 1 by omega,
        List.range'_succ]
      rfl
    · rw [if_pos h.1, Nat.add_sub_cancel_left]
      rfl

theorem calls_of_ends (h : l.Ends n) (hn : n < lineFuel) :
    calls l = some ((List.range (n + 1)).map l.point) := by
  have hrun := drawFrom_ends h (Nat.zero_le n) (by omega : n < lineFuel + 0) []
  rw [List.range_eq_range']
  exact hrun

theorem drawFrom_some {plot : Int → Int → σ → σ} {fuel j : Nat} {s t : σ}
    (hgo : ∀ k < j, l.arrived (l.advance^[k] l.start) = false)
    (h : drawFrom plot l fuel (l.advance^[j] l.start) s = some t) :
    ∃ n, n < fuel + j ∧ l.Ends n := by
  induction fuel generalizing j s with
  | zero => cases h
  | succ fuel ih =>
    rw [drawFrom] at h
    split at h
    · rename_i harr
      exact ⟨j, by omega, harr, hgo⟩
    · rename_i hnot
      rw [← Function.iterate_succ_apply' l.advance j] at h
      obtain ⟨n, hn, hends⟩ := ih (fun k hk => by
        rcases Nat.lt_succ_iff_lt_or_eq.mp hk with hlt | rfl
        · exact hgo k hlt
        · exact Bool.eq_false_iff.mpr hnot) h
      exact ⟨n, by omega, hends⟩

theorem calls_some {ps : List (Int × Int)} (h : calls l = some ps) :
    ∃ n < lineFuel, l.Ends n ∧ ps = (List.range (n + 1)).map l.point := by
  obtain ⟨n, hn, hends⟩ := drawFrom_some (j := 0) (fun _ hk => absurd hk (Nat.not_lt_zero _)) h
  rw [calls_of_ends hends hn] at h
  exact ⟨n, hn, hends, (Option.some.inj h).symm⟩

/-! ### The pen and the walk -/

namespace Segment
variable (l : Segment)

def Ints : Prop :=
  (-2147483648 ≤ l.x0 ∧ l.x0 < 2147483648) ∧ (-2147483648 ≤ l.y0 ∧ l.y0 < 2147483648) ∧
    (-2147483648 ≤ l.x1 ∧ l.x1 < 2147483648) ∧ (-2147483648 ≤ l.y1 ∧ l.y1 < 2147483648)

/- The two differences, and their negations, are ints. -/
def Spans : Prop := |l.x1 - l.x0| < 2147483648 ∧ |l.y1 - l.y0| < 2147483648

instance : Decidable l.Ints := inferInstanceAs (Decidable (_ ∧ _))
instance : Decidable l.Spans := inferInstanceAs (Decidable (_ ∧ _))

def place (p : Int × Int) : Pen :=
  ⟨int32 (l.x0 + l.sx * p.1), int32 (l.y0 + l.sy * p.2), int32 (error l.dx l.dy p)⟩

end Segment

theorem abs_int32 {a b : Int} (h : |b - a| < 2147483648) : abs (int32 (b - a)) = |b - a| := by
  rw [abs_lt] at h
  rw [int32_eq (by omega) (by omega), abs]
  split
  · rw [int32_eq (by omega) (by omega), abs_of_neg (by assumption)]
    omega
  · rw [abs_of_nonneg (by omega)]

theorem sign_mul_abs {a b : Int} : (if a < b then 1 else -1) * |b - a| = b - a := by
  split
  · rw [abs_of_pos (by omega)]
    omega
  · rw [abs_of_nonpos (by omega)]
    omega

theorem int32_twice (a : Int) : int32 (2 * int32 a) = int32 (2 * a) := by
  unfold int32 toInt32 ofInt32 wrap
  omega

namespace Segment

theorem Spans.dx_eq (h : l.Spans) : l.dx = |l.x1 - l.x0| := abs_int32 h.1
theorem Spans.dy_eq (h : l.Spans) : l.dy = |l.y1 - l.y0| := abs_int32 h.2

theorem Spans.dx_range (h : l.Spans) : 0 ≤ l.dx ∧ l.dx < 2147483648 :=
  h.dx_eq ▸ ⟨abs_nonneg _, h.1⟩

theorem Spans.dy_range (h : l.Spans) : 0 ≤ l.dy ∧ l.dy < 2147483648 :=
  h.dy_eq ▸ ⟨abs_nonneg _, h.2⟩

theorem Spans.x_end (h : l.Spans) : l.x0 + l.sx * l.dx = l.x1 := by
  rw [h.dx_eq, sx, sign_mul_abs]
  omega

theorem Spans.y_end (h : l.Spans) : l.y0 + l.sy * l.dy = l.y1 := by
  rw [h.dy_eq, sy, sign_mul_abs]
  omega

theorem stepX_int32 (h : l.Spans) (e a y E : Int) : l.stepX e ⟨int32 (l.x0 + l.sx * a), y, int32 E⟩ =
    ⟨int32 (l.x0 + l.sx * if e > -l.dy then a + 1 else a), y, int32 (E - if e > -l.dy then l.dy else 0)⟩ := by
  have hdy : int32 (-l.dy) = -l.dy := by
    have := h.dy_range
    exact int32_eq (by omega) (by omega)
  rw [stepX, hdy]
  split
  · dsimp only
    rw [int32_add_int32, Int.add_assoc, ← mul_add_one, sub_eq_add_neg, int32_add_int32, ← sub_eq_add_neg]
  · rw [Int.sub_zero]

theorem stepY_int32 (e x b E : Int) : l.stepY e ⟨x, int32 (l.y0 + l.sy * b), int32 E⟩ =
    ⟨x, int32 (l.y0 + l.sy * if e < l.dx then b + 1 else b), int32 (E + if e < l.dx then l.dx else 0)⟩ := by
  rw [stepY]
  split
  · dsimp only
    rw [int32_add_int32, Int.add_assoc, ← mul_add_one, int32_add_int32]
  · rw [Int.add_zero]

/-- One round of the loop is one step of the walk. -/
theorem advance_place (h : l.Spans) (p : Int × Int) :
    l.advance (l.place p) = l.place (Bresenham.advance twice32 l.dx l.dy p) := by
  have herror2 : int32 (2 * (l.place p).error) = twice32 (error l.dx l.dy p) := int32_twice _
  have herror : ∀ a b : Int, error l.dx l.dy p - b + a = error l.dx l.dy p + a - b := fun a b => by omega
  unfold Segment.advance
  dsimp only
  rw [herror2, place, stepX_int32 h, stepY_int32, herror, ← error_advance]
  rfl

theorem iterate_place (hints : l.Ints) (h : l.Spans) (k : Nat) :
    l.advance^[k] l.start = l.place (walk twice32 l.dx l.dy k) := by
  induction k with
  | zero =>
    obtain ⟨hx, hy, -, -⟩ := hints
    have hstart : error l.dx l.dy (0, 0) = l.dx - l.dy := by
      unfold error
      ring
    change l.start = l.place (0, 0)
    rw [place, hstart]
    dsimp only
    rw [Int.mul_zero, Int.mul_zero, Int.add_zero, Int.add_zero, int32_eq hx.1 hx.2, int32_eq hy.1 hy.2]
    rfl
  | succ k ih => rw [Function.iterate_succ_apply', ih, advance_place h, ← walk_succ]

theorem sx_cases : l.sx = 1 ∨ l.sx = -1 := by
  unfold sx
  split
  · exact .inl rfl
  · exact .inr rfl

theorem sy_cases : l.sy = 1 ∨ l.sy = -1 := by
  unfold sy
  split
  · exact .inl rfl
  · exact .inr rfl

theorem int32_steps {z s a d : Int} (hs : s = 1 ∨ s = -1) (ha : 0 ≤ a ∧ a < 4294967296)
    (hd : 0 ≤ d ∧ d < 2147483648) (hz : -2147483648 ≤ z + s * d ∧ z + s * d < 2147483648) :
    int32 (z + s * a) = z + s * d ↔ a = d := by
  constructor
  · unfold int32 toInt32 ofInt32 wrap
    rcases hs with rfl | rfl <;> omega
  · rintro rfl
    exact int32_eq hz.1 hz.2

theorem arrived_place (hints : l.Ints) (h : l.Spans) {p : Int × Int} (ha : 0 ≤ p.1 ∧ p.1 < 4294967296)
    (hb : 0 ≤ p.2 ∧ p.2 < 4294967296) : l.arrived (l.place p) = true ↔ p = (l.dx, l.dy) := by
  obtain ⟨-, -, hx, hy⟩ := hints
  have hcol := int32_steps (z := l.x0) l.sx_cases ha h.dx_range (h.x_end.symm ▸ hx)
  have hrow := int32_steps (z := l.y0) l.sy_cases hb h.dy_range (h.y_end.symm ▸ hy)
  rw [h.x_end] at hcol
  rw [h.y_end] at hrow
  unfold arrived
  rw [Bool.and_eq_true, decide_eq_true_iff, decide_eq_true_iff, Prod.ext_iff]
  exact and_congr hcol hrow

theorem arrived_iterate (hints : l.Ints) (h : l.Spans) (hk : (k : Int) ≤ l.dx + l.dy) :
    l.arrived (l.advance^[k] l.start) = true ↔ walk twice32 l.dx l.dy k = (l.dx, l.dy) := by
  have hnn := @walk_nonneg twice32 l.dx l.dy k
  have hle := @walk_le twice32 l.dx l.dy k
  have hx := h.dx_range
  have hy := h.dy_range
  rw [iterate_place hints h, arrived_place hints h ⟨hnn.1, by omega⟩ ⟨hnn.2, by omega⟩]

theorem ends_of_fits (hints : l.Ints) (h : l.Spans) (hfits : DoubleFits l.dx l.dy) :
    l.Ends (max l.dx l.dy).toNat := by
  have hx := h.dx_range
  have hy := h.dy_range
  have hline := straight hx.1 hy.1
  constructor
  · rw [arrived_iterate hints h (by omega), hfits.walk32 hx.1 hx.2 hy.1 hy.2 (by omega), hline.last]
  · intro k hk
    rw [Bool.eq_false_iff, Ne, arrived_iterate hints h (by omega),
      hfits.walk32 hx.1 hx.2 hy.1 hy.2 (by omega)]
    exact hline.before k (by omega)

end Segment

/-! ### The points of a short line -/

def Toward (l : Segment) (p q : Int × Int) : Prop :=
  (q.1 = p.1 ∨ q.1 = p.1 + (l.x1 - p.1).sign) ∧ (q.2 = p.2 ∨ q.2 = p.2 + (l.y1 - p.2).sign)

/- A walk from one end of the line to the other, within half a step of it. -/
structure Walks (l : Segment) (ps : List (Int × Int)) : Prop where
  length : (ps.length : Int) = max |l.x1 - l.x0| |l.y1 - l.y0| + 1
  first : ps.head? = some (l.x0, l.y0)
  last : ps.getLast? = some (l.x1, l.y1)
  steps : ps.IsChain (Toward l)
  close : ∀ p ∈ ps, 2 * |(|l.x1 - l.x0| * |p.2 - l.y0| - |l.y1 - l.y0| * |p.1 - l.x0|)| ≤
    max |l.x1 - l.x0| |l.y1 - l.y0|

structure Short (l : Segment) : Prop where
  coordinates : (|l.x0| ≤ 2 ^ 30 ∧ |l.y0| ≤ 2 ^ 30) ∧ |l.x1| ≤ 2 ^ 30 ∧ |l.y1| ≤ 2 ^ 30
  differences : |l.x1 - l.x0| ≤ 2 ^ 28 ∧ |l.y1 - l.y0| ≤ 2 ^ 28

theorem Short.ints (h : Short l) : l.Ints := by
  obtain ⟨⟨⟨hx, hy⟩, hx', hy'⟩, -⟩ := h
  rw [abs_le] at hx hy hx' hy'
  exact ⟨by omega, by omega, by omega, by omega⟩

theorem Short.spans (h : Short l) : l.Spans :=
  ⟨Int.lt_of_le_of_lt h.differences.1 (by decide), Int.lt_of_le_of_lt h.differences.2 (by decide)⟩

theorem peak_lt {long short : Int} (hs : 0 ≤ short) (hle : short ≤ long) (hlong : long ≤ 2 ^ 28) :
    peak long short < 1073741824 := by
  rcases Int.le_iff_lt_or_eq.mp (Int.le_trans hs hle) with hpos | rfl
  · have hbelow : 2 * peak long short < 3 * long - 2 * short := two_peak_lt hpos
    omega
  · obtain rfl := Int.le_antisymm hle hs
    decide

theorem Short.fits (h : Short l) : DoubleFits l.dx l.dy := by
  have hx := h.spans.dx_range
  have hy := h.spans.dy_range
  have hx' := h.differences.1
  have hy' := h.differences.2
  rw [← h.spans.dx_eq] at hx'
  rw [← h.spans.dy_eq] at hy'
  unfold DoubleFits
  split
  · exact peak_lt hy.1 (by assumption) hx'
  · exact Int.le_of_lt (peak_lt hx.1 (by omega) hy')

theorem Short.point (h : Short l) (hk : k ≤ max l.dx l.dy) :
    l.point k = (l.x0 + l.sx * (walk twice l.dx l.dy k).1, l.y0 + l.sy * (walk twice l.dx l.dy k).2) := by
  have hx := h.spans.dx_range
  have hy := h.spans.dy_range
  have hx' := h.spans.dx_eq ▸ h.differences.1
  have hy' := h.spans.dy_eq ▸ h.differences.2
  obtain ⟨hx0, hy0⟩ := h.coordinates.1
  rw [abs_le] at hx0 hy0
  have hbox := (straight hx.1 hy.1).box k hk
  have hnn := @walk_nonneg twice l.dx l.dy k
  rw [Segment.point, Segment.iterate_place h.ints h.spans, h.fits.walk32 hx.1 hx.2 hy.1 hy.2 hk]
  refine Prod.ext (int32_eq ?_ ?_) (int32_eq ?_ ?_)
  · rcases l.sx_cases with hs | hs <;> rw [hs] <;> omega
  · rcases l.sx_cases with hs | hs <;> rw [hs] <;> omega
  · rcases l.sy_cases with hs | hs <;> rw [hs] <;> omega
  · rcases l.sy_cases with hs | hs <;> rw [hs] <;> omega

theorem sign_step {z s d a b : Int} (hs : s = 1 ∨ s = -1) (hle : b ≤ d) (hb : b = a ∨ b = a + 1) :
    z + s * b = z + s * a ∨ z + s * b = z + s * a + (z + s * d - (z + s * a)).sign := by
  rcases hb with rfl | rfl
  · exact .inl rfl
  · refine .inr ?_
    rcases hs with rfl | rfl
    · rw [Int.sign_eq_one_of_pos (by omega)]
      omega
    · rw [Int.sign_eq_neg_one_of_neg (by omega)]
      omega

theorem abs_steps {z s a : Int} (hs : s = 1 ∨ s = -1) (ha : 0 ≤ a) : |z + s * a - z| = a := by
  rw [add_sub_cancel_left]
  rcases hs with rfl | rfl
  · rw [Int.one_mul, abs_of_nonneg ha]
  · rw [Int.neg_one_mul, abs_neg, abs_of_nonneg ha]

theorem Short.walks (h : Short l) :
    Walks l ((List.range ((max l.dx l.dy).toNat + 1)).map l.point) := by
  have hx := h.spans.dx_range
  have hy := h.spans.dy_range
  have hline := straight hx.1 hy.1
  have hto : ((max l.dx l.dy).toNat : Int) = max l.dx l.dy := Int.toNat_of_nonneg (by omega)
  refine ⟨?_, ?_, ?_, ?_, fun p hp => ?_⟩
  · rw [List.length_map, List.length_range, ← h.spans.dx_eq, ← h.spans.dy_eq]
    omega
  · have hpoint := h.point (k := 0) (by omega)
    have hstart : walk twice l.dx l.dy 0 = (0, 0) := rfl
    rw [hstart, Int.mul_zero, Int.mul_zero, Int.add_zero, Int.add_zero] at hpoint
    rw [List.range_succ_eq_map, List.map_cons, List.head?_cons, hpoint]
  · have hpoint := h.point (k := (max l.dx l.dy).toNat) (by omega)
    rw [hline.last, h.spans.x_end, h.spans.y_end] at hpoint
    rw [List.range_succ, List.map_append, List.map_cons, List.map_nil, List.getLast?_concat, hpoint]
  · rw [List.isChain_map, List.isChain_range_succ]
    intro m hm
    have hbox := hline.box (m + 1) (by omega)
    have hstep := @walk_step twice l.dx l.dy m
    rw [h.point (by omega), h.point (by omega), Toward, ← h.spans.x_end, ← h.spans.y_end]
    exact ⟨sign_step l.sx_cases hbox.1 hstep.1, sign_step l.sy_cases hbox.2 hstep.2⟩
  · obtain ⟨k, hk, rfl⟩ := List.mem_map.mp hp
    have hnn := @walk_nonneg twice l.dx l.dy k
    have hk := List.mem_range.mp hk
    rw [h.point (by omega), ← h.spans.dx_eq, ← h.spans.dy_eq]
    dsimp only
    rw [abs_steps l.sx_cases hnn.1, abs_steps l.sy_cases hnn.2]
    exact hline.close k

/-- A short line ends after as many calls as its longer side has pixels, and the calls walk along it. -/
theorem windowDrawLine_walks (h : Short l) (color : UInt8) (c : Canvas) :
    ∃ ps, calls l = some ps ∧ Walks l ps ∧
      windowDrawLine l color c = some (ps.foldl (fun c p => windowPutPixel p.1 p.2 color c) c) := by
  have hx := h.spans.dx_range
  have hy := h.spans.dy_range
  have hends := Segment.ends_of_fits h.ints h.spans h.fits
  have hcalls := calls_of_ends hends (by unfold lineFuel; omega)
  refine ⟨_, hcalls, h.walks, ?_⟩
  rw [windowDrawLine, drawLine_calls, hcalls]
  rfl

def shortLine : Segment := ⟨3, 5, -4, 8⟩

theorem shortLine_walks : ∃ ps, calls shortLine = some ps ∧ Walks shortLine ps ∧
    windowDrawLine shortLine 7 ⟨[], 10, 10, 0, fun _ => 0, 0⟩ =
      some (ps.foldl (fun c p => windowPutPixel p.1 p.2 7 c) ⟨[], 10, 10, 0, fun _ => 0, 0⟩) :=
  windowDrawLine_walks ⟨by decide, by decide⟩ 7 ⟨[], 10, 10, 0, fun _ => 0, 0⟩

/-! ### Lines of any length -/

/- The loop breaks in one of its first |x1 - x0| + |y1 - y0| + 1 rounds. -/
def EndsInTime (l : Segment) : Prop :=
  ∃ ps, calls l = some ps ∧ (ps.length : Int) ≤ |l.x1 - l.x0| + |l.y1 - l.y0| + 1

/- The differences and twice the largest error term are ints. -/
def LineInRange (l : Segment) : Prop := l.Spans ∧ DoubleFits |l.x1 - l.x0| |l.y1 - l.y0|

instance : Decidable (LineInRange l) := inferInstanceAs (Decidable (_ ∧ _))

theorem endsInTime_iff (hints : l.Ints) (h : l.Spans) :
    EndsInTime l ↔ DoubleFits |l.x1 - l.x0| |l.y1 - l.y0| := by
  have hx := h.dx_range
  have hy := h.dy_range
  unfold EndsInTime
  rw [← h.dx_eq, ← h.dy_eq]
  constructor
  · rintro ⟨ps, hps, hlen⟩
    obtain ⟨n, -, hends, rfl⟩ := calls_some hps
    rw [List.length_map, List.length_range] at hlen
    rw [← walk32_reaches_iff hx.1 hx.2 hy.1 hy.2]
    exact ⟨n, by omega, (Segment.arrived_iterate hints h (by omega)).mp hends.1⟩
  · intro hfits
    refine ⟨_, calls_of_ends (Segment.ends_of_fits hints h hfits) (by unfold lineFuel; omega), ?_⟩
    rw [List.length_map, List.length_range]
    omega

/-- A line in range sets no pixel above or below its end points. -/
theorem LineInRange.visits (hints : l.Ints) (h : LineInRange l) {p : Pen} (hp : l.Visits p) :
    min l.y0 l.y1 ≤ p.y ∧ p.y ≤ max l.y0 l.y1 := by
  have hx := h.1.dx_range
  have hy := h.1.dy_range
  have hfits : DoubleFits l.dx l.dy := by
    rw [h.1.dx_eq, h.1.dy_eq]
    exact h.2
  obtain ⟨k, hk, rfl⟩ := hp.before (Segment.ends_of_fits hints h.1 hfits).1
  have hle : (k : Int) ≤ max l.dx l.dy := by omega
  rw [Segment.iterate_place hints h.1, hfits.walk32 hx.1 hx.2 hy.1 hy.2 hle]
  have hbox := ((straight hx.1 hy.1).box k hle).2
  have hnn := (@walk_nonneg twice l.dx l.dy k).2
  have hend := h.1.y_end
  obtain ⟨-, hy0, -, hy1⟩ := hints
  unfold Segment.place
  dsimp only
  generalize (walk twice l.dx l.dy k).2 = b at hbox hnn ⊢
  rcases l.sy_cases with hs | hs <;> rw [hs] at hend ⊢ <;> rw [int32_eq (by omega) (by omega)] <;> omega

theorem segment_ints (x0 y0 x1 y1 : Int32) : (segment x0 y0 x1 y1).Ints :=
  ⟨⟨x0.le_toInt, x0.toInt_lt⟩, ⟨y0.le_toInt, y0.toInt_lt⟩, ⟨x1.le_toInt, x1.toInt_lt⟩, y1.le_toInt, y1.toInt_lt⟩

/-- A line ends in time where its differences and twice the largest error term are ints, and a line whose
differences are ints does so only then. -/
theorem draw_line_ends_in_time (x0 y0 x1 y1 : Int32) :
    (LineInRange (segment x0 y0 x1 y1) → EndsInTime (segment x0 y0 x1 y1)) ∧
      ((segment x0 y0 x1 y1).Spans → EndsInTime (segment x0 y0 x1 y1) →
        LineInRange (segment x0 y0 x1 y1)) :=
  ⟨fun h => (endsInTime_iff (segment_ints x0 y0 x1 y1) h.1).mpr h.2,
    fun h hends => ⟨h, (endsInTime_iff (segment_ints x0 y0 x1 y1) h).mp hends⟩⟩

/-! ### A line that hangs -/

def longLine : Segment := segment 0 0 1073741824 0

/-- Twice an error term that is a multiple of 2^30 is never positive, so that x stays. -/
theorem longLine_advance {p : Pen} (hx : p.x = 0) (he : 1073741824 ∣ p.error) :
    (longLine.advance p).x = 0 ∧ 1073741824 ∣ (longLine.advance p).error := by
  have hdx : longLine.dx = 1073741824 := by decide
  have hdy : int32 (-longLine.dy) = 0 := by decide
  have herror2 : ¬int32 (2 * p.error) > 0 := by
    unfold int32 toInt32 ofInt32 wrap
    omega
  unfold Segment.advance Segment.stepX Segment.stepY
  dsimp only
  rw [hdx, hdy, if_neg herror2]
  split
  · refine ⟨hx, ?_⟩
    dsimp only
    unfold int32 toInt32 ofInt32 wrap
    omega
  · exact ⟨hx, he⟩

theorem longLine_stays (k : Nat) : (longLine.advance^[k] longLine.start).x = 0 ∧
    1073741824 ∣ (longLine.advance^[k] longLine.start).error := by
  induction k with
  | zero => decide
  | succ k ih =>
    rw [Function.iterate_succ_apply']
    exact longLine_advance ih.1 ih.2

theorem longLine_hangs : calls longLine = none ∧ ¬EndsInTime longLine ∧
    ∀ color c, windowDrawLine longLine color c = none := by
  have hcalls : calls longLine = none := by
    rw [Option.eq_none_iff_forall_ne_some]
    intro ps hps
    obtain ⟨n, -, hends, -⟩ := calls_some hps
    have hlast := hends.1
    rw [Segment.arrived, (longLine_stays n).1, Bool.and_eq_true, decide_eq_true_iff] at hlast
    exact absurd hlast.1 (by decide)
  refine ⟨hcalls, fun ⟨ps, hps, _⟩ => ?_, fun color c => ?_⟩
  · rw [hcalls] at hps
    cases hps
  · rw [windowDrawLine, drawLine_calls, hcalls]
    rfl

end AdamOS.Line
