import AdamOS.Lib.Word
import Mathlib.Algebra.Group.Nat.Defs
import Mathlib.Logic.Function.Iterate

/-! The loop of vga_draw_line and window_draw_line, which differ in the function that sets a
pixel. -/
namespace AdamOS.Line
open AdamOS.Word
variable {σ : Type*}

structure Segment where
  (x0 y0 x1 y1 : Int)
deriving DecidableEq, Repr

structure Pen where
  (x y error : Int)
deriving DecidableEq, Repr

/- abs of math.c -/
def abs (i : Int) : Int := if i < 0 then int32 (i * -1) else i

namespace Segment
variable (l : Segment)

def dx : Int := abs (int32 (l.x1 - l.x0))
def dy : Int := abs (int32 (l.y1 - l.y0))
def sx : Int := if l.x0 < l.x1 then 1 else -1
def sy : Int := if l.y0 < l.y1 then 1 else -1

def start : Pen := ⟨l.x0, l.y0, int32 (l.dx - l.dy)⟩

def arrived (p : Pen) : Bool := p.x = l.x1 && p.y = l.y1

def stepX (error2 : Int) (p : Pen) : Pen :=
  if error2 > int32 (-l.dy) then ⟨int32 (p.x + l.sx), p.y, int32 (p.error - l.dy)⟩ else p

def stepY (error2 : Int) (p : Pen) : Pen :=
  if error2 < l.dx then ⟨p.x, int32 (p.y + l.sy), int32 (p.error + l.dx)⟩ else p

def advance (p : Pen) : Pen :=
  let error2 := int32 (2 * p.error)
  l.stepY error2 (l.stepX error2 p)

def Visits (p : Pen) : Prop :=
  ∃ n, p = l.advance^[n] l.start ∧ ∀ k < n, l.arrived (l.advance^[k] l.start) = false

theorem advance_y (p : Pen) : (l.advance p).y = p.y ∨ (l.advance p).y = int32 (p.y + l.sy) := by
  have hx : ∀ e, (l.stepX e p).y = p.y := fun e => by
    unfold stepX
    split <;> rfl
  unfold advance stepY
  dsimp only
  split
  · exact .inr (by rw [hx])
  · exact .inl (hx _)

theorem Visits.y_lt {l : Segment} {p : Pen} (h : l.Visits p) (hy : l.y0 < 2147483648) :
    p.y < 2147483648 := by
  obtain ⟨n, rfl, -⟩ := h
  induction n with
  | zero => exact hy
  | succ n ih =>
    rw [Function.iterate_succ_apply']
    rcases l.advance_y (l.advance^[n] l.start) with he | he
    · exact he ▸ ih
    · exact he ▸ (int32_bounds _).2

/-- A line that arrives in round m sets no pixel after it. -/
theorem Visits.before {l : Segment} {p : Pen} {m : Nat}
    (hm : l.arrived (l.advance^[m] l.start) = true) (h : l.Visits p) :
    ∃ n ≤ m, p = l.advance^[n] l.start := by
  obtain ⟨n, rfl, hn⟩ := h
  refine ⟨n, Nat.le_of_not_lt fun hlt => ?_, rfl⟩
  rw [hn m hlt] at hm
  cases hm

end Segment

def drawFrom (plot : Int → Int → σ → σ) (l : Segment) : Nat → Pen → σ → Option σ
  | 0, _, _ => none
  | fuel+1, p, s =>
    if l.arrived p then some (plot p.x p.y s)
    else drawFrom plot l fuel (l.advance p) (plot p.x p.y s)

/- x0, y0 and error have 2^96 values: a loop that has not ended by then runs in a circle. -/
def lineFuel : Nat := 2 ^ 96

/- none is a loop that never ends. -/
def drawLine (plot : Int → Int → σ → σ) (l : Segment) (s : σ) : Option σ :=
  drawFrom plot l lineFuel l.start s

theorem drawFrom_keeps {plot : Int → Int → σ → σ} {l : Segment} (inv : σ → Prop)
    (hstep : ∀ p, l.Visits p → ∀ s, inv s → inv (plot p.x p.y s)) {fuel n : Nat} {s t : σ}
    (hn : ∀ k < n, l.arrived (l.advance^[k] l.start) = false) (hs : inv s)
    (h : drawFrom plot l fuel (l.advance^[n] l.start) s = some t) : inv t := by
  induction fuel generalizing n s with
  | zero => cases h
  | succ fuel ih =>
    have hplot := hstep _ ⟨n, rfl, hn⟩ s hs
    rw [drawFrom] at h
    split at h
    · cases h
      exact hplot
    · rename_i hgo
      rw [← Function.iterate_succ_apply' l.advance n] at h
      refine ih (fun k hk => ?_) hplot h
      rcases Nat.lt_or_eq_of_le (Nat.le_of_lt_succ hk) with hlt | heq
      · exact hn k hlt
      · exact heq ▸ Bool.eq_false_iff.mpr hgo

theorem drawLine_keeps {plot : Int → Int → σ → σ} {l : Segment} (inv : σ → Prop)
    (hstep : ∀ p, l.Visits p → ∀ s, inv s → inv (plot p.x p.y s)) {s t : σ} (hs : inv s)
    (h : drawLine plot l s = some t) : inv t :=
  drawFrom_keeps inv hstep (fun _ hk => absurd hk (Nat.not_lt_zero _)) hs h

end AdamOS.Line
