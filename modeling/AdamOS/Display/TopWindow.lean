import AdamOS.Display.DrawWindow
import AdamOS.Lib.Highest

/-! Two paths decide which window is on top: wm_composite draws in the order of z_index and the
focused window last; update_window_click takes the largest z_index where the mouse was. -/
namespace AdamOS.Windows
open AdamOS.Highest AdamOS.Transition AdamOS.Vga
variable {D : Surface} {s t : WindowManager} {ws : List Window} {w : Window} {m : Mouse}

/- The window that was drawn last at a pixel. -/
def topmostAt (D : Surface) (px py : Int) (drawn : List Window) : Option Window :=
  drawn.reverse.find? fun w => w.shownAt D px py

def ClickGoesToTop (D : Surface) (m : Mouse) (s : WindowManager) : Prop :=
  ∃ drawn, wmComposite s.windows = some drawn ∧
    clickTarget m.prevMouseX m.prevMouseY s.windows = topmostAt D m.mouseX m.mouseY drawn

/- The stored position lies in the windows that are drawn at the cursor. -/
def AimedAtCursor (D : Surface) (m : Mouse) (s : WindowManager) : Prop :=
  ∀ w ∈ s.windows, w.covers m.prevMouseX m.prevMouseY = w.shownAt D m.mouseX m.mouseY

def FocusedOnTop (D : Surface) (m : Mouse) (s : WindowManager) : Prop :=
  ∀ v ∈ s.windows, v.isFocused = true → v.shownAt D m.mouseX m.mouseY = true →
    ∀ w ∈ s.windows, w.shownAt D m.mouseX m.mouseY = true → w.zIndex ≤ v.zIndex

/-! ### The two orders -/

theorem mem_backWindows (h : Stacked s) :
    w ∈ backWindows s ↔ w ∈ s.windows ∧ w.isFocused = false := by
  rw [backWindows, List.mem_filter, h.sorted_perm.mem_iff, Bool.not_eq_true']

theorem focused_of_mem (h : Stacked s) (hw : w ∈ s.windows) (hf : w.isFocused = true) :
    wmGetFocusedWindow s = some w := by
  have hmem : w ∈ (wmGetFocusedWindow s).toList := h.focused ▸ List.mem_filter.mpr ⟨hw, hf⟩
  exact Option.mem_toList.mp hmem

theorem clickTarget_highest (px py : Int) (ws : List Window) :
    IsHighest Window.zIndex (fun w => w.covers px py) ws (clickTarget px py ws) :=
  isHighest_foldl Window.zIndex _ ws

/-- A focused window that is seen at a pixel is on top there. -/
theorem topmost_focused {px py : Int} (hf : wmGetFocusedWindow s = some w)
    (hw : w.shownAt D px py = true) :
    topmostAt D px py (backWindows s ++ (wmGetFocusedWindow s).toList) = some w := by
  rw [hf, Option.toList_some, topmostAt, List.reverse_append, List.reverse_singleton,
    List.singleton_append, List.find?_cons, hw]

theorem topmost_highest (h : Stacked s) {px py : Int}
    (hno : ∀ v ∈ s.windows, v.isFocused = true → v.shownAt D px py = false) :
    IsHighest Window.zIndex (fun w => w.shownAt D px py) s.windows
      (topmostAt D px py (backWindows s ++ (wmGetFocusedWindow s).toList)) := by
  have htop : (wmGetFocusedWindow s).toList.reverse.find? (fun w => w.shownAt D px py) = none := by
    refine List.find?_eq_none.mpr fun v hv => ?_
    have hmem : v ∈ s.windows.filter Window.isFocused := h.focused ▸ List.mem_reverse.mp hv
    rw [hno v (List.mem_filter.mp hmem).1 (List.mem_filter.mp hmem).2]
    exact Bool.false_ne_true
  have hback := isHighest_last (p := fun w => w.shownAt D px py)
    ((sortedUpTo_sorted s.windows s.windows.length).filter fun w => !w.isFocused)
  rw [topmostAt, List.reverse_append, List.find?_append, htop, Option.none_or]
  refine ⟨fun w hw => ?_, fun w hw hp => ?_⟩
  · obtain ⟨hmem, hp⟩ := hback.mem w hw
    exact ⟨((mem_backWindows h).mp hmem).1, hp⟩
  · refine hback.top w ((mem_backWindows h).mpr ⟨hw, ?_⟩) hp
    exact Bool.eq_false_iff.mpr fun hf => Bool.false_ne_true ((hno w hw hf).symm.trans hp)

/-- Where the stored position and the cursor lie in the same windows, the press goes to the window
on top exactly when no window lies above a focused one. -/
theorem click_target_topmost
    (hr : Reach windowStep (fun s c => CreateServed c ∧ CreateCounted s c) initial s)
    (D : Surface) (m : Mouse) (ha : AimedAtCursor D m s) :
    ClickGoesToTop D m s ↔ FocusedOnTop D m s := by
  obtain ⟨h, hlen⟩ := reach_stacked hr
  have hclick := (clickTarget_highest m.prevMouseX m.prevMouseY s.windows).congr ha
  have hinj : ∀ v ∈ s.windows, ∀ w ∈ s.windows, v.zIndex = w.zIndex → v = w :=
    fun v hv w hw he => h.inj hv hw he
  have hdrawn : ClickGoesToTop D m s ↔ clickTarget m.prevMouseX m.prevMouseY s.windows =
      topmostAt D m.mouseX m.mouseY (backWindows s ++ (wmGetFocusedWindow s).toList) := by
    unfold ClickGoesToTop
    rw [h.wmComposite hlen]
    simp only [Option.some.injEq, exists_eq_left']
  rw [hdrawn]
  by_cases hv : ∃ v ∈ s.windows, v.isFocused = true ∧ v.shownAt D m.mouseX m.mouseY = true
  · obtain ⟨v, hmem, hf, hshown⟩ := hv
    rw [topmost_focused (focused_of_mem h hmem hf) hshown]
    constructor
    · intro he v' hmem' hf' _ w hw hp
      have hv' : v' = v :=
        Option.some.inj ((focused_of_mem h hmem' hf').symm.trans (focused_of_mem h hmem hf))
      obtain ⟨y, hy, hle⟩ := hclick.top w hw hp
      cases Option.mem_unique hy he
      exact hv' ▸ hle
    · intro hon
      refine hclick.unique ⟨fun w hw => ?_, fun w hw hp => ⟨v, rfl, hon v hmem hf hshown w hw hp⟩⟩ hinj
      cases hw
      exact ⟨hmem, hshown⟩
  · have hno : ∀ v ∈ s.windows, v.isFocused = true → v.shownAt D m.mouseX m.mouseY = false :=
      fun v hmem hf => Bool.eq_false_iff.mpr fun hshown => hv ⟨v, hmem, hf, hshown⟩
    refine ⟨fun _ v hmem hf hshown => absurd ⟨v, hmem, hf, hshown⟩ hv, fun _ => ?_⟩
    exact hclick.unique (topmost_highest h hno) hinj

/-! ### Presses on overlapping windows -/

theorem aimed_of_fits (hfit : ∀ w ∈ s.windows, w.Fits) {px py : Nat} (hpx : px < D.screen.width)
    (hpy : py < D.screen.height) (buttons prevButtons : Nat) :
    AimedAtCursor D ⟨px, py, px, py, buttons, prevButtons⟩ s :=
  fun w hw => ((hfit w hw).shownAt D hpx hpy).symm

instance (D : Surface) (m : Mouse) (s : WindowManager) : Decidable (FocusedOnTop D m s) :=
  inferInstanceAs (Decidable (∀ v ∈ s.windows, _ → _ → ∀ w ∈ s.windows, _ → _))

def common : Mouse := ⟨15, 60, 15, 60, 1, 0⟩

def sampleSurface : Surface := ⟨mode103, fun _ _ => 255, fun _ _ => 0⟩

def lowerLeft : WindowCall := .create 16 32 (smallWindow 0 0 (lettered 4)) 3
def upperRight : WindowCall := .create 48 64 (smallWindow 10 10 (lettered 4)) 3

theorem raised_window_hit : ∃ s,
    Reach windowStep (fun s c => CreateServed c ∧ CreateCounted s c) initial s ∧
    (clickTarget common.prevMouseX common.prevMouseY s.windows).map Window.windowId = some 1 ∧
    ClickGoesToTop sampleSurface common s := by
  obtain ⟨s, hr, ⟨hid, hfit⟩, hon⟩ : ∃ s,
      Reach windowStep (fun s c => CreateServed c ∧ CreateCounted s c) initial s ∧
      ((clickTarget common.prevMouseX common.prevMouseY s.windows).map Window.windowId = some 1 ∧
        ∀ w ∈ s.windows, w.Fits) ∧ FocusedOnTop sampleSurface common s :=
    reach_of_test [lowerLeft, upperRight, press 5 35] (by decide +kernel) (by decide +kernel)
  have haimed : AimedAtCursor sampleSurface common s := aimed_of_fits hfit (by decide) (by decide) 1 0
  exact ⟨s, hr, hid, (click_target_topmost hr sampleSurface common haimed).mpr hon⟩

/-- A window created over a focused one has the largest z_index and is drawn below it. -/
theorem new_window_steals_click : ¬ ∀ s, Reach windowStep anyStep initial s →
    ∀ D m, ClickGoesToTop D m s := by
  intro hall
  obtain ⟨s, hr, hc, hd⟩ : ∃ s, Reach windowStep anyStep initial s ∧
      (clickTarget common.prevMouseX common.prevMouseY s.windows).map Window.windowId = some 2 ∧
      ((wmComposite s.windows).bind fun drawn =>
        topmostAt sampleSurface common.mouseX common.mouseY drawn).map Window.windowId = some 1 :=
    reach_of_test [lowerLeft, press 5 35, upperRight] (guarded_anyStep _ _) (by decide +kernel)
  obtain ⟨drawn, hdrawn, he⟩ := hall s hr sampleSurface common
  rw [hdrawn, Option.bind_some, ← he, hc] at hd
  exact absurd hd (by decide)

end AdamOS.Windows
