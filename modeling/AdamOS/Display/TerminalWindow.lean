import AdamOS.Display.Desktop

/-! The terminal keeps the pointer that init_terminal got, while windows are freed by id, by
process and by a click on the close box. -/
namespace AdamOS.Desktop
open AdamOS.Lifecycle AdamOS.Scheduler AdamOS.Transition AdamOS.Windows
variable {c : DesktopConfig} {d d' : System} {ws ws' : WindowManager} {τ : Tag} {m : Mouse}

/- The window that terminal->window points to is listed, with the buffer it got at boot. -/
def TerminalLive (c : DesktopConfig) (d : System) : Prop :=
  ∃ w ∈ d.windows.windows, w.addr = d.terminalWindow ∧ w.pixelBuffer = c.buffer

def closedByTick (m : Mouse) (ws : WindowManager) : Option Window :=
  if pressed m then
    (clickTarget m.prevMouseX m.prevMouseY (beforeClick m ws).windows).filter fun w =>
      w.onCloseButton m.prevMouseX m.prevMouseY
  else none

/- The terminal's id; window_id starts at 1. -/
def terminalId : Nat := 1

/- destroy_window does not name the terminal's window, its close box is not pressed, and window_id
   has not come round to the terminal's id. -/
def TerminalSpared (d : System) : Input → Prop
  | .mouse _ => True
  | .entry ev _ =>
    (ev.entry = .timer → ∀ w ∈ closedByTick d.mouse d.windows, w.addr ≠ d.terminalWindow) ∧
      (Calls ev .destroyWindow → ev.regs.ebx ≠ terminalId) ∧
      (Calls ev .createWindow → d.windows.windowId ≠ terminalId)

instance (d : System) : (i : Input) → Decidable (TerminalSpared d i)
  | .mouse _ => .isTrue trivial
  | .entry .. => inferInstanceAs (Decidable (_ ∧ _ ∧ _))

/-! ### A window that stays -/

theorem removeWindow_keeps {id : Nat} (hmem : τ ∈ tags ws) (hid : τ.windowId ≠ id) :
    τ ∈ tags (removeWindow id ws) := by
  unfold removeWindow
  cases getWindow id ws with
  | none => exact hmem
  | some w =>
    obtain ⟨v, hv, rfl⟩ := List.mem_map.mp hmem
    have hne : ¬hasId id v = true := fun h => hid (of_decide_eq_true h)
    unfold tags
    rw [map_lowerAbove (lowerAbove_tag _)]
    exact List.mem_map_of_mem ((List.mem_eraseP_of_neg hne).mpr hv)

theorem removeWindowProcess_keeps {pid : Nat} (hmem : τ ∈ tags ws)
    (hid : ∀ σ ∈ tags ws, σ.pid = pid → τ.windowId ≠ σ.windowId) :
    τ ∈ tags (removeWindowProcess pid ws) := by
  have hall : ∀ w ∈ ws.windows, w.pid = pid → τ.windowId ≠ w.windowId :=
    fun w hw => hid w.tag (List.mem_map_of_mem hw)
  unfold removeWindowProcess
  generalize ws.windows = ks at hall
  induction ks generalizing ws with
  | nil => exact hmem
  | cons w ks ih =>
    have hrest : ∀ v ∈ ks, v.pid = pid → τ.windowId ≠ v.windowId :=
      fun v hv => hall v (List.mem_cons_of_mem _ hv)
    rw [List.foldl_cons]
    split
    · rename_i hpid
      have hkept := removeWindow_keeps hmem (hall w List.mem_cons_self hpid)
      exact ih hkept (fun σ hσ => hid σ ((removeWindow_tags _ ws).subset hσ)) hrest
    · exact ih hmem hid hrest

theorem updateWindowClick_keeps (hmem : τ ∈ tags ws)
    (hid : ∀ w, clickTarget m.prevMouseX m.prevMouseY ws.windows = some w →
      w.onCloseButton m.prevMouseX m.prevMouseY = true → τ.windowId ≠ w.windowId) :
    τ ∈ tags (updateWindowClick m ws) := by
  unfold updateWindowClick
  cases hc : clickTarget m.prevMouseX m.prevMouseY ws.windows with
  | none => exact hmem
  | some clicked =>
    dsimp only
    split
    · rename_i hclose
      exact removeWindow_keeps (focusClicked_tags clicked ws ▸ hmem) (hid clicked hc hclose)
    · rw [updateFocusedWindow_tags, tags_congr (startDrag_standing _ _ _), focusClicked_tags]
      exact hmem

theorem updateWindow_keeps (hmem : τ ∈ tags ws)
    (hid : ∀ w ∈ closedByTick m ws, τ.windowId ≠ w.windowId) : τ ∈ tags (updateWindow m ws).1 := by
  have hbefore : τ ∈ tags (beforeClick m ws) := beforeClick_tags m ws ▸ hmem
  rw [updateWindow_windows]
  split
  · rename_i hp
    refine updateWindowClick_keeps hbefore fun w hw hclose => hid w ?_
    unfold closedByTick
    rw [if_pos hp]
    exact Option.mem_filter_iff.mpr ⟨hw, hclose⟩
  · exact hbefore

/-! ### Steps and runs -/

def terminalTag (c : DesktopConfig) : Tag := ⟨c.block, terminalId, 0, c.buffer⟩

structure TerminalKept (c : DesktopConfig) (d : System) : Prop where
  pointer : d.terminalWindow = c.block
  listed : terminalTag c ∈ tags d.windows
  only : ∀ τ ∈ tags d.windows, τ.windowId = terminalId → τ = terminalTag c

theorem TerminalKept.live (h : TerminalKept c d) : TerminalLive c d := by
  obtain ⟨w, hw, ht⟩ := List.mem_map.mp h.listed
  exact ⟨w, hw, (congrArg Tag.addr ht).trans h.pointer.symm, congrArg Tag.pixelBuffer ht⟩

theorem boot_terminalKept (c : DesktopConfig) : TerminalKept c (bootSystem c) :=
  ⟨rfl, List.mem_singleton_self _, fun _ h _ => List.mem_singleton.mp h⟩

theorem closedByTick_tag {w : Window} (h : w ∈ closedByTick m ws) : w.tag ∈ tags ws := by
  unfold closedByTick at h
  split at h
  · rw [← beforeClick_tags m ws]
    exact List.mem_map_of_mem (clickTarget_mem (Option.mem_filter_iff.mp h).1)
  · cases h

/-- Nothing else has the terminal's id, its process or its address. -/
theorem TerminalKept.apart (h : TerminalKept c d) {τ : Tag} (hτ : τ ∈ tags d.windows)
    (hne : τ.addr ≠ d.terminalWindow ∨ τ.pid ≠ 0) : (terminalTag c).windowId ≠ τ.windowId := by
  intro he
  have := h.only τ hτ he.symm
  subst this
  rcases hne with hne | hne
  · exact hne h.pointer.symm
  · exact hne rfl

/-- What leaves out windows only keeps the terminal's the only one with its id. -/
theorem TerminalKept.only_of_sublist (h : TerminalKept c d) (hs : (tags ws').Sublist (tags d.windows)) :
    ∀ τ ∈ tags ws', τ.windowId = terminalId → τ = terminalTag c :=
  fun τ hτ => h.only τ (hs.subset hτ)

theorem TerminalKept.changes {ev : Lifecycle.Event} {g : Graphics} (h : TerminalKept c d)
    (hg : TerminalSpared d (.entry ev g)) {s : Sched}
    (hc : Changes (seen d ev) g d.mouse s d.windows ws') :
    terminalTag c ∈ tags ws' ∧ ∀ τ ∈ tags ws', τ.windowId = terminalId → τ = terminalTag c := by
  obtain ⟨htick, hdestroy, hcreate⟩ := hg
  cases hc with
  | same he => exact he ▸ ⟨h.listed, h.only⟩
  | tick he =>
    refine ⟨updateWindow_keeps h.listed fun w hw => ?_, h.only_of_sublist (updateWindow_tags _ _)⟩
    exact h.apart (closedByTick_tag hw) (.inl (htick (seen_timer.mp he) w hw))
  | interrupt h0 =>
    refine ⟨removeWindowProcess_keeps h.listed fun σ hσ hp => ?_,
      h.only_of_sublist (removeWindowProcess_tags _ _)⟩
    exact h.apart hσ (.inr (hp ▸ h0))
  | create hcall _ hw =>
    obtain ⟨-, rfl⟩ := wmCreateWindow_cases hw
    unfold tags
    dsimp only
    split
    · exact ⟨h.listed, h.only⟩
    · rw [List.map_append, List.map_singleton]
      refine ⟨List.mem_append_left _ h.listed, fun τ hτ hid => ?_⟩
      rcases List.mem_append.mp hτ with hτ | hτ
      · exact h.only τ hτ hid
      · rw [List.mem_singleton.mp hτ] at hid
        exact absurd hid (hcreate (seen_calls.mp hcall))
  | destroy hcall =>
    exact ⟨removeWindow_keeps h.listed (hdestroy (seen_calls.mp hcall)).symm,
      h.only_of_sublist (removeWindow_tags _ _)⟩

theorem TerminalKept.step {i : Input} (h : TerminalKept c d) (hg : TerminalSpared d i)
    (hs : systemStep d i = some d') : TerminalKept c d' := by
  cases i with
  | mouse m =>
    cases hs
    exact ⟨h.pointer, h.listed, h.only⟩
  | entry ev g =>
    obtain ⟨-, hw, hp⟩ := systemStep_entry hs
    obtain ⟨hl, ho⟩ := h.changes hg hw
    exact ⟨hp.trans h.pointer, hl, ho⟩

/-- As long as nothing destroys the terminal's window, the terminal prints into it. -/
theorem terminal_live (hr : Reach systemStep TerminalSpared (bootSystem c) d) : TerminalLive c d :=
  (hr.invariant (TerminalKept c) (boot_terminalKept c) fun _ _ _ h hg hs => h.step hg hs).live

/-! ### A window of main, and destroy_window(1) -/

def sampleDesktop : DesktopConfig :=
  ⟨sampleBoot, 0x120000, 0x130000, ⟨400, 300, 400, 300, 0, 0⟩, by decide, by decide⟩

def noGraphics : Graphics := ⟨0, 0, smallWindow 0 0 (lettered 0)⟩

def windowCall (eax ebx : Nat) : Input :=
  .entry (call eax ebx 0) ⟨0x140000, 0x150000, smallWindow 500 100 (lettered 4)⟩

def pressAt (x y : Int) : List Input := [.mouse ⟨x, y, x, y, 1, 0⟩, .entry timerTick noGraphics]

/- main creates a window; a press raises it, one raises the terminal, and one closes it. -/
def closeRun : List Input :=
  [windowCall 18 0] ++ pressAt 505 160 ++ pressAt 100 100 ++ pressAt 530 140

theorem closeRun_live : ∃ d, Reach systemStep TerminalSpared (bootSystem sampleDesktop) d ∧
    d.windows.windows.map Window.windowId = [1] ∧ TerminalLive sampleDesktop d := by
  obtain ⟨d, hr, hids⟩ : ∃ d, Reach systemStep TerminalSpared (bootSystem sampleDesktop) d ∧
      d.windows.windows.map Window.windowId = [1] :=
    reach_of_test closeRun (by decide +kernel) (by decide +kernel)
  exact ⟨d, hr, hids, terminal_live hr⟩

/-- destroy_window(1) of any process frees the terminal's window. -/
theorem destroyed_terminal_stale :
    ¬ ∀ c d, Reach systemStep anyStep (bootSystem c) d → TerminalLive c d := by
  intro hall
  obtain ⟨d, hr, hnone⟩ : ∃ d, Reach systemStep anyStep (bootSystem sampleDesktop) d ∧
      d.windows.windows.length = 0 :=
    reach_of_test [windowCall 23 1] (guarded_anyStep _ _) (by decide +kernel)
  obtain ⟨w, hw, -⟩ := hall sampleDesktop d hr
  rw [List.eq_nil_of_length_eq_zero hnone] at hw
  cases hw

end AdamOS.Desktop
