import AdamOS.Display.MouseInput

/-! is_dragging of the windows, and the two drag offsets that all of them share. A press is found
between two packets, a release by the button that the timer sees. -/
namespace AdamOS.Desktop
open AdamOS.Lifecycle AdamOS.ListUpdate AdamOS.Process AdamOS.Scheduler AdamOS.Transition AdamOS.Vga
open AdamOS.Windows AdamOS.Word

def cursorFrom (m : Mouse) (x y : Int) : Int × Int := (int32 (m.mouseX - x), int32 (m.mouseY - y))

def dragOffset (ws : WindowManager) : Int × Int := (ws.dragOffsetX, ws.dragOffsetY)

/- The window whose is_dragging update_window_click sets in this tick. -/
def grabbed (m : Mouse) (ws : WindowManager) : Option Window :=
  if pressed m then
    (clickTarget m.prevMouseX m.prevMouseY (beforeClick m ws).windows).filter fun w =>
      !w.onCloseButton m.prevMouseX m.prevMouseY && decide (m.prevMouseY < int32 (w.y + headerOffset))
  else none

structure DragWatch where
  system : System
  driver : MouseDriver
  /- no packet has come since the last tick -/
  ticked : Bool
  /- the offsets stored when the window at an address was last grabbed -/
  recorded : Nat → Int × Int

def startDragWatch (d : System) : DragWatch := ⟨d, ⟨0, 0, 0, 0⟩, false, fun _ => (0, 0)⟩

def noteGrab (m : Mouse) (ws ws' : WindowManager) (recorded : Nat → Int × Int) : Nat → Int × Int :=
  match grabbed m ws with
  | none => recorded
  | some w => fun a => if a = w.addr then dragOffset ws' else recorded a

def dragWatch (S : Screen) (w : DragWatch) : Interrupt → Option DragWatch
  | .packet p =>
    let x := takePacket S p (w.driver, w.system.mouse)
    (systemStep w.system (.mouse x.2)).map fun d =>
      { w with system := d, driver := x.1, ticked := false }
  | .entry ev g =>
    (systemStep w.system (.entry ev g)).map fun d =>
      if ev.entry = .timer then
        { w with
          system := d
          ticked := true
          recorded := noteGrab w.system.mouse w.system.windows d.windows w.recorded }
      else { w with system := d }

/- At most one window has is_dragging, and after a tick the cursor is where it was in the window when
   the drag started. -/
structure DragsOne (w : DragWatch) : Prop where
  one : w.system.windows.windows.countP Window.isDragging ≤ 1
  held : w.ticked → ∀ v ∈ w.system.windows.windows, v.isDragging →
    cursorFrom w.system.mouse v.x v.y = w.recorded v.addr

/- A tick that grabs a window finds that the last packet has not moved the cursor, and no other window
   with is_dragging. No title of a new window reaches is_dragging. -/
def GrabsAlone (w : DragWatch) : Interrupt → Prop
  | .packet _ => True
  | .entry ev g =>
    (ev.entry = .timer → ∀ v ∈ grabbed w.system.mouse w.system.windows,
      hasMoved w.system.mouse = false ∧
        ∀ u ∈ w.system.windows.windows, u.isDragging → u.addr = v.addr) ∧
      (Calls ev .createWindow → g.request.title.chars.length ≤ titleDragging)

instance (w : DragWatch) : (i : Interrupt) → Decidable (GrabsAlone w i)
  | .packet _ => .isTrue trivial
  | .entry .. => inferInstanceAs (Decidable (_ ∧ _))

/-! ### Positions of the windows -/

structure Pose where
  addr : Nat
  (x y : Int)
  isDragging : Bool

def pose (w : Window) : Pose := ⟨w.addr, w.x, w.y, w.isDragging⟩

def poses (ws : WindowManager) : List Pose := ws.windows.map pose

/- update_window_drag -/
def Pose.drag (m : Mouse) (offset : Int × Int) (p : Pose) : Pose :=
  if !p.isDragging then p
  else if m.mouseButtons % 2 = 0 then { p with isDragging := false }
  else { p with x := int32 (m.mouseX - offset.1), y := int32 (m.mouseY - offset.2) }

def Pose.grab (a : Nat) (p : Pose) : Pose := if p.addr = a then { p with isDragging := true } else p

section Poses
variable {ws ws' : WindowManager} {m : Mouse} {v w : Window} {id pid : Nat}

theorem drag_poses (m : Mouse) (ws : WindowManager) :
    poses (updateWindowDrag m ws) = (poses ws).map (Pose.drag m (dragOffset ws)) := by
  unfold poses updateWindowDrag
  rw [List.map_map, List.map_map]
  refine List.map_congr_left fun w _ => ?_
  unfold Function.comp dragWindow pose Pose.drag
  dsimp only
  split
  · rfl
  · split <;> rfl

theorem queues_poses (h : QueuesOnly ws ws') :
    poses ws' = poses ws ∧ dragOffset ws' = dragOffset ws := by
  refine ⟨h.field fun _ => rfl, ?_⟩
  rw [h.rest]
  rfl

theorem lowerAbove_pose (k : Nat) (w : Window) : pose (lowerAbove k w) = pose w := by
  unfold lowerAbove
  split <;> rfl

theorem removeWindow_poses (id : Nat) (ws : WindowManager) :
    (poses (removeWindow id ws)).Sublist (poses ws) ∧
      dragOffset (removeWindow id ws) = dragOffset ws := by
  unfold removeWindow poses
  cases getWindow id ws with
  | none => exact ⟨.refl _, rfl⟩
  | some w =>
    dsimp only
    rw [map_lowerAbove (lowerAbove_pose _)]
    exact ⟨List.eraseP_sublist.map _, rfl⟩

theorem removeWindowProcess_poses (pid : Nat) (ws : WindowManager) :
    (poses (removeWindowProcess pid ws)).Sublist (poses ws) ∧
      dragOffset (removeWindowProcess pid ws) = dragOffset ws := by
  unfold removeWindowProcess
  generalize ws.windows = ks
  induction ks generalizing ws with
  | nil => exact ⟨.refl _, rfl⟩
  | cons w ks ih =>
    rw [List.foldl_cons]
    split
    · obtain ⟨hsub, hoff⟩ := removeWindow_poses w.windowId ws
      exact ⟨(ih _).1.trans hsub, (ih _).2.trans hoff⟩
    · exact ih ws

theorem focusClicked_poses (clicked : Window) (ws : WindowManager) :
    poses (focusClicked clicked ws) = poses ws ∧
      dragOffset (focusClicked clicked ws) = dragOffset ws :=
  ⟨focusClicked_map clicked ws (lowerAbove_pose _) (fun _ _ => rfl) fun _ _ => rfl, rfl⟩

theorem beforeClick_poses (m : Mouse) (ws : WindowManager) :
    poses (beforeClick m ws) = (poses ws).map (Pose.drag m (dragOffset ws)) ∧
      dragOffset (beforeClick m ws) = dragOffset ws := by
  unfold beforeClick
  rw [← drag_poses]
  split
  · exact queues_poses (updateFocusedWindow_queues _ _)
  · exact ⟨rfl, rfl⟩

theorem tick_ungrabbed (h : grabbed m ws = none) :
    (poses (updateWindow m ws).1).Sublist ((poses ws).map (Pose.drag m (dragOffset ws))) ∧
      dragOffset (updateWindow m ws).1 = dragOffset ws := by
  obtain ⟨hposes, hoff⟩ := beforeClick_poses m ws
  rw [updateWindow_windows]
  split
  · rename_i hp
    unfold grabbed at h
    rw [if_pos hp] at h
    rw [← hposes, ← hoff]
    unfold updateWindowClick
    dsimp only
    cases hc : clickTarget m.prevMouseX m.prevMouseY (beforeClick m ws).windows with
    | none => exact ⟨.refl _, rfl⟩
    | some clicked =>
      obtain ⟨hf, hfo⟩ := focusClicked_poses clicked (beforeClick m ws)
      rw [hc, Option.filter_some] at h
      dsimp only
      split
      · rw [← hf, ← hfo]
        exact removeWindow_poses _ _
      · rename_i hclose
        have hlow : ¬m.prevMouseY < int32 (clicked.y + headerOffset) := by
          intro hlow
          rw [if_pos (by simp [hclose, hlow])] at h
          cases h
        unfold startDrag
        rw [if_neg hlow]
        obtain ⟨hq, hqo⟩ := queues_poses (updateFocusedWindow_queues
          (.mouse true m.mouseButtons (int32 (m.mouseX - clicked.x)) (int32 (m.mouseY - clicked.y)))
          (focusClicked clicked (beforeClick m ws)))
        rw [hq, hqo, hf, hfo]
        exact ⟨.refl _, rfl⟩
  · rw [hposes, hoff]
    exact ⟨.refl _, rfl⟩

theorem tick_grabbed (h : grabbed m ws = some v) :
    pose v ∈ (poses ws).map (Pose.drag m (dragOffset ws)) ∧
      poses (updateWindow m ws).1 =
        ((poses ws).map (Pose.drag m (dragOffset ws))).map (Pose.grab v.addr) ∧
      dragOffset (updateWindow m ws).1 =
        (int32 (m.prevMouseX - v.x), int32 (m.prevMouseY - v.y)) := by
  obtain ⟨hposes, hoff⟩ := beforeClick_poses m ws
  unfold grabbed at h
  split at h
  · rename_i hp
    obtain ⟨hc, hheader⟩ := Option.mem_filter_iff.mp h
    rw [Bool.and_eq_true, Bool.not_eq_true', decide_eq_true_eq] at hheader
    obtain ⟨hclose, hlow⟩ := hheader
    rw [updateWindow_windows, if_pos hp]
    refine ⟨hposes ▸ List.mem_map_of_mem (clickTarget_mem hc), ?_⟩
    unfold updateWindowClick
    dsimp only
    rw [Option.mem_def.mp hc]
    dsimp only
    rw [hclose, if_neg Bool.false_ne_true]
    unfold startDrag
    rw [if_pos hlow]
    obtain ⟨hf, -⟩ := focusClicked_poses v (beforeClick m ws)
    obtain ⟨hq, hqo⟩ := queues_poses (updateFocusedWindow_queues
      (.mouse true m.mouseButtons (int32 (m.mouseX - v.x)) (int32 (m.mouseY - v.y)))
      { focusClicked v (beforeClick m ws) with
        dragOffsetX := int32 (m.prevMouseX - v.x)
        dragOffsetY := int32 (m.prevMouseY - v.y)
        windows := (focusClicked v (beforeClick m ws)).windows.map fun w =>
          if w.addr = v.addr then { w with isDragging := true } else w })
    refine ⟨hq.trans ?_, hqo⟩
    rw [← hposes, ← hf]
    unfold poses
    rw [List.map_map, List.map_map]
    refine List.map_congr_left fun w _ => ?_
    unfold Function.comp Pose.grab pose
    dsimp only
    split <;> rfl
  · cases h

/-- Apart from the timer only create_window adds a window, and no entry moves one. -/
theorem entry_poses {ev : Lifecycle.Event} {g : Graphics} {s : Sched} {m' : Mouse}
    (ht : ev.entry ≠ .timer) (h : entryWindows ev g m s ws = some (ws', m')) :
    m' = m ∧ dragOffset ws' = dragOffset ws ∧ ((poses ws').Sublist (poses ws) ∨
      Calls ev .createWindow ∧ ∃ p : Pose, p.addr ∉ (poses ws).map Pose.addr ∧
        p.isDragging = decide (titleDragging < g.request.title.chars.length) ∧
        (poses ws').Sublist (poses ws ++ [p])) := by
  unfold entryWindows at h
  cases he : ev.entry with
  | timer => exact absurd he ht
  | keyboard scancode focused =>
    simp only [he, Option.some.injEq, Prod.mk.injEq] at h
    obtain ⟨rfl, rfl⟩ := h
    rcases keyboardWindows_cases scancode focused s ws with hq | ⟨-, hk⟩
    · obtain ⟨hposes, hoff⟩ := queues_poses hq
      exact ⟨rfl, hoff, .inl (hposes ▸ .refl _)⟩
    · obtain ⟨hposes, hoff⟩ := removeWindowProcess_poses s.foregroundPid ws
      rw [hk]
      exact ⟨rfl, hoff, .inl hposes⟩
  | syscall =>
    simp only [he] at h
    obtain ⟨u, hu, hw⟩ := Option.map_eq_some_iff.mp h
    cases hw
    unfold syscallWindows at hu
    split at hu
    · rename_i hn
      obtain ⟨cur, -, hc⟩ := Option.bind_eq_some_iff.mp hu
      obtain ⟨hfresh, rfl⟩ := wmCreateWindow_cases hc
      let created := newWindow g.block g.buffer g.request cur.pid ws
      refine ⟨rfl, rfl, .inr ⟨⟨he, hn⟩, pose created, ?_, rfl, ?_⟩⟩
      · unfold poses
        rw [List.map_map]
        exact hfresh
      · unfold poses
        dsimp only
        split
        · exact List.sublist_append_left _ _
        · rw [List.map_append, List.map_singleton]
    · cases hu
      obtain ⟨hposes, hoff⟩ := queues_poses (getEvent_queues ev.regs.ebx ws)
      exact ⟨rfl, hoff, .inl (hposes ▸ .refl _)⟩
    · cases hu
      obtain ⟨hposes, hoff⟩ := removeWindow_poses ev.regs.ebx ws
      exact ⟨rfl, hoff, .inl hposes⟩
    · cases hu
      exact ⟨rfl, rfl, .inl (.refl _)⟩

end Poses

/-! ### What is dragged -/

structure Held (ps : List Pose) (offset : Int × Int) (recorded : Nat → Int × Int) : Prop where
  addrs : (ps.map Pose.addr).Nodup
  one : ∀ p ∈ ps, ∀ q ∈ ps, p.isDragging → q.isDragging → p.addr = q.addr
  stored : ∀ p ∈ ps, p.isDragging → recorded p.addr = offset
  ints : (int32 offset.1, int32 offset.2) = offset

def UnderCursor (m : Mouse) (ps : List Pose) (offset : Int × Int) : Prop :=
  ∀ p ∈ ps, p.isDragging → cursorFrom m p.x p.y = offset

section Held
variable {ps qs : List Pose} {offset : Int × Int} {recorded : Nat → Int × Int} {m : Mouse}

theorem Held.sublist (h : Held ps offset recorded) (hs : qs.Sublist ps) : Held qs offset recorded where
  addrs := h.addrs.sublist (hs.map _)
  one := fun p hp q hq => h.one p (hs.subset hp) q (hs.subset hq)
  stored := fun p hp => h.stored p (hs.subset hp)
  ints := h.ints

theorem Held.concat {p : Pose} (h : Held ps offset recorded) (hfresh : p.addr ∉ ps.map Pose.addr)
    (hp : p.isDragging = false) : Held (ps ++ [p]) offset recorded := by
  have hold : ∀ q ∈ ps ++ [p], q.isDragging → q ∈ ps := by
    intro q hq hd
    refine (List.mem_append.mp hq).resolve_right fun he => ?_
    rw [List.mem_singleton.mp he, hp] at hd
    cases hd
  constructor
  · exact nodup_map_concat h.addrs hfresh
  · exact fun q hq r hr hqd hrd => h.one q (hold q hq hqd) r (hold r hr hrd) hqd hrd
  · exact fun q hq hqd => h.stored q (hold q hq hqd) hqd
  · exact h.ints

theorem Pose.drag_addr (p : Pose) : (p.drag m offset).addr = p.addr := by
  unfold Pose.drag
  split
  · rfl
  · split <;> rfl

/-- What is dragged after the timer was dragged before, and is under the cursor. -/
theorem Pose.drag_dragging {p : Pose} (hints : (int32 offset.1, int32 offset.2) = offset)
    (h : (p.drag m offset).isDragging) : p.isDragging ∧
      cursorFrom m (p.drag m offset).x (p.drag m offset).y = offset := by
  unfold Pose.drag at *
  split at h
  · rename_i hno
    rw [h] at hno
    cases hno
  · split at h
    · cases h
    · rename_i hyes hdown
      rw [if_neg hyes, if_neg hdown]
      refine ⟨h, ?_⟩
      unfold cursorFrom
      dsimp only
      rw [int32_sub_sub, int32_sub_sub]
      exact hints

theorem Held.drag (h : Held ps offset recorded) (m : Mouse) :
    Held (ps.map (Pose.drag m offset)) offset recorded ∧
      UnderCursor m (ps.map (Pose.drag m offset)) offset := by
  have hback : ∀ q ∈ ps.map (Pose.drag m offset), q.isDragging →
      (∃ p ∈ ps, p.isDragging ∧ p.addr = q.addr) ∧ cursorFrom m q.x q.y = offset := by
    intro q hq hd
    obtain ⟨p, hp, rfl⟩ := List.mem_map.mp hq
    obtain ⟨hpd, hcursor⟩ := Pose.drag_dragging h.ints hd
    exact ⟨⟨p, hp, hpd, p.drag_addr.symm⟩, hcursor⟩
  refine ⟨⟨?_, ?_, ?_, h.ints⟩, fun q hq hd => (hback q hq hd).2⟩
  · rw [List.map_map]
    exact (List.map_congr_left fun p _ => Pose.drag_addr p) ▸ h.addrs
  · intro q hq r hr hqd hrd
    obtain ⟨⟨p, hp, hpd, he⟩, -⟩ := hback q hq hqd
    obtain ⟨⟨p', hp', hpd', he'⟩, -⟩ := hback r hr hrd
    exact he ▸ he' ▸ h.one p hp p' hp' hpd hpd'
  · intro q hq hqd
    obtain ⟨⟨p, hp, hpd, he⟩, -⟩ := hback q hq hqd
    exact he ▸ h.stored p hp hpd

theorem Held.grab {p : Pose} (h : Held ps offset recorded) (hp : p ∈ ps)
    (halone : ∀ q ∈ ps, q.isDragging → q.addr = p.addr) :
    Held (ps.map (Pose.grab p.addr)) (cursorFrom m p.x p.y)
        (fun a => if a = p.addr then cursorFrom m p.x p.y else recorded a) ∧
      UnderCursor m (ps.map (Pose.grab p.addr)) (cursorFrom m p.x p.y) := by
  have haddr : ∀ q : Pose, (q.grab p.addr).addr = q.addr := by
    intro q
    unfold Pose.grab
    split <;> rfl
  have honly : ∀ r ∈ ps.map (Pose.grab p.addr), r.isDragging → r = { p with isDragging := true } := by
    intro r hr hrd
    obtain ⟨q, hq, rfl⟩ := List.mem_map.mp hr
    have hsame : q.addr = p.addr := by
      unfold Pose.grab at hrd
      split at hrd
      · assumption
      · exact halone q hq hrd
    rw [List.inj_on_of_nodup_map h.addrs hq hp hsame, Pose.grab, if_pos rfl]
  refine ⟨⟨?_, ?_, ?_, ?_⟩, ?_⟩
  · rw [List.map_map]
    exact (List.map_congr_left fun q _ => haddr q) ▸ h.addrs
  · intro q hq r hr hqd hrd
    rw [honly q hq hqd, honly r hr hrd]
  · intro q hq hqd
    rw [honly q hq hqd]
    exact if_pos rfl
  · unfold cursorFrom
    rw [int32_int32, int32_int32]
  · intro q hq hqd
    rw [honly q hq hqd]

end Held

/-! ### Runs -/

structure DragHeld (w : DragWatch) : Prop where
  held : Held (poses w.system.windows) (dragOffset w.system.windows) w.recorded
  under : w.ticked → UnderCursor w.system.mouse (poses w.system.windows) (dragOffset w.system.windows)

section Runs
variable {S : Screen} {w w' : DragWatch} {d : System} {ev : Lifecycle.Event} {g : Graphics}

theorem boot_dragHeld (c : DesktopConfig) : DragHeld (startDragWatch (bootSystem c)) := by
  have hnone : ∀ p ∈ poses (bootWindows c), ¬p.isDragging := by
    intro p hp
    rw [List.mem_singleton.mp hp]
    exact Bool.false_ne_true
  refine ⟨⟨List.nodup_singleton _, ?_, ?_, rfl⟩, fun h => by cases h⟩
  · exact fun p hp _ _ hpd => absurd hpd (hnone p hp)
  · exact fun p hp hpd => absurd hpd (hnone p hp)

theorem DragHeld.tick (h : DragHeld w)
    (hg : ∀ v ∈ grabbed w.system.mouse w.system.windows, hasMoved w.system.mouse = false ∧
      ∀ u ∈ w.system.windows.windows, u.isDragging → u.addr = v.addr)
    (hws : d.windows = (updateWindow w.system.mouse w.system.windows).1)
    (hm : d.mouse = (updateWindow w.system.mouse w.system.windows).2) :
    DragHeld { w with
      system := d
      ticked := true
      recorded := noteGrab w.system.mouse w.system.windows d.windows w.recorded } := by
  have hcursor : ∀ x y, cursorFrom d.mouse x y = cursorFrom w.system.mouse x y := by
    intro x y
    rw [hm, updateWindow_mouse]
    split <;> rfl
  have hmoved := h.held.drag w.system.mouse
  unfold noteGrab
  cases hgrab : grabbed w.system.mouse w.system.windows with
  | none =>
    obtain ⟨hsub, hoff⟩ := tick_ungrabbed hgrab
    rw [← hws] at hsub hoff
    constructor
    · dsimp only
      rw [hoff]
      exact hmoved.1.sublist hsub
    · intro _ p hp hpd
      dsimp only at hp ⊢
      rw [hcursor, hoff]
      exact hmoved.2 p (hsub.subset hp) hpd
  | some v =>
    obtain ⟨hmem, hposes, hoff⟩ := tick_grabbed hgrab
    rw [← hws] at hposes hoff
    obtain ⟨hstill, halone⟩ := hg v hgrab
    have hoffset : dragOffset d.windows = cursorFrom w.system.mouse (pose v).x (pose v).y := by
      unfold hasMoved at hstill
      simp only [Bool.or_eq_false_iff, decide_eq_false_iff_not, not_not] at hstill
      rw [hoff]
      unfold cursorFrom pose
      rw [hstill.1, hstill.2]
    have hothers : ∀ q ∈ (poses w.system.windows).map
        (Pose.drag w.system.mouse (dragOffset w.system.windows)), q.isDragging →
        q.addr = (pose v).addr := by
      intro q hq hqd
      obtain ⟨p, hp, rfl⟩ := List.mem_map.mp hq
      obtain ⟨u, hu, rfl⟩ := List.mem_map.mp hp
      rw [Pose.drag_addr]
      exact halone u hu (Pose.drag_dragging h.held.ints hqd).1
    obtain ⟨hheld, hunder⟩ := @Held.grab _ _ _ w.system.mouse _ hmoved.1 hmem hothers
    constructor
    · dsimp only
      rw [hposes, hoffset]
      exact hheld
    · intro _ p hp hpd
      dsimp only at hp ⊢
      rw [hposes] at hp
      rw [hcursor, hoffset]
      exact hunder p hp hpd

theorem DragHeld.step {i : Interrupt} (h : DragHeld w) (hg : GrabsAlone w i)
    (hw : dragWatch S w i = some w') : DragHeld w' := by
  cases i with
  | packet p =>
    unfold dragWatch at hw
    obtain ⟨d, hd, rfl⟩ := Option.map_eq_some_iff.mp hw
    cases hd
    exact ⟨h.held, fun ht => by cases ht⟩
  | entry ev g =>
    unfold dragWatch at hw
    obtain ⟨d, hd, rfl⟩ := Option.map_eq_some_iff.mp hw
    obtain ⟨s, -, hrest⟩ := Option.bind_eq_some_iff.mp hd
    obtain ⟨⟨ws, m⟩, hx, rfl⟩ := Option.map_eq_some_iff.mp hrest
    by_cases ht : ev.entry = .timer
    · rw [if_pos ht]
      unfold entryWindows at hx
      rw [seen_timer.mpr ht] at hx
      have hpair : updateWindow w.system.mouse w.system.windows = (ws, m) := Option.some.inj hx
      exact h.tick (hg.1 ht) (congrArg Prod.fst hpair).symm (congrArg Prod.snd hpair).symm
    · rw [if_neg ht]
      obtain ⟨rfl, hoff, hsub | ⟨hcall, p, hfresh, hp, hsub⟩⟩ :=
        entry_poses (fun he => ht (seen_timer.mp he)) hx
      · constructor
        · dsimp only
          rw [hoff]
          exact h.held.sublist hsub
        · intro hticked q hq hqd
          dsimp only at hq ⊢
          rw [hoff]
          exact h.under hticked q (hsub.subset hq) hqd
      · have hshort := hg.2 (seen_calls.mp hcall)
        rw [decide_eq_false (Nat.not_lt.mpr hshort)] at hp
        constructor
        · dsimp only
          rw [hoff]
          exact (h.held.concat hfresh hp).sublist hsub
        · intro hticked q hq hqd
          dsimp only at hq ⊢
          rw [hoff]
          refine h.under hticked q ((List.mem_append.mp (hsub.subset hq)).resolve_right fun he => ?_) hqd
          rw [List.mem_singleton.mp he, hp] at hqd
          cases hqd

theorem DragHeld.dragsOne (h : DragHeld w) : DragsOne w where
  one := by
    have haddrs := h.held.addrs
    unfold poses at haddrs
    rw [List.map_map] at haddrs
    exact countP_le_one haddrs fun u hu v hv =>
      h.held.one _ (List.mem_map_of_mem hu) _ (List.mem_map_of_mem hv)
  held := by
    intro ht v hv hd
    have hmem : pose v ∈ poses w.system.windows := List.mem_map_of_mem hv
    exact (h.under ht _ hmem hd).trans (h.held.stored _ hmem hd).symm

end Runs

/-- The observer only looks on. -/
theorem dragWatch_system {S : Screen} {d : System} {w : DragWatch} {guard : DragWatch → Interrupt → Prop}
    (h : Reach (dragWatch S) guard (startDragWatch d) w) : Reach systemStep anyStep d w.system := by
  refine @Reach.image _ _ _ _ _ _ _ systemStep DragWatch.system _ h fun w i w' hw => ?_
  cases i with
  | packet p =>
    unfold dragWatch at hw
    obtain ⟨e, he, rfl⟩ := Option.map_eq_some_iff.mp hw
    exact .inr ⟨_, he⟩
  | entry ev g =>
    unfold dragWatch at hw
    obtain ⟨e, he, rfl⟩ := Option.map_eq_some_iff.mp hw
    by_cases ht : ev.entry = .timer
    · rw [if_pos ht]
      exact .inr ⟨_, he⟩
    · rw [if_neg ht]
      exact .inr ⟨_, he⟩

/-- Along every run in which a tick grabs a window only while the cursor rests and no other window
has is_dragging, one window at most is dragged and it stays under the cursor. -/
theorem drags_one {S : Screen} {c : DesktopConfig} {w : DragWatch}
    (h : Reach (dragWatch S) GrabsAlone (startDragWatch (bootSystem c)) w) : DragsOne w :=
  (h.invariant DragHeld (boot_dragHeld c) fun _ _ _ hi hg hw => hi.step hg hw).dragsOne

/-! ### Two windows, and a release that no tick sees -/

def openSecond : Interrupt := .entry (call 18 0 0) ⟨0x140000, 0x150000, smallWindow 500 100 (lettered 4)⟩

/- To the header of the terminal, and a press there. -/
def grabTerminal : List Interrupt :=
  [.packet ⟨24, 56, 255, by decide⟩, tick, .packet ⟨9, 0, 0, by decide⟩, tick]

/- The terminal is dragged and released, then the other window is grabbed and dragged. -/
def dragInTurn : List Interrupt :=
  [openSecond] ++ grabTerminal ++ [.packet ⟨9, 5, 0, by decide⟩, tick, .packet ⟨8, 0, 0, by decide⟩, tick,
    .packet ⟨40, 255, 161, by decide⟩, .packet ⟨8, 45, 0, by decide⟩, tick,
    .packet ⟨9, 0, 0, by decide⟩, tick, .packet ⟨41, 3, 156, by decide⟩, tick]

theorem dragInTurn_dragsOne : ∃ w,
    Reach (dragWatch sampleScreen) GrabsAlone (startDragWatch (bootSystem sampleDesktop)) w ∧
      (w.ticked = true ∧ w.system.windows.windows.map Window.isDragging = [false, true] ∧
        w.recorded 0x140000 = (5, 10)) ∧ DragsOne w := by
  obtain ⟨w, hr, hw⟩ : ∃ w,
      Reach (dragWatch sampleScreen) GrabsAlone (startDragWatch (bootSystem sampleDesktop)) w ∧
        w.ticked = true ∧ w.system.windows.windows.map Window.isDragging = [false, true] ∧
          w.recorded 0x140000 = (5, 10) :=
    reach_of_test dragInTurn (by decide +kernel) (by decide +kernel)
  exact ⟨w, hr, hw, drags_one hr⟩

/- The terminal is grabbed, and before the next tick it is released and the other window is pressed
   while the cursor moves on. -/
def releaseUnseen : List Interrupt :=
  [openSecond] ++ grabTerminal ++ [.packet ⟨40, 255, 161, by decide⟩, .packet ⟨8, 50, 0, by decide⟩,
    .packet ⟨41, 0, 156, by decide⟩, tick]

/-- Both windows are dragged then. -/
theorem two_windows_dragged : ¬ ∀ S c w,
    Reach (dragWatch S) anyStep (startDragWatch (bootSystem c)) w → DragsOne w := by
  intro hall
  obtain ⟨w, hr, htwo⟩ : ∃ w,
      Reach (dragWatch sampleScreen) anyStep (startDragWatch (bootSystem sampleDesktop)) w ∧
        w.system.windows.windows.countP Window.isDragging = 2 :=
    reach_of_test releaseUnseen (guarded_anyStep _ _) (by decide +kernel)
  have hone := (hall _ _ w hr).one
  omega

end AdamOS.Desktop
