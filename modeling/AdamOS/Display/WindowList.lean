import AdamOS.Display.Window
import AdamOS.Lib.Ranking

/-! The z_index values of n windows are the ranks 1, ..., n. Creation adds a rank on top, removal
takes one out, a click moves one to the top. -/
namespace AdamOS.Windows
open AdamOS.Fat16 AdamOS.ListUpdate AdamOS.Ranking AdamOS.Transition AdamOS.Word
variable {s t : WindowManager} {w clicked : Window} {id : Nat}

structure WindowListOk (s : WindowManager) : Prop where
  ranks : (s.windows.map Window.zIndex).Perm (List.range' 1 s.windows.length)
  counter : s.windowZIndex = s.windows.length + 1
  ids : (s.windows.map Window.windowId).Nodup
  focus : s.windows.countP Window.isFocused ≤ 1

/- kmalloc serves the window, and its title does not reach is_focused. -/
def CreateServed : WindowCall → Prop
  | .create block _ r _ => block ≠ 0 ∧ r.title.chars.length ≤ titleFocused
  | _ => True

instance : (c : WindowCall) → Decidable (CreateServed c)
  | .create .. => inferInstanceAs (Decidable (_ ∧ _))
  | .remove _ => .isTrue trivial
  | .removeProcess _ => .isTrue trivial
  | .click _ => .isTrue trivial
  | .drag _ => .isTrue trivial
  | .focusedEvent _ => .isTrue trivial

/- Neither counter is about to repeat a value that is in use. -/
def CountersFresh (s : WindowManager) : WindowCall → Prop
  | .create .. => s.windowId ∉ s.windows.map Window.windowId ∧ s.windowZIndex + 1 < 4294967296
  | _ => True

instance (s : WindowManager) : (c : WindowCall) → Decidable (CountersFresh s c)
  | .create .. => inferInstanceAs (Decidable (_ ∧ _))
  | .remove _ => .isTrue trivial
  | .removeProcess _ => .isTrue trivial
  | .click _ => .isTrue trivial
  | .drag _ => .isTrue trivial
  | .focusedEvent _ => .isTrue trivial

structure Stacked (s : WindowManager) : Prop where
  ranked : Ranked (s.windows.map Window.zIndex)
  counter : s.windowZIndex = s.windows.length + 1
  small : s.windowZIndex < 4294967296
  addrs : (s.windows.map Window.addr).Nodup
  focus : s.windows.countP Window.isFocused ≤ 1
  visible : ∀ w ∈ s.windows, w.isVisible = true

theorem initial_stacked : Stacked initial :=
  ⟨.nil, rfl, by decide, List.nodup_nil, Nat.zero_le _, fun _ h => absurd h List.not_mem_nil⟩

theorem Stacked.inj (h : Stacked s) {v w : Window} (hv : v ∈ s.windows) (hw : w ∈ s.windows)
    (he : v.zIndex = w.zIndex) : v = w := List.inj_on_of_nodup_map h.ranked.nodup hv hw he

theorem Stacked.addr_inj (h : Stacked s) {v w : Window} (hv : v ∈ s.windows) (hw : w ∈ s.windows)
    (he : v.addr = w.addr) : v = w := List.inj_on_of_nodup_map h.addrs hv hw he

/-! ### Changes that leave the stack alone -/

structure Tag where
  (addr windowId pid pixelBuffer : Nat)

def Window.tag (w : Window) : Tag := ⟨w.addr, w.windowId, w.pid, w.pixelBuffer⟩

def Window.standing (w : Window) : Tag × Nat × Bool × Bool :=
  (w.tag, w.zIndex, w.isFocused, w.isVisible)

theorem Stacked.congr (h : Stacked s)
    (hw : t.windows.map Window.standing = s.windows.map Window.standing)
    (hz : t.windowZIndex = s.windowZIndex) : Stacked t := by
  have hfield : ∀ {α : Type} (g : Tag × Nat × Bool × Bool → α),
      t.windows.map (fun w => g w.standing) = s.windows.map fun w => g w.standing := fun g => by
    have := congrArg (List.map g) hw
    rwa [List.map_map, List.map_map] at this
  have hlen : t.windows.length = s.windows.length := by
    have := congrArg List.length hw
    rwa [List.length_map, List.length_map] at this
  have hcount : t.windows.countP Window.isFocused = s.windows.countP Window.isFocused := by
    have := congrArg (List.countP fun x : Tag × Nat × Bool × Bool => x.2.2.1) hw
    rwa [List.countP_map, List.countP_map] at this
  refine ⟨?_, by rw [hz, hlen]; exact h.counter, by rw [hz]; exact h.small, ?_, ?_, fun w hm => ?_⟩
  · exact (hfield fun x => x.2.1) ▸ h.ranked
  · exact (hfield fun x => x.1.addr) ▸ h.addrs
  · rw [hcount]
    exact h.focus
  · have hv : w.isVisible ∈ s.windows.map Window.isVisible :=
      (hfield fun x => x.2.2.2) ▸ List.mem_map_of_mem hm
    obtain ⟨v, hm', hv⟩ := List.mem_map.mp hv
    exact hv ▸ h.visible v hm'

theorem map_standing {f : Window → Window} (hf : ∀ w, (f w).standing = w.standing)
    (ws : List Window) : (ws.map f).map Window.standing = ws.map Window.standing := by
  rw [List.map_map]
  exact List.map_congr_left fun w _ => hf w

theorem dragWindow_standing (m : Mouse) (s : WindowManager) (w : Window) :
    (dragWindow m s w).standing = w.standing := by
  unfold dragWindow
  split
  · rfl
  · split <;> rfl

theorem Stacked.drag (h : Stacked s) (m : Mouse) : Stacked (updateWindowDrag m s) :=
  h.congr (map_standing (dragWindow_standing m s) _) rfl

def Window.unqueued (w : Window) : Window := { w with eventQueue := emptyQueue }

structure QueuesOnly (s t : WindowManager) : Prop where
  rest : t = { s with windows := t.windows }
  queues : t.windows.map Window.unqueued = s.windows.map Window.unqueued

theorem QueuesOnly.refl (s : WindowManager) : QueuesOnly s s := ⟨rfl, rfl⟩

theorem QueuesOnly.field {α : Type*} {key : Window → α} (h : QueuesOnly s t)
    (hkey : ∀ w, key w.unqueued = key w) : t.windows.map key = s.windows.map key := by
  have hfield : ∀ ws : List Window, ws.map key = (ws.map Window.unqueued).map key := by
    intro ws
    rw [List.map_map]
    exact List.map_congr_left fun w _ => (hkey w).symm
  rw [hfield, h.queues, ← hfield]

/-- An update of the queue of the first window that meets a test. -/
theorem updateFirst_queues (test : Window → Bool) (f : Window → EventQueue) (s : WindowManager) :
    QueuesOnly s
      { s with windows := updateFirst test (fun w => { w with eventQueue := f w }) s.windows } :=
  ⟨rfl, @updateFirst_field _ _ Window.unqueued _ (fun w => { w with eventQueue := f w })
    (fun _ => rfl) s.windows⟩

theorem updateFocusedWindow_queues (e : Event) (s : WindowManager) :
    QueuesOnly s (updateFocusedWindow e s) :=
  updateFirst_queues Window.isFocused (fun w => eventQueuePush e w.eventQueue) s

theorem updateFocusedWindow_standing (e : Event) (s : WindowManager) :
    (updateFocusedWindow e s).windows.map Window.standing = s.windows.map Window.standing :=
  (updateFocusedWindow_queues e s).field fun _ => rfl

theorem Stacked.focusedEvent (h : Stacked s) (e : Event) : Stacked (updateFocusedWindow e s) :=
  h.congr (updateFocusedWindow_standing e s) rfl

def NoRoom (s : WindowManager) : Prop :=
  ∀ w, wmGetFocusedWindow s = some w → eventQueueSize ≤ w.eventQueue.size

instance (s : WindowManager) : Decidable (NoRoom s) :=
  inferInstanceAs (Decidable (∀ w ∈ wmGetFocusedWindow s, _))

theorem updateFocusedWindow_same (e : Event) (s : WindowManager) :
    updateFocusedWindow e s = s ↔ NoRoom s := by
  have hwindow : ∀ w : Window, { w with eventQueue := eventQueuePush e w.eventQueue } = w ↔
      eventQueueSize ≤ w.eventQueue.size := by
    intro w
    constructor
    · intro h
      by_contra hroom
      have hsize := congrArg (·.eventQueue.size) h
      simp only [eventQueuePush, if_neg hroom] at hsize
      omega
    · intro hfull
      rw [eventQueuePush, if_pos hfull]
  have hlist : updateFocusedWindow e s = s ↔ updateFirst Window.isFocused
      (fun w => { w with eventQueue := eventQueuePush e w.eventQueue }) s.windows = s.windows := by
    constructor
    · exact congrArg WindowManager.windows
    · intro h
      rw [updateFocusedWindow, h]
  rw [hlist, updateFirst_same]
  exact forall_congr' fun w => imp_congr Iff.rfl (hwindow w)

theorem startDrag_standing (m : Mouse) (clicked : Window) (s : WindowManager) :
    (startDrag m clicked s).windows.map Window.standing = s.windows.map Window.standing := by
  unfold startDrag
  split
  · refine map_standing (fun w => ?_) _
    split <;> rfl
  · rfl

theorem startDrag_counter (m : Mouse) (clicked : Window) (s : WindowManager) :
    (startDrag m clicked s).windowZIndex = s.windowZIndex := by
  unfold startDrag
  split <;> rfl

theorem Stacked.startDrag (h : Stacked s) (m : Mouse) (clicked : Window) :
    Stacked (Windows.startDrag m clicked s) :=
  h.congr (startDrag_standing m clicked s) (startDrag_counter m clicked s)

/-! ### Creation -/

theorem nodup_map_concat {α β : Type*} {key : α → β} {xs : List α} {x : α} (h : (xs.map key).Nodup)
    (hx : key x ∉ xs.map key) : ((xs ++ [x]).map key).Nodup := by
  rw [List.map_append]
  exact List.nodup_append.mpr ⟨h, List.nodup_singleton _, fun a ha b hb he =>
    hx (List.mem_singleton.mp hb ▸ he ▸ ha)⟩

theorem wmCreateWindow_cases {block buffer pid : Nat} {r : CreateWindow}
    (h : wmCreateWindow block buffer r pid s = some t) :
    block ∉ s.windows.map Window.addr ∧ t = { s with
      windows := if block = 0 then s.windows else s.windows ++ [newWindow block buffer r pid s]
      windowZIndex := wrap (s.windowZIndex + 1)
      windowId := wrap (s.windowId + 1) } := by
  unfold wmCreateWindow at h
  split at h
  · cases h
  · rename_i hfresh
    split at h
    · cases h
    · split at h
      · cases h
      · exact ⟨hfresh, (Option.some.inj h).symm⟩

theorem Stacked.create (h : Stacked s) {block buffer pid : Nat} {r : CreateWindow}
    (hg : CreateServed (.create block buffer r pid)) (hsmall : s.windowZIndex + 1 < 4294967296)
    (hc : wmCreateWindow block buffer r pid s = some t) : Stacked t := by
  obtain ⟨hblock, htitle⟩ := hg
  obtain ⟨hfresh, rfl⟩ := wmCreateWindow_cases hc
  have hz : (newWindow block buffer r pid s).zIndex = (s.windows.map Window.zIndex).length + 1 := by
    rw [List.length_map]
    exact h.counter
  have hfocus : (newWindow block buffer r pid s).isFocused = false :=
    decide_eq_false (Nat.not_lt.mpr htitle)
  simp only [if_neg hblock, wrap_eq hsmall]
  refine ⟨?_, ?_, hsmall, nodup_map_concat h.addrs hfresh, ?_, fun w hw => ?_⟩
  · rw [List.map_append, List.map_singleton, hz]
    exact h.ranked.push
  · rw [List.length_append, List.length_singleton, h.counter]
  · rw [List.countP_append, List.countP_singleton, hfocus]
    exact h.focus
  · rcases List.mem_append.mp hw with hw | hw
    · exact h.visible w hw
    · rw [List.mem_singleton.mp hw]
      rfl

/-! ### Removal -/

theorem lowerAbove_zIndex (k : Nat) (w : Window) : (lowerAbove k w).zIndex = lower k w.zIndex := by
  unfold lowerAbove lower
  split <;> rfl

theorem lowerAbove_isFocused (k : Nat) (w : Window) : (lowerAbove k w).isFocused = w.isFocused := by
  unfold lowerAbove
  split <;> rfl

theorem lowerAbove_isVisible (k : Nat) (w : Window) : (lowerAbove k w).isVisible = w.isVisible := by
  unfold lowerAbove
  split <;> rfl

theorem lowerAbove_tag (k : Nat) (w : Window) : (lowerAbove k w).tag = w.tag := by
  unfold lowerAbove
  split <;> rfl

theorem lowerAbove_addr (k : Nat) (w : Window) : (lowerAbove k w).addr = w.addr :=
  congrArg Tag.addr (lowerAbove_tag k w)

theorem map_lowerAbove {α : Type*} {key : Window → α} {k : Nat}
    (h : ∀ w, key (lowerAbove k w) = key w) (ws : List Window) :
    (ws.map (lowerAbove k)).map key = ws.map key := by
  rw [List.map_map]
  exact List.map_congr_left fun w _ => h w

/-- Ranks are different, so the window taken out is the one with its rank. -/
theorem Stacked.erase (h : Stacked s) (hw : getWindow id s = some w) :
    s.windows.eraseP (hasId id) = s.windows.filter fun v => decide (v.zIndex ≠ w.zIndex) := by
  have hkey : firstKey Window.zIndex (hasId id) s.windows = some w.zIndex := by
    have hf : s.windows.find? (hasId id) = some w := hw
    rw [firstKey, hf, Option.map_some]
  rw [eraseP_eq_filter h.ranked.nodup, hkey]
  refine List.filter_congr fun v _ => ?_
  by_cases hv : v.zIndex = w.zIndex
  · simp [hv]
  · simp [hv, Ne.symm hv]

theorem Stacked.remove (h : Stacked s) (id : Nat) : Stacked (removeWindow id s) := by
  unfold removeWindow
  cases hw : getWindow id s with
  | none => exact h
  | some w =>
    have hmem : w ∈ s.windows := List.mem_of_find?_eq_some hw
    have herase := h.erase hw
    have hsub : (s.windows.eraseP (hasId id)).Sublist s.windows := List.eraseP_sublist
    have hlen : (s.windows.eraseP (hasId id)).length + 1 = s.windows.length := by
      have hp : ∃ v ∈ s.windows, hasId id v = true := ⟨w, hmem, List.find?_some hw⟩
      rw [List.length_eraseP_of_mem hp.choose_spec.1 hp.choose_spec.2]
      have := List.length_pos_of_mem hmem
      omega
    have hcounter := h.counter
    have hsmall := h.small
    have hdec : sub32 s.windowZIndex 1 = s.windowZIndex - 1 := sub32_eq (by omega) hsmall
    have hranks : ((s.windows.eraseP (hasId id)).map (lowerAbove w.zIndex)).map Window.zIndex =
        ((s.windows.map Window.zIndex).filter fun r => decide (r ≠ w.zIndex)).map (lower w.zIndex) := by
      rw [herase, List.map_map, List.filter_map, List.map_map]
      exact List.map_congr_left fun v _ => lowerAbove_zIndex _ _
    dsimp only
    rw [hdec]
    refine ⟨?_, ?_, Nat.lt_of_le_of_lt (Nat.sub_le _ _) hsmall, ?_, ?_, ?_⟩
    · rw [hranks]
      exact h.ranked.remove (List.mem_map_of_mem hmem)
    · rw [List.length_map]
      show s.windowZIndex - 1 = _
      omega
    · rw [map_lowerAbove (lowerAbove_addr _)]
      exact h.addrs.sublist (hsub.map _)
    · rw [List.countP_map]
      have hcount : (s.windows.eraseP (hasId id)).countP (Window.isFocused ∘ lowerAbove w.zIndex) =
          (s.windows.eraseP (hasId id)).countP Window.isFocused :=
        List.countP_congr fun v _ => by rw [Function.comp_apply, lowerAbove_isFocused]
      rw [hcount]
      exact Nat.le_trans hsub.countP_le h.focus
    · intro v hv
      obtain ⟨u, hu, rfl⟩ := List.mem_map.mp hv
      rw [lowerAbove_isVisible]
      exact h.visible u (hsub.subset hu)

theorem Stacked.removeProcess (h : Stacked s) (pid : Nat) : Stacked (removeWindowProcess pid s) := by
  unfold removeWindowProcess
  generalize s.windows = ws
  induction ws generalizing s with
  | nil => exact h
  | cons w ws ih =>
    rw [List.foldl_cons]
    split
    · exact ih (h.remove _)
    · exact ih h

/-! ### Clicks -/

theorem hitTest_cases (px py : Int) (acc : Option Window) (w : Window) :
    hitTest px py acc w = acc ∨ hitTest px py acc w = some w := by
  unfold hitTest
  split
  · exact .inr rfl
  · exact .inl rfl

theorem foldl_hitTest_mem {px py : Int} {ws : List Window} {acc : Option Window}
    (h : ws.foldl (hitTest px py) acc = some w) : acc = some w ∨ w ∈ ws := by
  induction ws generalizing acc with
  | nil => exact .inl h
  | cons v ws ih =>
    rcases ih h with he | hm
    · rcases hitTest_cases px py acc v with hacc | hv
      · exact .inl (hacc ▸ he)
      · exact .inr (Option.some.inj (hv.symm.trans he) ▸ List.mem_cons_self)
    · exact .inr (List.mem_cons_of_mem _ hm)

theorem clickTarget_mem {px py : Int} {ws : List Window} (h : clickTarget px py ws = some w) :
    w ∈ ws := by
  rcases foldl_hitTest_mem h with he | hm
  · cases he
  · exact hm

/-- A click on a window changes is_focused and z_index only. -/
theorem focusClicked_map {α : Type*} {key : Window → α} (clicked : Window) (s : WindowManager)
    (hlow : ∀ w, key (lowerAbove clicked.zIndex w) = key w)
    (hfocus : ∀ (w : Window) (f : Bool), key { w with isFocused := f } = key w)
    (hz : ∀ (w : Window) (z : Nat), key { w with zIndex := z } = key w) :
    (focusClicked clicked s).windows.map key = s.windows.map key := by
  unfold focusClicked
  rw [List.map_map]
  refine List.map_congr_left fun w _ => ?_
  rw [Function.comp_apply]
  split
  · exact (hfocus { w with zIndex := sub32 s.windowZIndex 1 } true).trans (hz _ _)
  · exact (hfocus _ _).trans (hlow w)

theorem Stacked.focusClicked (h : Stacked s) (hc : clicked ∈ s.windows) :
    Stacked (Windows.focusClicked clicked s) := by
  have hcounter := h.counter
  have hsmall := h.small
  have hdec : sub32 s.windowZIndex 1 = s.windows.length := by
    rw [sub32_eq (by omega) hsmall]
    omega
  have hsame : ∀ v ∈ s.windows, v.addr = clicked.addr ↔ v.zIndex = clicked.zIndex := fun v hv =>
    ⟨fun he => h.addr_inj hv hc he ▸ rfl, fun he => h.inj hv hc he ▸ rfl⟩
  have haddr := @focusClicked_map _ Window.addr clicked s (lowerAbove_addr _) (fun _ _ => rfl)
    fun _ _ => rfl
  have hvisible := @focusClicked_map _ Window.isVisible clicked s (lowerAbove_isVisible _)
    (fun _ _ => rfl) fun _ _ => rfl
  unfold Windows.focusClicked at *
  rw [hdec] at *
  refine ⟨?_, ?_, hsmall, ?_, ?_, fun w hw => ?_⟩
  · have hraise := h.ranked.raise (List.mem_map_of_mem hc)
    rw [List.length_map, List.map_map] at hraise
    rw [List.map_map]
    refine (List.map_congr_left fun v hv => ?_) ▸ hraise
    rw [Function.comp_apply, Function.comp_apply]
    by_cases he : v.addr = clicked.addr
    · rw [if_pos he, if_pos ((hsame v hv).mp he)]
    · rw [if_neg he, if_neg fun hz => he ((hsame v hv).mpr hz)]
      exact (lowerAbove_zIndex _ v).symm
  · rw [List.length_map]
    exact hcounter
  · exact haddr ▸ h.addrs
  · rw [List.countP_map]
    have hone : s.windows.countP (fun v => v.addr == clicked.addr) ≤ 1 := by
      have hcount := List.nodup_iff_count_le_one.mp h.addrs clicked.addr
      rwa [List.count, List.countP_map] at hcount
    refine Nat.le_trans (List.countP_mono_left fun v _ hf => ?_) hone
    rw [Function.comp_apply] at hf
    split at hf
    · rename_i he
      exact beq_iff_eq.mpr he
    · cases hf
  · have hv : w.isVisible ∈ s.windows.map Window.isVisible := hvisible ▸ List.mem_map_of_mem hw
    obtain ⟨v, hm, hv⟩ := List.mem_map.mp hv
    exact hv ▸ h.visible v hm

theorem Stacked.click (h : Stacked s) (m : Mouse) : Stacked (updateWindowClick m s) := by
  unfold updateWindowClick
  cases hc : clickTarget m.prevMouseX m.prevMouseY s.windows with
  | none => exact h
  | some clicked =>
    have hf := h.focusClicked (clickTarget_mem hc)
    dsimp only
    split
    · exact hf.remove _
    · exact (hf.startDrag m clicked).focusedEvent _

/-! ### The windows that are listed -/

def tags (s : WindowManager) : List Tag := s.windows.map Window.tag

def ids (s : WindowManager) : List Nat := s.windows.map Window.windowId

theorem tags_congr (h : t.windows.map Window.standing = s.windows.map Window.standing) :
    tags t = tags s := by
  have := congrArg (List.map Prod.fst) h
  rwa [List.map_map, List.map_map] at this

theorem removeWindow_tags (id : Nat) (s : WindowManager) :
    (tags (removeWindow id s)).Sublist (tags s) := by
  unfold removeWindow tags
  cases getWindow id s with
  | none => exact .refl _
  | some w =>
    dsimp only
    rw [map_lowerAbove (lowerAbove_tag _)]
    exact List.eraseP_sublist.map _

theorem removeWindowProcess_tags (pid : Nat) (s : WindowManager) :
    (tags (removeWindowProcess pid s)).Sublist (tags s) := by
  unfold removeWindowProcess
  generalize s.windows = ws
  induction ws generalizing s with
  | nil => exact .refl _
  | cons w ws ih =>
    rw [List.foldl_cons]
    split
    · exact (ih _).trans (removeWindow_tags _ s)
    · exact ih s

theorem updateWindowDrag_tags (m : Mouse) (s : WindowManager) : tags (updateWindowDrag m s) = tags s :=
  tags_congr (map_standing (dragWindow_standing m s) _)

theorem QueuesOnly.tags_eq (h : QueuesOnly s t) : tags t = tags s := h.field fun _ => rfl

theorem updateFocusedWindow_tags (e : Event) (s : WindowManager) :
    tags (updateFocusedWindow e s) = tags s := (updateFocusedWindow_queues e s).tags_eq

theorem focusClicked_tags (clicked : Window) (s : WindowManager) :
    tags (focusClicked clicked s) = tags s :=
  focusClicked_map clicked s (lowerAbove_tag _) (fun _ _ => rfl) fun _ _ => rfl

theorem updateWindowClick_tags (m : Mouse) (s : WindowManager) :
    (tags (updateWindowClick m s)).Sublist (tags s) := by
  unfold updateWindowClick
  cases clickTarget m.prevMouseX m.prevMouseY s.windows with
  | none => exact .refl _
  | some clicked =>
    dsimp only
    split
    · exact focusClicked_tags clicked s ▸ removeWindow_tags _ _
    · rw [updateFocusedWindow_tags, tags_congr (startDrag_standing _ _ _), focusClicked_tags]

theorem step_tags {c : WindowCall} (hs : windowStep s c = some t)
    (hc : ∀ block buffer r pid, c ≠ .create block buffer r pid) : (tags t).Sublist (tags s) := by
  cases c with
  | create block buffer r pid => exact absurd rfl (hc block buffer r pid)
  | remove id => exact Option.some.inj hs ▸ removeWindow_tags id s
  | removeProcess pid => exact Option.some.inj hs ▸ removeWindowProcess_tags pid s
  | click m => exact Option.some.inj hs ▸ updateWindowClick_tags m s
  | drag m =>
    cases hs
    rw [updateWindowDrag_tags]
  | focusedEvent e =>
    cases hs
    rw [updateFocusedWindow_tags]

theorem ids_of_tags (h : (tags t).Sublist (tags s)) : (ids t).Sublist (ids s) := by
  have := h.map Tag.windowId
  rwa [tags, tags, List.map_map, List.map_map] at this

theorem create_ids {block buffer pid : Nat} {r : CreateWindow} (h : (ids s).Nodup)
    (hfresh : s.windowId ∉ ids s) (hc : wmCreateWindow block buffer r pid s = some t) :
    (ids t).Nodup := by
  obtain ⟨-, rfl⟩ := wmCreateWindow_cases hc
  unfold ids
  dsimp only
  split
  · exact h
  · exact nodup_map_concat h hfresh

/-! ### Runs -/

theorem Stacked.step {c : WindowCall} (h : Stacked s) (hg : CreateServed c)
    (hsmall : ∀ block buffer r pid, c = .create block buffer r pid → s.windowZIndex + 1 < 4294967296)
    (hs : windowStep s c = some t) : Stacked t := by
  cases c with
  | create block buffer r pid => exact h.create hg (hsmall _ _ _ _ rfl) hs
  | remove id => exact Option.some.inj hs ▸ h.remove id
  | removeProcess pid => exact Option.some.inj hs ▸ h.removeProcess pid
  | click m => exact Option.some.inj hs ▸ h.click m
  | drag m => exact Option.some.inj hs ▸ h.drag m
  | focusedEvent e => exact Option.some.inj hs ▸ h.focusedEvent e

theorem Stacked.ok (h : Stacked s) (hids : (ids s).Nodup) : WindowListOk s := by
  refine ⟨?_, h.counter, hids, h.focus⟩
  have hp := h.ranked.perm
  rwa [List.length_map] at hp

/-- As long as every creation is served and gets fresh numbers, the list is in order after any
run. -/
theorem window_list_ok
    (hr : Reach windowStep (fun s c => CreateServed c ∧ CountersFresh s c) initial s) :
    WindowListOk s := by
  let inv (s : WindowManager) : Prop := Stacked s ∧ (ids s).Nodup
  have hstep : ∀ s c t, inv s → CreateServed c ∧ CountersFresh s c → windowStep s c = some t →
      inv t := by
    rintro s c t ⟨h, hids⟩ ⟨hserved, hfresh⟩ hs
    refine ⟨h.step hserved (fun block buffer r pid hc => ?_) hs, ?_⟩
    · subst hc
      exact hfresh.2
    · by_cases hc : ∃ block buffer r pid, c = .create block buffer r pid
      · obtain ⟨block, buffer, r, pid, rfl⟩ := hc
        exact create_ids hids hfresh.1 hs
      · exact hids.sublist
          (ids_of_tags (step_tags hs fun block buffer r pid he => hc ⟨block, buffer, r, pid, he⟩))
  obtain ⟨h, hids⟩ := hr.invariant inv ⟨initial_stacked, List.nodup_nil⟩ hstep
  exact h.ok hids

/-! ### Three windows, and two with long titles -/

def lettered (n : Nat) : CString :=
  ⟨List.replicate n 65, fun c hc => List.eq_of_mem_replicate hc ▸ by decide⟩

def smallWindow (x y : Int32) (title : CString) : CreateWindow := ⟨x, y, 40, 20, title⟩

def press (x y : Int) : WindowCall := .click ⟨x, y, x, y, 1, 0⟩

/- Three windows; the first is raised, the second is closed. -/
def threeWindows : List WindowCall :=
  [.create 16 32 (smallWindow 0 0 (lettered 4)) 3, .create 48 64 (smallWindow 100 0 (lettered 4)) 3,
    .create 80 96 (smallWindow 200 0 (lettered 4)) 4, press 10 60, press 130 40, .removeProcess 4]

theorem threeWindows_ok : ∃ s,
    Reach windowStep (fun s c => CreateServed c ∧ CountersFresh s c) initial s ∧
    s.windows.map Window.windowId = [1] ∧ WindowListOk s := by
  obtain ⟨s, hr, hs⟩ : ∃ s,
      Reach windowStep (fun s c => CreateServed c ∧ CountersFresh s c) initial s ∧
      s.windows.map Window.windowId = [1] :=
    reach_of_test threeWindows (by decide +kernel) (by decide +kernel)
  exact ⟨s, hr, hs, window_list_ok hr⟩

/-- The 42nd letter of a title is is_focused. -/
theorem long_titles_focus : ¬ ∀ s, Reach windowStep anyStep initial s → WindowListOk s := by
  intro hall
  obtain ⟨s, hr, hs⟩ : ∃ s, Reach windowStep anyStep initial s ∧
      1 < s.windows.countP Window.isFocused :=
    reach_of_test [.create 16 32 (smallWindow 0 0 (lettered 42)) 3,
      .create 48 64 (smallWindow 0 0 (lettered 42)) 3] (guarded_anyStep _ _) (by decide +kernel)
  exact absurd (hall s hr).focus (Nat.not_le.mpr hs)

end AdamOS.Windows
