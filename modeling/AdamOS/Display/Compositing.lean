import AdamOS.Display.WindowList

/-! wm_composite sorts the windows by storing each at its z_index. -/
namespace AdamOS.Windows
open AdamOS.Fat16 AdamOS.Ranking AdamOS.Transition
variable {s t : WindowManager} {ws : List Window} {w : Window}

/- Each window once, in increasing z_index; the focused one comes last. -/
structure DrawsEachOnce (s : WindowManager) (drawn : List Window) : Prop where
  once : drawn.Perm s.windows
  order : ∃ back, drawn = back ++ (wmGetFocusedWindow s).toList ∧
    back.Pairwise fun v w => v.zIndex < w.zIndex

def CreateCounted (s : WindowManager) : WindowCall → Prop
  | .create .. => s.windows.length < maxWindows
  | _ => True

instance (s : WindowManager) : (c : WindowCall) → Decidable (CreateCounted s c)
  | .create .. => inferInstanceAs (Decidable (_ < _))
  | .remove _ => .isTrue trivial
  | .removeProcess _ => .isTrue trivial
  | .click _ => .isTrue trivial
  | .drag _ => .isTrue trivial
  | .focusedEvent _ => .isTrue trivial

/-! ### The number of windows -/

theorem step_length {c : WindowCall} (hg : CreateCounted s c) (h : s.windows.length ≤ maxWindows)
    (hs : windowStep s c = some t) : t.windows.length ≤ maxWindows := by
  by_cases hc : ∃ block buffer r pid, c = .create block buffer r pid
  · obtain ⟨block, buffer, r, pid, rfl⟩ := hc
    obtain ⟨-, rfl⟩ := wmCreateWindow_cases hs
    dsimp only
    split
    · exact h
    · rw [List.length_append, List.length_singleton]
      exact hg
  · have htags := (step_tags hs fun block buffer r pid he => hc ⟨block, buffer, r, pid, he⟩).length_le
    rw [tags, tags, List.length_map, List.length_map] at htags
    exact Nat.le_trans htags h

/-- The states reached when every creation is served and no more than MAX_WINDOWS windows are
open. -/
theorem reach_stacked (hr : Reach windowStep (fun s c => CreateServed c ∧ CreateCounted s c) initial s) :
    Stacked s ∧ s.windows.length ≤ maxWindows := by
  let inv (s : WindowManager) : Prop := Stacked s ∧ s.windows.length ≤ maxWindows
  have hstep : ∀ s c t, inv s → CreateServed c ∧ CreateCounted s c → windowStep s c = some t →
      inv t := by
    rintro s c t ⟨h, hlen⟩ ⟨hserved, hroom⟩ hs
    refine ⟨h.step hserved (fun _ _ _ _ _ => ?_) hs, step_length hroom hlen hs⟩
    have := h.counter
    unfold maxWindows at hlen
    omega
  exact hr.invariant inv ⟨initial_stacked, Nat.zero_le _⟩ hstep

/-! ### The sorted windows -/

/- sorted[0], ..., sorted[n-1] -/
def sortedUpTo (ws : List Window) (n : Nat) : List Window := (List.range n).filterMap (sortedAt ws)

theorem sortedAt_mem {i : Nat} (h : sortedAt ws i = some w) : w ∈ ws ∧ w.zIndex = i + 1 := by
  have hz := List.find?_some h
  exact ⟨List.mem_reverse.mp (List.mem_of_find?_eq_some h), of_decide_eq_true hz⟩

theorem sortedUpTo_sorted (ws : List Window) (n : Nat) :
    (sortedUpTo ws n).Pairwise fun v w => v.zIndex < w.zIndex := by
  refine List.pairwise_filterMap.mpr (List.pairwise_lt_range.imp fun {i j} hij v hv w hw => ?_)
  rw [(sortedAt_mem hv).2, (sortedAt_mem hw).2]
  exact Nat.succ_lt_succ hij

theorem Stacked.sortedAt (h : Stacked s) {i : Nat} (hi : i < s.windows.length) :
    ∃ w, Windows.sortedAt s.windows i = some w := by
  have hmem := h.ranked.mem (i := i + 1) (Nat.succ_pos i) (by rw [List.length_map]; exact hi)
  obtain ⟨w, hw, hz⟩ := List.mem_map.mp hmem
  refine Option.isSome_iff_exists.mp (List.find?_isSome.mpr ⟨w, List.mem_reverse.mpr hw, ?_⟩)
  exact decide_eq_true hz

theorem Stacked.sortedAt_zIndex (h : Stacked s) (hw : w ∈ s.windows) :
    Windows.sortedAt s.windows (w.zIndex - 1) = some w ∧ w.zIndex - 1 < s.windows.length := by
  have hz := List.mem_map_of_mem (f := Window.zIndex) hw
  have hpos := h.ranked.pos _ hz
  have hle := h.ranked.le _ hz
  rw [List.length_map] at hle
  have hi : w.zIndex - 1 < s.windows.length := by omega
  obtain ⟨v, hv⟩ := h.sortedAt hi
  have hvz := (sortedAt_mem hv).2
  rw [hv, h.inj (sortedAt_mem hv).1 hw (by omega)]
  exact ⟨rfl, hi⟩

theorem Stacked.sorted_perm (h : Stacked s) :
    (sortedUpTo s.windows s.windows.length).Perm s.windows := by
  have hsorted := sortedUpTo_sorted s.windows s.windows.length
  have hn : (sortedUpTo s.windows s.windows.length).Nodup := hsorted.imp fun hlt he => by
    rw [he] at hlt
    exact Nat.lt_irrefl _ hlt
  refine (List.perm_ext_iff_of_nodup hn h.addrs.of_map).mpr fun w => ⟨fun hw => ?_, fun hw => ?_⟩
  · obtain ⟨i, -, hi⟩ := List.mem_filterMap.mp hw
    exact (sortedAt_mem hi).1
  · obtain ⟨hi, hlt⟩ := h.sortedAt_zIndex hw
    exact List.mem_filterMap.mpr ⟨_, List.mem_range.mpr hlt, hi⟩

/-! ### The loop -/

def composited (ws : List Window) : Composite :=
  ⟨ws.filter fun w => !w.isFocused, (ws.filter Window.isFocused).getLast?⟩

theorem compositeStep_eq {L : List Window} {i : Nat} (hi : i < maxWindows)
    (hw : sortedAt ws i = some w) (hv : w.isVisible = true) :
    compositeStep ws i (composited L) = some (composited (L ++ [w])) := by
  unfold compositeStep composited
  rw [if_pos hi, hw, Option.map_some, List.filter_append, List.filter_append]
  cases hf : w.isFocused with
  | true => simp [hv, hf]
  | false => simp [hv, hf]

theorem Stacked.compositeLoop (h : Stacked s) (hlen : s.windows.length ≤ maxWindows) {n : Nat}
    (hn : n ≤ s.windows.length) :
    Windows.compositeLoop s.windows n = some (composited (sortedUpTo s.windows n)) := by
  induction n with
  | zero => rfl
  | succ n ih =>
    obtain ⟨w, hw⟩ := h.sortedAt hn
    have hsucc : sortedUpTo s.windows (n + 1) = sortedUpTo s.windows n ++ [w] := by
      unfold sortedUpTo
      rw [List.range_succ, List.filterMap_append, List.filterMap_cons, hw, List.filterMap_nil]
    rw [Windows.compositeLoop, ih (Nat.le_of_succ_le hn), Option.bind_some, hsucc]
    exact compositeStep_eq (Nat.lt_of_lt_of_le hn hlen) hw (h.visible w (sortedAt_mem hw).1)

theorem Stacked.focused (h : Stacked s) :
    s.windows.filter Window.isFocused = (wmGetFocusedWindow s).toList := by
  have hlen := h.focus
  rw [List.countP_eq_length_filter] at hlen
  rw [wmGetFocusedWindow, ← List.head?_filter]
  cases hf : s.windows.filter Window.isFocused with
  | nil => rfl
  | cons w rest =>
    rw [hf, List.length_cons] at hlen
    rw [List.eq_nil_of_length_eq_zero (by omega : rest.length = 0)]
    rfl

def backWindows (s : WindowManager) : List Window :=
  (sortedUpTo s.windows s.windows.length).filter fun w => !w.isFocused

theorem Stacked.wmComposite (h : Stacked s) (hlen : s.windows.length ≤ maxWindows) :
    Windows.wmComposite s.windows = some (backWindows s ++ (wmGetFocusedWindow s).toList) := by
  have hone : ((sortedUpTo s.windows s.windows.length).filter Window.isFocused) =
      (wmGetFocusedWindow s).toList := by
    have hp := (h.sorted_perm.filter Window.isFocused)
    rw [h.focused] at hp
    cases hf : wmGetFocusedWindow s with
    | none =>
      rw [hf] at hp
      exact List.perm_nil.mp hp
    | some w =>
      rw [hf] at hp
      exact List.perm_singleton.mp hp
  rw [Windows.wmComposite, h.compositeLoop hlen (Nat.le_refl _), Option.map_some]
  unfold composited
  rw [hone]
  cases wmGetFocusedWindow s with
  | none => rfl
  | some w => rfl

theorem Stacked.drawsEachOnce (h : Stacked s) :
    DrawsEachOnce s (backWindows s ++ (wmGetFocusedWindow s).toList) := by
  refine ⟨?_, backWindows s, rfl, (sortedUpTo_sorted _ _).filter _⟩
  have hback := h.sorted_perm.filter fun w => !w.isFocused
  refine (hback.append_right _).trans ?_
  rw [← h.focused]
  exact (List.perm_append_comm).trans (List.filter_append_perm _ _)

/-- As long as creations are served and at most MAX_WINDOWS windows are open, every window is drawn
once, the focused one last. -/
theorem composite_each_once
    (hr : Reach windowStep (fun s c => CreateServed c ∧ CreateCounted s c) initial s) :
    ∃ drawn, wmComposite s.windows = some drawn ∧ DrawsEachOnce s drawn := by
  obtain ⟨h, hlen⟩ := reach_stacked hr
  exact ⟨_, h.wmComposite hlen, h.drawsEachOnce⟩

/-! ### Three windows, and thirty-three -/

theorem threeWindows_drawn : ∃ s,
    Reach windowStep (fun s c => CreateServed c ∧ CreateCounted s c) initial s ∧
    s.windows.map Window.windowId = [1, 2, 3] ∧ s.windows.map Window.zIndex = [3, 1, 2] ∧
    ∃ drawn, wmComposite s.windows = some drawn ∧ DrawsEachOnce s drawn := by
  obtain ⟨s, hr, hids, hz⟩ : ∃ s,
      Reach windowStep (fun s c => CreateServed c ∧ CreateCounted s c) initial s ∧
      s.windows.map Window.windowId = [1, 2, 3] ∧ s.windows.map Window.zIndex = [3, 1, 2] :=
    reach_of_test (threeWindows.take 4) (by decide +kernel) (by decide +kernel)
  exact ⟨s, hr, hids, hz, composite_each_once hr⟩

def anotherWindow (i : Nat) : WindowCall :=
  .create (4096 * (2 * i + 1)) (4096 * (2 * i + 2)) (smallWindow 0 0 (lettered 4)) 3

/-- The loop counts to 33, and sorted has 32 places. -/
theorem thirtyThree_not_drawn : ¬ ∀ s, Reach windowStep anyStep initial s →
    ∃ drawn, wmComposite s.windows = some drawn ∧ DrawsEachOnce s drawn := by
  intro hall
  obtain ⟨s, hr, hs⟩ : ∃ s, Reach windowStep anyStep initial s ∧
      (wmComposite s.windows).isNone :=
    reach_of_test ((List.range 33).map anotherWindow) (guarded_anyStep _ _) (by decide +kernel)
  obtain ⟨drawn, hd, -⟩ := hall s hr
  rw [hd] at hs
  cases hs

end AdamOS.Windows
