import AdamOS.Display.WindowList
import AdamOS.Kernel.Waiting

/-! The kernel entries as steps of the processes and the windows together: the terminal's window
is made at boot, and the keyboard, the timer and the system calls reach the window list. -/
namespace AdamOS.Desktop
open AdamOS.Fat16 AdamOS.Lifecycle AdamOS.ListUpdate AdamOS.Process AdamOS.Scheduler AdamOS.Transition
open AdamOS.Windows AdamOS.Word

structure System where
  sched : Sched
  windows : WindowManager
  mouse : Mouse
  /- the pointer terminal->window -/
  terminalWindow : Nat

/- What create_window finds: the blocks kmalloc returns and the create_window_t at ebx. -/
structure Graphics where
  block : Nat
  buffer : Nat
  request : CreateWindow

inductive Input where
  /- an interrupt of the mouse, with what it leaves in the mouse variables -/
  | mouse (m : Mouse)
  | entry (ev : Lifecycle.Event) (g : Graphics)

/-! ### Keyboard -/

/- terminal->window->is_focused. Where the window was freed, the event says what is left of it. -/
def terminalFocused (left : Bool) (d : System) : Bool :=
  match d.windows.windows.find? fun w => decide (w.addr = d.terminalWindow) with
  | some w => w.isFocused
  | none => left

def withFocus (d : System) : Entry → Entry
  | .keyboard scancode left => .keyboard scancode (terminalFocused left d)
  | e => e

def seen (d : System) (ev : Lifecycle.Event) : Lifecycle.Event :=
  { ev with entry := withFocus d ev.entry }

def sendChar (scancode c : Nat) (focused : Bool) (ws : WindowManager) : WindowManager :=
  if focused then ws else updateFocusedWindow (.keypress scancode c) ws

def inputWindows (scancode : Nat) (focused : Bool) (s : Sched) (ws : WindowManager) : WindowManager :=
  if scancode = scancodeEnter then sendChar scancode charNewline focused ws
  else if scancode = scancodeBackspace then sendChar scancode charBackspace focused ws
  else if scancode < scancodeToAscii.length then
    let c := (if s.shiftHeld then scancodeToAsciiShift else scancodeToAscii).getD scancode 0
    if c ≠ 0 then sendChar scancode c focused ws else ws
  else ws

/- sigint_foreground: the windows of the process it finds. -/
def sigintWindows (s : Sched) (ws : WindowManager) : WindowManager :=
  if s.foregroundPid ≠ 0 ∧ s.foregroundPid ∈ s.procs.map Pcb.pid then
    removeWindowProcess s.foregroundPid ws
  else ws

def keyboardWindows (scancode : Nat) (focused : Bool) (s : Sched) (ws : WindowManager) :
    WindowManager :=
  if (handleModifiers scancode s).isSome then ws
  else if isCtrlC scancode s then sigintWindows s ws
  else if s.shiftHeld && scancode = scancodeEnter then sendChar scancode charSpace focused ws
  else if scancode &&& scancodeReleaseMask ≠ 0 then ws
  else if (standardInBufferSize : Int) ≤ s.stdin.count then ws
  else inputWindows scancode focused s ws

/-! ### System calls -/

def handleSyscallGetEvent (id : Nat) (ws : WindowManager) : WindowManager :=
  { ws with
    windows := updateFirst (hasId id)
      (fun w => { w with eventQueue := (eventQueuePop w.eventQueue).2 }) ws.windows }

def syscallWindows (regs : Registers) (g : Graphics) (s : Sched) (ws : WindowManager) :
    Option WindowManager :=
  match Syscall.ofNumber regs.eax with
  | some .createWindow =>
    s.currentProcess.bind fun cur => wmCreateWindow g.block g.buffer g.request cur.pid ws
  | some .getEvent => some (handleSyscallGetEvent regs.ebx ws)
  | some .destroyWindow => some (removeWindow regs.ebx ws)
  | _ => some ws

/-! ### Steps -/

def entryWindows (ev : Lifecycle.Event) (g : Graphics) (m : Mouse) (s : Sched) (ws : WindowManager) :
    Option (WindowManager × Mouse) :=
  match ev.entry with
  | .timer => some (updateWindow m ws)
  | .keyboard scancode focused => some (keyboardWindows scancode focused s ws, m)
  | .syscall => (syscallWindows ev.regs g s ws).map fun ws => (ws, m)

def systemStep (d : System) : Input → Option System
  | .mouse m => some { d with mouse := m }
  | .entry ev g =>
    (Lifecycle.step d.sched (seen d ev)).bind fun s =>
      (entryWindows (seen d ev) g d.mouse d.sched d.windows).map fun w =>
        { d with sched := s, windows := w.1, mouse := w.2 }

/-! ### Boot -/

def terminalTitle : CString := ⟨[84, 69, 82, 77, 73, 78, 65, 76], noNul_of_all rfl⟩

/- wm_create_window(0, 0, TERMINAL_WIN_W, TERMINAL_WIN_H, "TERMINAL", 0) -/
def terminalRequest : CreateWindow := ⟨0, 0, 400, 400, terminalTitle⟩

structure DesktopConfig where
  boot : BootConfig
  block : Nat
  buffer : Nat
  mouse : Mouse
  served : block ≠ 0
  bufferServed : buffer ≠ 0

def bootWindows (c : DesktopConfig) : WindowManager :=
  { initial with
    windows := [newWindow c.block c.buffer terminalRequest 0 initial]
    windowZIndex := 2
    windowId := 2 }

def bootSystem (c : DesktopConfig) : System :=
  ⟨Lifecycle.boot c.boot, bootWindows c, c.mouse, c.block⟩

/-- init_terminal creates the window from the empty list. -/
theorem bootWindows_created (c : DesktopConfig) :
    wmCreateWindow c.block c.buffer terminalRequest 0 initial = some (bootWindows c) := by
  have hfresh : c.block ∉ initial.windows.map Window.addr := List.not_mem_nil
  have hbuffer : ¬(c.buffer = 0 ∧ bufSize terminalRequest.width.toNat terminalRequest.height.toNat >
      kernelOffset) := fun hc => c.bufferServed hc.1
  unfold wmCreateWindow
  rw [if_neg hfresh, if_neg hbuffer, if_neg (by decide), if_neg c.served]
  rfl

theorem seen_timer {d : System} {ev : Lifecycle.Event} :
    (seen d ev).entry = .timer ↔ ev.entry = .timer := by
  unfold seen withFocus
  cases ev.entry <;> simp

theorem seen_calls {d : System} {ev : Lifecycle.Event} {sc : Syscall} :
    Calls (seen d ev) sc ↔ Calls ev sc := by
  have he : (seen d ev).entry = .syscall ↔ ev.entry = .syscall := by
    unfold seen withFocus
    cases ev.entry <;> simp
  exact and_congr he Iff.rfl

/-! ### What an entry does to the window list -/

section Windows
variable {s : Sched} {ws ws' : WindowManager} {ev : Lifecycle.Event} {g : Graphics} {m m' : Mouse}

def beforeClick (m : Mouse) (ws : WindowManager) : WindowManager :=
  if m.mouseX ≠ m.prevMouseX ∨ m.mouseY ≠ m.prevMouseY then
    updateFocusedWindow (.mouse false m.mouseButtons m.mouseX m.mouseY) (updateWindowDrag m ws)
  else updateWindowDrag m ws

theorem updateWindow_windows (m : Mouse) (ws : WindowManager) : (updateWindow m ws).1 =
    if pressed m then updateWindowClick { m with prevMouseButtons := m.mouseButtons } (beforeClick m ws)
    else beforeClick m ws := by
  unfold updateWindow
  dsimp only
  by_cases h : pressed m = true
  · rw [if_pos h, if_pos h]
    rfl
  · rw [if_neg h, if_neg h]
    rfl

theorem beforeClick_tags (m : Mouse) (ws : WindowManager) : tags (beforeClick m ws) = tags ws := by
  unfold beforeClick
  split
  · rw [updateFocusedWindow_tags, updateWindowDrag_tags]
  · exact updateWindowDrag_tags m ws

theorem updateWindow_tags (m : Mouse) (ws : WindowManager) :
    (tags (updateWindow m ws).1).Sublist (tags ws) := by
  rw [updateWindow_windows]
  split
  · exact beforeClick_tags m ws ▸ updateWindowClick_tags _ _
  · rw [beforeClick_tags]

theorem sendChar_queues (scancode c : Nat) (focused : Bool) (ws : WindowManager) :
    QueuesOnly ws (sendChar scancode c focused ws) := by
  unfold sendChar
  split
  · exact .refl ws
  · exact updateFocusedWindow_queues _ ws

theorem inputWindows_queues (scancode : Nat) (focused : Bool) (s : Sched) (ws : WindowManager) :
    QueuesOnly ws (inputWindows scancode focused s ws) := by
  unfold inputWindows
  split
  · exact sendChar_queues ..
  split
  · exact sendChar_queues ..
  split
  · dsimp only
    generalize (if s.shiftHeld = true then scancodeToAsciiShift else scancodeToAscii).getD scancode 0 = c
    split
    · exact sendChar_queues ..
    · exact .refl ws
  · exact .refl ws

theorem keyboardWindows_cases (scancode : Nat) (focused : Bool) (s : Sched) (ws : WindowManager) :
    QueuesOnly ws (keyboardWindows scancode focused s ws) ∨
      s.foregroundPid ≠ 0 ∧
        keyboardWindows scancode focused s ws = removeWindowProcess s.foregroundPid ws := by
  unfold keyboardWindows
  split
  · exact .inl (.refl ws)
  split
  · unfold sigintWindows
    split
    · rename_i h
      exact .inr ⟨h.1, rfl⟩
    · exact .inl (.refl ws)
  split
  · exact .inl (sendChar_queues ..)
  split
  · exact .inl (.refl ws)
  split
  · exact .inl (.refl ws)
  · exact .inl (inputWindows_queues ..)

theorem getEvent_queues (id : Nat) (ws : WindowManager) :
    QueuesOnly ws (handleSyscallGetEvent id ws) :=
  updateFirst_queues (hasId id) (fun w => (eventQueuePop w.eventQueue).2) ws

inductive Changes (ev : Lifecycle.Event) (g : Graphics) (m : Mouse) (s : Sched) (ws : WindowManager) :
    WindowManager → Prop
  | same {t : WindowManager} : tags t = tags ws → Changes ev g m s ws t
  | tick : ev.entry = .timer → Changes ev g m s ws (updateWindow m ws).1
  | interrupt : s.foregroundPid ≠ 0 → Changes ev g m s ws (removeWindowProcess s.foregroundPid ws)
  | create {cur : Pcb} {t : WindowManager} : Calls ev .createWindow → s.currentProcess = some cur →
      wmCreateWindow g.block g.buffer g.request cur.pid ws = some t → Changes ev g m s ws t
  | destroy : Calls ev .destroyWindow → Changes ev g m s ws (removeWindow ev.regs.ebx ws)

theorem entryWindows_changes (h : entryWindows ev g m s ws = some (ws', m')) :
    Changes ev g m s ws ws' := by
  unfold entryWindows at h
  cases he : ev.entry with
  | timer =>
    simp only [he, Option.some.injEq] at h
    obtain rfl : (updateWindow m ws).1 = ws' := by rw [h]
    exact .tick he
  | keyboard scancode focused =>
    simp only [he, Option.some.injEq, Prod.mk.injEq] at h
    rcases keyboardWindows_cases scancode focused s ws with hk | ⟨h0, hk⟩
    · exact .same (h.1 ▸ hk.tags_eq)
    · rw [hk] at h
      exact h.1 ▸ .interrupt h0
  | syscall =>
    simp only [he] at h
    obtain ⟨u, hu, hw⟩ := Option.map_eq_some_iff.mp h
    cases hw
    unfold syscallWindows at hu
    split at hu
    · rename_i hn
      obtain ⟨cur, hcur, hc⟩ := Option.bind_eq_some_iff.mp hu
      exact .create ⟨he, hn⟩ hcur hc
    · cases hu
      exact .same (getEvent_queues _ ws).tags_eq
    · rename_i hn
      cases hu
      exact .destroy ⟨he, hn⟩
    · cases hu
      exact .same rfl

/-- An entry seen from the processes and from the windows. -/
theorem systemStep_entry {d d' : System} (h : systemStep d (.entry ev g) = some d') :
    Lifecycle.step d.sched (seen d ev) = some d'.sched ∧
      Changes (seen d ev) g d.mouse d.sched d.windows d'.windows ∧
      d'.terminalWindow = d.terminalWindow := by
  obtain ⟨s, hs, hrest⟩ := Option.bind_eq_some_iff.mp h
  obtain ⟨w, hw, rfl⟩ := Option.map_eq_some_iff.mp hrest
  exact ⟨hs, entryWindows_changes hw, rfl⟩

end Windows

end AdamOS.Desktop
