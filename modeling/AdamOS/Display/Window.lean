import AdamOS.Files.Fat16
import AdamOS.Lib.ListUpdate
import AdamOS.Lib.Transition

/-! window.c: the window list, the focused window and its events, dragging, clicks and the order
in which wm_composite draws. A window_t pointer is the address of its block; the `next` links are
the order of a list. -/
namespace AdamOS.Windows
open AdamOS.Fat16 AdamOS.ListUpdate AdamOS.Word

def headerOffset : Nat := 25
def maxWindows : Nat := 32
def closeBtnW : Nat := 30
def statusBarHeight : Nat := 30

/-! ### Event queues -/

/- event_t; the fields that belong to the other kind are not set. -/
inductive Event where
  | keypress (scancode c : Nat)
  | mouse (click : Bool) (button : Nat) (x y : Int)
deriving DecidableEq, Repr

def eventQueueSize : Nat := 64

structure EventQueue where
  events : Nat → Event
  headIndex : Nat
  tailIndex : Nat
  size : Nat

def emptyQueue : EventQueue := ⟨fun _ => .keypress 0 0, 0, 0, 0⟩

def eventQueuePush (e : Event) (q : EventQueue) : EventQueue :=
  if q.size ≥ eventQueueSize then q
  else
    { events := fun i => if i = q.headIndex then e else q.events i
      headIndex := (q.headIndex + 1) % eventQueueSize
      tailIndex := q.tailIndex
      size := q.size + 1 }

def eventQueuePop (q : EventQueue) : Option Event × EventQueue :=
  if q.size = 0 then (none, q)
  else (some (q.events q.tailIndex),
    { q with tailIndex := (q.tailIndex + 1) % eventQueueSize, size := q.size - 1 })

/-! ### The list -/

structure Window where
  addr : Nat
  windowId : Nat
  (x y : Int)
  (width height : Nat)
  pixelBuffer : Nat
  title : List UInt8
  pid : Nat
  zIndex : Nat
  (isVisible isFocused isDragging : Bool)
  eventQueue : EventQueue

inductive Cursor where
  | arrow | pointer
deriving DecidableEq, Repr

structure WindowManager where
  /- window_head_ptr and the next links -/
  windows : List Window
  windowZIndex : Nat
  windowId : Nat
  (dragOffsetX dragOffsetY : Int)
  currentCursor : Cursor

def initial : WindowManager := ⟨[], 1, 1, 0, 0, .arrow⟩

def hasId (id : Nat) (w : Window) : Bool := w.windowId = id

def getWindow (id : Nat) (s : WindowManager) : Option Window := s.windows.find? (hasId id)

def wmGetFocusedWindow (s : WindowManager) : Option Window := s.windows.find? Window.isFocused

/- create_window_t; nothing keeps the string at `title` within its 32 bytes. -/
structure CreateWindow where
  (x y : Int32)
  (width height : UInt32)
  title : CString

def bufSize (width height : Nat) : Nat := wrap (width * (height + headerOffset))

/- Where strcpy leaves fields of window_t that are read later: is_focused, is_dragging and the
   indices of the event queue, counted from the start of the title. -/
def titleFocused : Nat := 41
def titleDragging : Nat := 42
def titleQueue : Nat := 1328

/- The kernel is linked at this address; nothing it reads lies below. -/
def kernelOffset : Nat := 0x1000

/- strcpy comes before pid, z_index, is_visible and next are set and after the other fields; a long
   title is still in is_focused and is_dragging afterwards. -/
def newWindow (block buffer : Nat) (r : CreateWindow) (pid : Nat) (s : WindowManager) : Window where
  addr := block
  windowId := s.windowId
  x := r.x.toInt
  y := int32 (r.y.toInt + statusBarHeight)
  width := r.width.toNat
  height := r.height.toNat
  pixelBuffer := buffer
  title := r.title.chars.take 32
  pid := pid
  zIndex := s.windowZIndex
  isVisible := true
  isFocused := decide (titleFocused < r.title.chars.length)
  isDragging := decide (titleDragging < r.title.chars.length)
  eventQueue := emptyQueue

/- `block` and `buffer` are what kmalloc returns; it returns no block that is in use. Clearing a
   buffer that was not served overwrites the kernel unless it is small, and a title that reaches
   the indices of the event queue leaves defined behaviour. A window at NULL ends up in no list. -/
def wmCreateWindow (block buffer : Nat) (r : CreateWindow) (pid : Nat) (s : WindowManager) :
    Option WindowManager :=
  if block ∈ s.windows.map Window.addr then none
  else if buffer = 0 ∧ bufSize r.width.toNat r.height.toNat > kernelOffset then none
  else if titleQueue < r.title.chars.length then none
  else some { s with
    windows := if block = 0 then s.windows else s.windows ++ [newWindow block buffer r pid s]
    windowZIndex := wrap (s.windowZIndex + 1)
    windowId := wrap (s.windowId + 1) }

def lowerAbove (z : Nat) (w : Window) : Window :=
  if w.zIndex > z then { w with zIndex := w.zIndex - 1 } else w

def removeWindow (id : Nat) (s : WindowManager) : WindowManager :=
  match getWindow id s with
  | none => s
  | some w => { s with
    windows := (s.windows.eraseP (hasId id)).map (lowerAbove w.zIndex)
    windowZIndex := sub32 s.windowZIndex 1 }

/- The walk reads pid and next of windows it has just freed; kfree leaves the bytes of a block. -/
def removeWindowProcess (pid : Nat) (s : WindowManager) : WindowManager :=
  s.windows.foldl (fun s w => if w.pid = pid then removeWindow w.windowId s else s) s

/-! ### Mouse -/

structure Mouse where
  (mouseX mouseY prevMouseX prevMouseY : Int)
  (mouseButtons prevMouseButtons : Nat)
deriving DecidableEq, Repr

def pointInRect (px py x y w h : Int) : Bool :=
  px ≥ x && px < int32 (x + w) && py ≥ y && py < int32 (y + h)

def Window.covers (w : Window) (px py : Int) : Bool :=
  pointInRect px py w.x w.y (toInt32 w.width) (toInt32 (w.height + headerOffset))

def Window.onCloseButton (w : Window) (px py : Int) : Bool :=
  pointInRect px py (int32 (w.x + w.width - closeBtnW)) w.y closeBtnW headerOffset

def updateFocusedWindow (e : Event) (s : WindowManager) : WindowManager :=
  { s with
    windows := updateFirst Window.isFocused
      (fun w => { w with eventQueue := eventQueuePush e w.eventQueue }) s.windows }

def dragWindow (m : Mouse) (s : WindowManager) (w : Window) : Window :=
  if !w.isDragging then w
  else if m.mouseButtons % 2 = 0 then { w with isDragging := false }
  else { w with x := int32 (m.mouseX - s.dragOffsetX), y := int32 (m.mouseY - s.dragOffsetY) }

/- The cursor is the one that the last window asks for, where it was before it was dragged. -/
def updateWindowDrag (m : Mouse) (s : WindowManager) : WindowManager :=
  { s with
    windows := s.windows.map (dragWindow m s)
    currentCursor := match s.windows.getLast? with
      | none => s.currentCursor
      | some w => if w.onCloseButton m.prevMouseX m.prevMouseY then .pointer else .arrow }

/- The loop of update_window_click: top_z is the z_index of `clicked`, 0 for NULL. -/
def hitTest (px py : Int) (clicked : Option Window) (w : Window) : Option Window :=
  if w.covers px py && decide (w.zIndex ≥ (clicked.map Window.zIndex).getD 0) then some w else clicked

def clickTarget (px py : Int) (windows : List Window) : Option Window :=
  windows.foldl (hitTest px py) none

/- The second loop and the two assignments after it. -/
def focusClicked (clicked : Window) (s : WindowManager) : WindowManager :=
  { s with
    windows := s.windows.map fun w =>
      if w.addr = clicked.addr then
        { w with isFocused := true, zIndex := sub32 s.windowZIndex 1 }
      else { lowerAbove clicked.zIndex w with isFocused := false } }

def startDrag (m : Mouse) (clicked : Window) (s : WindowManager) : WindowManager :=
  if m.prevMouseY < int32 (clicked.y + headerOffset) then
    { s with
      dragOffsetX := int32 (m.prevMouseX - clicked.x)
      dragOffsetY := int32 (m.prevMouseY - clicked.y)
      windows := s.windows.map fun w =>
        if w.addr = clicked.addr then { w with isDragging := true } else w }
  else s

def updateWindowClick (m : Mouse) (s : WindowManager) : WindowManager :=
  match clickTarget m.prevMouseX m.prevMouseY s.windows with
  | none => s
  | some clicked =>
    let s := focusClicked clicked s
    if clicked.onCloseButton m.prevMouseX m.prevMouseY then removeWindow clicked.windowId s
    else
      updateFocusedWindow (.mouse true m.mouseButtons (int32 (m.mouseX - clicked.x))
        (int32 (m.mouseY - clicked.y))) (startDrag m clicked s)

def pressed (m : Mouse) : Bool := m.mouseButtons % 2 = 1 && m.prevMouseButtons % 2 = 0

/- There are no desktop icons: init_desktop_icons is never called. -/
def updateWindow (m : Mouse) (s : WindowManager) : WindowManager × Mouse :=
  let s := updateWindowDrag m s
  let s := if m.mouseX ≠ m.prevMouseX ∨ m.mouseY ≠ m.prevMouseY then
      updateFocusedWindow (.mouse false m.mouseButtons m.mouseX m.mouseY) s
    else s
  if pressed m then
    let m := { m with prevMouseButtons := m.mouseButtons }
    (updateWindowClick m s, m)
  else (s, m)

/-! ### Compositing -/

/- sorted[i]: the last window stored there. -/
def sortedAt (windows : List Window) (i : Nat) : Option Window :=
  windows.reverse.find? fun w => decide (w.zIndex = i + 1)

structure Composite where
  /- the calls of draw_window -/
  drawn : List Window
  focused : Option Window

/- An index beyond sorted and a NULL in it (the branch for it reads is_focused) have no result. -/
def compositeStep (windows : List Window) (i : Nat) (c : Composite) : Option Composite :=
  if i < maxWindows then
    (sortedAt windows i).map fun w =>
      if !w.isVisible || w.isFocused then
        { c with focused := if w.isFocused then some w else none }
      else { c with drawn := c.drawn ++ [w] }
  else none

def compositeLoop (windows : List Window) : Nat → Option Composite
  | 0 => some ⟨[], none⟩
  | n+1 => (compositeLoop windows n).bind (compositeStep windows n)

def wmComposite (windows : List Window) : Option (List Window) :=
  (compositeLoop windows windows.length).map fun c => c.drawn ++ c.focused.toList

/-! ### Runs of the window manager -/

inductive WindowCall where
  | create (block buffer : Nat) (request : CreateWindow) (pid : Nat)
  | remove (id : Nat)
  | removeProcess (pid : Nat)
  | click (m : Mouse)
  | drag (m : Mouse)
  | focusedEvent (e : Event)

def windowStep (s : WindowManager) : WindowCall → Option WindowManager
  | .create block buffer request pid => wmCreateWindow block buffer request pid s
  | .remove id => some (removeWindow id s)
  | .removeProcess pid => some (removeWindowProcess pid s)
  | .click m => some (updateWindowClick m s)
  | .drag m => some (updateWindowDrag m s)
  | .focusedEvent e => some (updateFocusedWindow e s)

end AdamOS.Windows
