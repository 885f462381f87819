import AdamOS.Display.TerminalWindow
import AdamOS.Display.Vga
import Mathlib.Algebra.GroupWithZero.Nat

/-! mouse.c's interrupt handler and what update_window makes of its variables. The handler keeps the
position and the buttons of the last packet and of the one before; the timer compares them. -/
namespace AdamOS.Desktop
open AdamOS.Lifecycle AdamOS.ListUpdate AdamOS.Transition AdamOS.Vga AdamOS.Windows AdamOS.Word

/-! ### The handler -/

structure MouseDriver where
  mouseCycle : Nat
  (byte0 byte1 byte2 : UInt8)
deriving DecidableEq

/- dx and dy; the sign is a bit of the first byte. -/
def displacement (negative : Bool) (b : UInt8) : Int :=
  if negative then toInt32 (b.toNat ||| 0xFFFFFF00) else b.toNat

/- screen_width and screen_height are unsigned, and so is the second comparison. -/
def clamp (size : Nat) (x : Int) : Int :=
  let x := if x < 0 then 0 else x
  if ofInt32 x > sub32 size 1 then toInt32 (sub32 size 1) else x

def movedMouse (S : Screen) (d : MouseDriver) (m : Mouse) : Mouse where
  mouseX := clamp S.width (int32 (m.mouseX + displacement (d.byte0 &&& 16 ≠ 0) d.byte1))
  mouseY := clamp S.height (int32 (m.mouseY - displacement (d.byte0 &&& 32 ≠ 0) d.byte2))
  prevMouseX := m.mouseX
  prevMouseY := m.mouseY
  mouseButtons := (d.byte0 &&& 7).toNat
  prevMouseButtons := m.mouseButtons

def mouseHandlerMain (S : Screen) (x : MouseDriver × Mouse) (input : UInt8) : MouseDriver × Mouse :=
  let d := x.1
  let next := (d.mouseCycle + 1) % 3
  if d.mouseCycle = 0 then
    if input &&& 8 = 0 then ({ d with byte0 := input }, x.2)
    else ({ d with byte0 := input, mouseCycle := next }, x.2)
  else if d.mouseCycle = 1 then ({ d with byte1 := input, mouseCycle := next }, x.2)
  else
    let d := { d with byte2 := input }
    if d.byte0 &&& 64 ≠ 0 ∨ d.byte0 &&& 128 ≠ 0 then ({ d with mouseCycle := 0 }, x.2)
    else ({ d with mouseCycle := next }, movedMouse S d x.2)

/- A complete packet; bit 3 of the first byte is always set. -/
structure Packet where
  (status dx dy : UInt8)
  sync : status &&& 8 ≠ 0

def Packet.left (p : Packet) : Bool := p.status.toNat % 2 = 1

def Packet.overflows (p : Packet) : Bool := p.status &&& 64 ≠ 0 || p.status &&& 128 ≠ 0

def takePacket (S : Screen) (p : Packet) (x : MouseDriver × Mouse) : MouseDriver × Mouse :=
  [p.status, p.dx, p.dy].foldl (mouseHandlerMain S) x

/-! ### Packets, ticks and the other entries -/

inductive Interrupt where
  | packet (p : Packet)
  | entry (ev : Lifecycle.Event) (g : Graphics)

def leftDown (m : Mouse) : Bool := m.mouseButtons % 2 = 1

def hasMoved (m : Mouse) : Bool := m.mouseX ≠ m.prevMouseX || m.mouseY ≠ m.prevMouseY

def queuedEvents (ws : WindowManager) : Nat := (ws.windows.map (·.eventQueue.size)).sum

/- What update_window queues before a click. -/
def movesQueued (m : Mouse) (ws : WindowManager) : Nat :=
  queuedEvents (beforeClick m ws) - queuedEvents ws

structure Watched where
  system : System
  driver : MouseDriver
  /- the left button in the last packet -/
  left : Bool
  /- the packets that pressed it, and the calls of update_window_click -/
  (presses clicks : Nat)
  /- no packet has come since the last tick -/
  ticked : Bool
  /- since the last packet the handler took: the EVENT_MOUSE_MOVE queued, and whether a tick found a
     focused window with room -/
  moves : Nat
  offered : Bool

/- A button that is down at the start and that no tick has seen counts as pressed. -/
def startWatch (d : System) : Watched :=
  ⟨d, ⟨0, 0, 0, 0⟩, leftDown d.mouse, (pressed d.mouse).toNat, 0, false, 0, false⟩

def watchPacket (S : Screen) (p : Packet) (w : Watched) (d : System) : Watched :=
  { w with
    system := d
    driver := (takePacket S p (w.driver, w.system.mouse)).1
    left := p.left
    presses := w.presses + (p.left && !w.left).toNat
    ticked := false
    moves := if p.overflows then w.moves else 0
    offered := p.overflows && w.offered }

def watchTick (w : Watched) (d : System) : Watched :=
  { w with
    system := d
    clicks := w.clicks + (pressed w.system.mouse).toNat
    ticked := true
    moves := w.moves + movesQueued w.system.mouse w.system.windows
    offered := w.offered || !decide (NoRoom w.system.windows) }

def watch (S : Screen) (w : Watched) : Interrupt → Option Watched
  | .packet p =>
    (systemStep w.system (.mouse (takePacket S p (w.driver, w.system.mouse)).2)).map (watchPacket S p w)
  | .entry ev g =>
    (systemStep w.system (.entry ev g)).map fun d =>
      if ev.entry = .timer then watchTick w d else { w with system := d }

/- After every tick each press has had its click, and no more; a packet has at most one
   EVENT_MOUSE_MOVE, and none if it left the cursor where it was. -/
structure HandledOnce (w : Watched) : Prop where
  clicks : w.ticked → w.clicks = w.presses
  moves : w.moves ≤ (hasMoved w.system.mouse).toNat

/- No packet that is taken overtakes the tick for a press. What only packets with an overflow bit have
   shown of the button, the next packet shows too, and no tick comes in between for a press. Of the
   ticks after a movement one finds a focused window with room. -/
def Prompt (w : Watched) : Interrupt → Prop
  | .packet p =>
    (¬p.overflows → ¬pressed w.system.mouse) ∧ (w.left = leftDown w.system.mouse ∨ p.left = w.left)
  | .entry ev _ => ev.entry = .timer →
    (w.left → leftDown w.system.mouse) ∧
      (hasMoved w.system.mouse → w.offered → NoRoom w.system.windows)

instance (w : Watched) (i : Interrupt) : Decidable (Prompt w i) :=
  match i with
  | .packet _ => inferInstanceAs (Decidable (_ ∧ _))
  | .entry _ _ => inferInstanceAs (Decidable (_ → _))

section Mouse
variable {S : Screen} {m : Mouse} {d : MouseDriver} {p : Packet} {ws : WindowManager}

/-! ### A packet -/

theorem firstByte {b : UInt8} (hd : d.mouseCycle = 0) (hb : b &&& 8 ≠ 0) :
    mouseHandlerMain S (d, m) b = ({ d with byte0 := b, mouseCycle := 1 }, m) := by
  unfold mouseHandlerMain
  rw [if_pos hd, if_neg hb, hd]

theorem secondByte (hd : d.mouseCycle = 1) (b : UInt8) :
    mouseHandlerMain S (d, m) b = ({ d with byte1 := b, mouseCycle := 2 }, m) := by
  unfold mouseHandlerMain
  have hfirst : ¬d.mouseCycle = 0 := by omega
  rw [if_neg hfirst, if_pos hd, hd]

theorem thirdByte (hd : d.mouseCycle = 2) (b : UInt8) : mouseHandlerMain S (d, m) b =
    ({ d with byte2 := b, mouseCycle := 0 },
      if d.byte0 &&& 64 ≠ 0 ∨ d.byte0 &&& 128 ≠ 0 then m else movedMouse S { d with byte2 := b } m) := by
  unfold mouseHandlerMain
  have hfirst : ¬d.mouseCycle = 0 := by omega
  have hsecond : ¬d.mouseCycle = 1 := by omega
  dsimp only
  rw [if_neg hfirst, if_neg hsecond, hd]
  split <;> rfl

theorem takePacket_eq (hd : d.mouseCycle = 0) : takePacket S p (d, m) =
    (⟨0, p.status, p.dx, p.dy⟩,
      if p.overflows then m else movedMouse S ⟨2, p.status, p.dx, p.dy⟩ m) := by
  have hflags : (p.overflows = true) = (p.status &&& 64 ≠ 0 ∨ p.status &&& 128 ≠ 0) := by
    simp [Packet.overflows]
  unfold takePacket
  rw [List.foldl_cons, List.foldl_cons, List.foldl_cons, List.foldl_nil, firstByte hd p.sync,
    @secondByte S m ⟨1, p.status, d.byte1, d.byte2⟩ rfl, @thirdByte S m ⟨2, p.status, p.dx, d.byte2⟩ rfl]
  simp only [hflags]

theorem movedMouse_left : leftDown (movedMouse S ⟨2, p.status, p.dx, p.dy⟩ m) = p.left := by
  have hbit : (p.status &&& 7).toNat % 2 = p.status.toNat % 2 := by
    rw [UInt8.toNat_and, show (7 : UInt8).toNat = 2 ^ 3 - 1 from rfl, Nat.and_two_pow_sub_one_eq_mod]
    omega
  unfold leftDown movedMouse Packet.left
  rw [hbit]

theorem pressed_eq (m : Mouse) : pressed m = (leftDown m && decide (m.prevMouseButtons % 2 = 0)) := rfl

/-- A packet that is taken shows a press where the button was up. -/
theorem movedMouse_pressed :
    pressed (movedMouse S ⟨2, p.status, p.dx, p.dy⟩ m) = (p.left && !leftDown m) := by
  rw [pressed_eq, movedMouse_left]
  congr 1
  unfold leftDown movedMouse
  rcases Nat.mod_two_eq_zero_or_one m.mouseButtons with h | h <;> simp [h]

theorem clamp_bounds {size : Nat} (hpos : 0 < size) (hsize : size < 65536) {x : Int}
    (hx : x < 2147483648) : 0 ≤ clamp size x ∧ clamp size x < size := by
  have hlast : sub32 size 1 = size - 1 := sub32_eq hpos (by omega)
  have hint : toInt32 (size - 1) = ((size - 1 : Nat) : Int) := toInt32_eq (by omega)
  unfold clamp
  rw [hlast, hint]
  dsimp only
  generalize hy : (if x < 0 then 0 else x) = y
  have hy0 : 0 ≤ y ∧ y < 2147483648 := by
    rw [← hy]
    split <;> omega
  rw [ofInt32_eq hy0.1 (by omega)]
  split <;> omega

/-- The cursor stays on the screen. -/
theorem movedMouse_onScreen (hwidth : 0 < S.width) :
    (0 ≤ (movedMouse S d m).mouseX ∧ (movedMouse S d m).mouseX < S.width) ∧
      0 ≤ (movedMouse S d m).mouseY ∧ (movedMouse S d m).mouseY < S.height :=
  ⟨clamp_bounds hwidth (Nat.lt_of_le_of_lt S.width_le S.pitch_lt) (int32_bounds _).2,
    clamp_bounds S.height_pos S.height_lt (int32_bounds _).2⟩

/-! ### A tick -/

theorem dragWindow_queue (m : Mouse) (s : WindowManager) (w : Window) :
    (dragWindow m s w).eventQueue = w.eventQueue ∧ (dragWindow m s w).isFocused = w.isFocused := by
  unfold dragWindow
  split
  · exact ⟨rfl, rfl⟩
  · split <;> exact ⟨rfl, rfl⟩

theorem drag_queuedEvents (m : Mouse) (ws : WindowManager) :
    queuedEvents (updateWindowDrag m ws) = queuedEvents ws := by
  unfold queuedEvents updateWindowDrag
  rw [List.map_map]
  refine congrArg List.sum (List.map_congr_left fun w _ => ?_)
  rw [Function.comp_apply, (dragWindow_queue m ws w).1]

theorem drag_noRoom (m : Mouse) (ws : WindowManager) : NoRoom (updateWindowDrag m ws) ↔ NoRoom ws := by
  have hfind : wmGetFocusedWindow (updateWindowDrag m ws) =
      (wmGetFocusedWindow ws).map (dragWindow m ws) := by
    have hfocus : Window.isFocused ∘ dragWindow m ws = Window.isFocused :=
      funext fun w => (dragWindow_queue m ws w).2
    unfold wmGetFocusedWindow updateWindowDrag
    rw [List.find?_map, hfocus]
  unfold NoRoom
  rw [hfind]
  cases wmGetFocusedWindow ws with
  | none => exact iff_of_true (fun _ h => by cases h) fun _ h => by cases h
  | some w =>
    rw [Option.map_some]
    constructor
    · intro h v hv
      cases hv
      exact (dragWindow_queue m ws w).1 ▸ h _ rfl
    · intro h v hv
      cases hv
      exact (dragWindow_queue m ws w).1.symm ▸ h _ rfl

/-- An event is one more in the queues, where it finds room. -/
theorem queuedEvents_push (e : Windows.Event) (ws : WindowManager) :
    queuedEvents (updateFocusedWindow e ws) = queuedEvents ws + (!decide (NoRoom ws)).toNat := by
  by_cases hroom : NoRoom ws
  · rw [(updateFocusedWindow_same e ws).mpr hroom, decide_eq_true hroom]
    rfl
  · rw [decide_eq_false hroom]
    obtain ⟨w, hno⟩ := not_forall.mp hroom
    obtain ⟨hw, hsize⟩ := Classical.not_imp.mp hno
    have hsum := @updateFirst_sum _ _ (fun w => { w with eventQueue := eventQueuePush e w.eventQueue })
      (·.eventQueue.size) _ _ hw
    have hpush : (eventQueuePush e w.eventQueue).size = w.eventQueue.size + 1 := by
      rw [eventQueuePush, if_neg hsize]
    dsimp only at hsum
    rw [hpush] at hsum
    unfold queuedEvents updateFocusedWindow
    simp only [Bool.not_false, Bool.toNat_true]
    omega

theorem movesQueued_eq (m : Mouse) (ws : WindowManager) :
    movesQueued m ws = (hasMoved m && !decide (NoRoom ws)).toNat := by
  have hmoved : (m.mouseX ≠ m.prevMouseX ∨ m.mouseY ≠ m.prevMouseY) ↔ hasMoved m := by
    simp [hasMoved]
  unfold movesQueued beforeClick
  rw [if_congr hmoved rfl rfl]
  cases hasMoved m with
  | true =>
    rw [if_pos rfl, queuedEvents_push, drag_queuedEvents, Nat.add_sub_cancel_left, Bool.true_and]
    simp only [drag_noRoom]
  | false =>
    rw [if_neg Bool.false_ne_true, drag_queuedEvents, Nat.sub_self]
    rfl

theorem updateWindow_mouse (m : Mouse) (ws : WindowManager) : (updateWindow m ws).2 =
    if pressed m then { m with prevMouseButtons := m.mouseButtons } else m := by
  unfold updateWindow
  dsimp only
  split <;> rfl

/-- After a tick no press waits; the tick moves neither the cursor nor the buttons. -/
theorem updateWindow_sampled (m : Mouse) (ws : WindowManager) :
    pressed (updateWindow m ws).2 = false ∧ leftDown (updateWindow m ws).2 = leftDown m ∧
      hasMoved (updateWindow m ws).2 = hasMoved m := by
  rw [updateWindow_mouse]
  split
  · refine ⟨?_, rfl, rfl⟩
    rw [pressed_eq]
    unfold leftDown
    rcases Nat.mod_two_eq_zero_or_one m.mouseButtons with h | h <;> simp [h]
  · rename_i h
    exact ⟨Bool.eq_false_iff.mpr h, rfl, rfl⟩

end Mouse

/-! ### Runs -/

structure Counted (w : Watched) : Prop where
  cycle : w.driver.mouseCycle = 0
  presses : w.clicks + (pressed w.system.mouse).toNat +
    (w.left && !leftDown w.system.mouse).toNat = w.presses
  ticked : w.ticked → pressed w.system.mouse = false ∧ (w.left → leftDown w.system.mouse)
  moves : w.moves = (hasMoved w.system.mouse && w.offered).toNat

section Watch
variable {S : Screen} {w w' : Watched} {d : System} {p : Packet} {ev : Lifecycle.Event} {g : Graphics}

theorem start_counted (d : System) : Counted (startWatch d) where
  cycle := rfl
  presses := by simp [startWatch]
  ticked := fun h => by cases h
  moves := by simp [startWatch]

theorem entry_mouse (h : systemStep w.system (.entry ev g) = some d) : d.mouse =
    if ev.entry = .timer then (updateWindow w.system.mouse w.system.windows).2 else w.system.mouse := by
  obtain ⟨s, hs, hrest⟩ := Option.bind_eq_some_iff.mp h
  obtain ⟨x, hx, rfl⟩ := Option.map_eq_some_iff.mp hrest
  unfold entryWindows at hx
  rw [if_congr (seen_timer (d := w.system)).symm rfl rfl]
  split at hx
  · rename_i he
    cases hx
    rw [if_pos he]
  · rename_i he
    cases hx
    rw [if_neg (by rw [he]; exact fun h => by cases h)]
  · rename_i he
    obtain ⟨ws, -, rfl⟩ := Option.map_eq_some_iff.mp hx
    rw [if_neg (by rw [he]; exact fun h => by cases h)]

theorem Counted.packet (h : Counted w) (hg : Prompt w (.packet p))
    (hd : systemStep w.system (.mouse (takePacket S p (w.driver, w.system.mouse)).2) = some d) :
    Counted (watchPacket S p w d) := by
  obtain ⟨hfree, hshown⟩ := hg
  have htaken := @takePacket_eq S w.system.mouse _ p h.cycle
  have hmouse : d.mouse = if p.overflows then w.system.mouse
      else movedMouse S ⟨2, p.status, p.dx, p.dy⟩ w.system.mouse := by
    cases hd
    exact congrArg Prod.snd htaken
  have hpresses := h.presses
  -- the changes of the button that only dropped packets have shown
  have hbutton : (w.left && !leftDown w.system.mouse).toNat + (p.left && !w.left).toNat =
      (p.left && !leftDown w.system.mouse).toNat := by
    revert hshown
    cases w.left <;> cases p.left <;> cases leftDown w.system.mouse <;> simp
  constructor
  · exact congrArg (fun x => x.1.mouseCycle) htaken
  · unfold watchPacket
    dsimp only
    rw [hmouse]
    cases ho : p.overflows with
    | true =>
      rw [if_pos rfl]
      omega
    | false =>
      rw [if_neg Bool.false_ne_true, movedMouse_left, movedMouse_pressed, Bool.and_not_self]
      have hno : pressed w.system.mouse = false := Bool.eq_false_iff.mpr (hfree (by rw [ho]; decide))
      rw [hno] at hpresses
      simp only [Bool.toNat_false, Nat.add_zero] at hpresses ⊢
      omega
  · intro ht
    cases ht
  · unfold watchPacket
    dsimp only
    rw [hmouse]
    cases p.overflows with
    | true => exact h.moves
    | false => simp

theorem Counted.tick (h : Counted w) (ht : ev.entry = .timer) (hg : Prompt w (.entry ev g))
    (hd : systemStep w.system (.entry ev g) = some d) : Counted (watchTick w d) := by
  obtain ⟨hshown, hroom⟩ := hg ht
  have hmouse := entry_mouse hd
  rw [if_pos ht] at hmouse
  obtain ⟨hpressed, hleft, hmoved⟩ := updateWindow_sampled w.system.mouse w.system.windows
  have hpresses := h.presses
  have hmoves := h.moves
  constructor
  · exact h.cycle
  · unfold watchTick
    dsimp only
    rw [hmouse, hpressed, hleft]
    simp only [Bool.toNat_false, Nat.add_zero]
    omega
  · intro _
    refine ⟨hmouse ▸ hpressed, fun hl => ?_⟩
    exact (congrArg leftDown hmouse).trans hleft ▸ hshown hl
  · unfold watchTick
    dsimp only
    rw [hmouse, hmoved, hmoves, movesQueued_eq]
    cases hm : hasMoved w.system.mouse with
    | false => simp
    | true =>
      cases ho : w.offered with
      | false => simp
      | true =>
        rw [decide_eq_true (hroom hm ho)]
        rfl

theorem Counted.step {i : Interrupt} (h : Counted w) (hg : Prompt w i) (hw : watch S w i = some w') :
    Counted w' := by
  cases i with
  | packet p =>
    unfold watch at hw
    obtain ⟨d, hd, rfl⟩ := Option.map_eq_some_iff.mp hw
    exact h.packet hg hd
  | entry ev g =>
    unfold watch at hw
    obtain ⟨d, hd, rfl⟩ := Option.map_eq_some_iff.mp hw
    by_cases ht : ev.entry = .timer
    · rw [if_pos ht]
      exact h.tick ht hg hd
    · rw [if_neg ht]
      have hmouse := entry_mouse hd
      rw [if_neg ht] at hmouse
      exact ⟨h.cycle, hmouse ▸ h.presses, hmouse ▸ h.ticked, hmouse ▸ h.moves⟩

theorem Counted.handled (h : Counted w) : HandledOnce w where
  clicks := by
    intro ht
    obtain ⟨hpressed, hleft⟩ := h.ticked ht
    have hpresses := h.presses
    have hshown : (w.left && !leftDown w.system.mouse) = false := by
      cases hl : w.left with
      | false => rfl
      | true => simp [hleft hl]
    rw [hpressed, hshown] at hpresses
    exact hpresses
  moves := by
    rw [h.moves]
    cases hasMoved w.system.mouse <;> cases w.offered <;> decide

end Watch

/-- The observer only looks on. -/
theorem watch_system {S : Screen} {d : System} {w : Watched} {guard : Watched → Interrupt → Prop}
    (h : Reach (watch S) guard (startWatch d) w) : Reach systemStep anyStep d w.system := by
  refine @Reach.image _ _ _ _ _ _ _ systemStep Watched.system _ h fun w i w' hw => ?_
  cases i with
  | packet p =>
    unfold watch at hw
    obtain ⟨e, he, rfl⟩ := Option.map_eq_some_iff.mp hw
    exact .inr ⟨_, he⟩
  | entry ev g =>
    unfold watch at hw
    obtain ⟨e, he, rfl⟩ := Option.map_eq_some_iff.mp hw
    have hsystem : (if ev.entry = .timer then watchTick w e else { w with system := e }).system = e := by
      split <;> rfl
    exact .inr ⟨_, hsystem.symm ▸ he⟩

/-- Along every run of packets, ticks and other entries in which no packet overtakes the tick for a
press, presses and clicks go together. -/
theorem mouse_handled_once {S : Screen} {c : DesktopConfig} {w : Watched}
    (h : Reach (watch S) Prompt (startWatch (bootSystem c)) w) : HandledOnce w :=
  (h.invariant Counted (start_counted _) fun _ _ _ hi hg hw => hi.step hg hw).handled

/-! ### A click, and a press that is overtaken -/

def sampleScreen : Screen := mode103

def packetOf (down : Bool) (dx : UInt8) : Interrupt :=
  .packet ⟨if down then 9 else 8, dx, 0, by cases down <;> decide⟩

def tick : Interrupt := .entry timerTick noGraphics

/- A press and a movement, each with its tick, the release and one more tick. -/
def clickRun : List Interrupt := [packetOf true 0, tick, packetOf true 5, tick, packetOf false 0, tick]

theorem clickRun_handled : ∃ w, Reach (watch sampleScreen) Prompt (startWatch (bootSystem sampleDesktop)) w ∧
    w.presses = 1 ∧ HandledOnce w := by
  obtain ⟨w, hr, hone⟩ : ∃ w, Reach (watch sampleScreen) Prompt (startWatch (bootSystem sampleDesktop)) w ∧
      w.presses = 1 := reach_of_test clickRun (by decide +kernel) (by decide +kernel)
  exact ⟨w, hr, hone, mouse_handled_once hr⟩

/-- The second packet of a press that is held makes the handler forget it. -/
theorem press_overtaken : ¬ ∀ S c w, Reach (watch S) anyStep (startWatch (bootSystem c)) w →
    HandledOnce w := by
  intro hall
  obtain ⟨w, hr, ht, hclicks, hpresses⟩ : ∃ w,
      Reach (watch sampleScreen) anyStep (startWatch (bootSystem sampleDesktop)) w ∧
        w.ticked = true ∧ w.clicks = 0 ∧ w.presses = 1 :=
    reach_of_test [packetOf true 0, packetOf true 5, tick] (guarded_anyStep _ _) (by decide +kernel)
  have hone := (hall _ _ w hr).clicks ht
  omega

end AdamOS.Desktop
