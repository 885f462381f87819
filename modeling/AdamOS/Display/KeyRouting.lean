import AdamOS.Display.TerminalWindow
import AdamOS.Kernel.StdinFifo

/-! Where the character of a key goes: to standard input while the terminal's window has the focus,
else to the window that has it. The handler looks at the fill of standard input before it looks at
the focus, and at the wait queue whichever of the two took the character. -/
namespace AdamOS.Desktop
open AdamOS.Lifecycle AdamOS.ListUpdate AdamOS.Process AdamOS.Scheduler AdamOS.Transition
open AdamOS.Windows

/- Shift+Enter; handle_chords looks at neither. -/
def isChord (scancode : Nat) (s : Sched) : Bool := s.shiftHeld && scancode = scancodeEnter

/- The character of a key press that is no modifier and not Ctrl+C. -/
def keyPressed (scancode : Nat) (s : Sched) : Option Nat :=
  if (handleModifiers scancode s).isSome || isCtrlC scancode s then none
  else if isChord scancode s then some charSpace
  else if scancode &&& scancodeReleaseMask ≠ 0 then none
  else keyChar scancode s.shiftHeld

def stdinFull (s : Sched) : Prop := (standardInBufferSize : Int) ≤ s.stdin.count

def wakesReader (scancode : Nat) (s : Sched) : Prop :=
  s.stdin.waitQueue.process.isSome ∧
    (s.stdin.waitQueue.requestedLen ≤ s.stdin.count ∨ scancode = scancodeEnter)

def callerGone (s : Sched) : Prop := s.currentProcess.map Pcb.status = some .zombie

instance (s : Sched) : Decidable (stdinFull s) := inferInstanceAs (Decidable (_ ≤ _))

instance (scancode : Nat) (s : Sched) : Decidable (wakesReader scancode s) :=
  inferInstanceAs (Decidable (_ ∧ _))

/-! ### One consumer -/

/- The character is written to standard input; a reader may take it from there in the same entry. -/
def Typed (c : Nat) (regs : Registers) (s t : Sched) : Prop :=
  t = typeChar c true s ∨
    ∃ out, stdinWakeProcess regs (typeChar c true s) = some out ∧ t = out.sched

structure StdinAlone (s t : Sched) : Prop where
  stdin : t.stdin = s.stdin
  blocked : ∀ a, s.stdin.waitQueue.process = some a →
    (t.deref a).map Pcb.status = (s.deref a).map Pcb.status

/- The key affects what has the focus and nothing else. A full event queue takes no event. -/
def OneConsumer (scancode c : Nat) (focused : Bool) (regs : Registers) (d d' : System) : Prop :=
  if focused then Typed c regs d.sched d'.sched ∧ d'.windows = d.windows
  else
    d'.windows = updateFocusedWindow (.keypress scancode c) d.windows ∧
      StdinAlone d.sched d'.sched

def Independent (scancode c : Nat) (focused : Bool) (d : System) : Prop :=
  isChord scancode d.sched ∨
    if focused then
      stdinFull d.sched → c = charBackspace ∧ d.sched.stdin.readIndex = d.sched.stdin.writeIndex
    else if stdinFull d.sched then NoRoom d.windows
    else wakesReader scancode d.sched → callerGone d.sched

section Key
variable {d d' : System} {s t : Sched} {ws ws' : WindowManager} {scancode c : Nat} {focused : Bool}
  {regs : Registers}

/-! ### What a key press does -/

inductive Routed (scancode c : Nat) (focused : Bool) (regs : Registers) (s : Sched)
    (ws : WindowManager) : Sched → WindowManager → Prop
  | chord : isChord scancode s →
      Routed scancode c focused regs s ws (typeChar c focused s) (sendChar scancode c focused ws)
  | dropped : ¬isChord scancode s → stdinFull s → Routed scancode c focused regs s ws s ws
  | routed : ¬isChord scancode s → ¬stdinFull s → ¬wakesReader scancode (typeChar c focused s) →
      Routed scancode c focused regs s ws (typeChar c focused s) (sendChar scancode c focused ws)
  | woken {out : Outcome} : ¬isChord scancode s → ¬stdinFull s →
      wakesReader scancode (typeChar c focused s) →
      stdinWakeProcess regs (typeChar c focused s) = some out →
      Routed scancode c focused regs s ws out.sched (sendChar scancode c focused ws)

theorem inputWindows_eq (scancode : Nat) (focused : Bool) (s : Sched) (ws : WindowManager) :
    inputWindows scancode focused s ws =
      ((keyChar scancode s.shiftHeld).map fun c => sendChar scancode c focused ws).getD ws := by
  have hchar : ∀ c, (if c ≠ 0 then sendChar scancode c focused ws else ws) =
      ((if c ≠ 0 then some c else none).map fun c => sendChar scancode c focused ws).getD ws := by
    intro c
    split <;> rfl
  unfold inputWindows keyChar
  split
  · rfl
  split
  · rfl
  split
  · exact hchar _
  · rfl

theorem keyboard_routed {out : Outcome} (hc : keyPressed scancode s = some c)
    (h : keyboardHandlerMain scancode focused regs s = some out) :
    Routed scancode c focused regs s ws out.sched (keyboardWindows scancode focused s ws) := by
  unfold keyPressed at hc
  split at hc
  · cases hc
  rename_i hplain
  obtain ⟨hm, hctrl⟩ := not_or.mp fun hor => hplain (Bool.or_eq_true_iff.mpr hor)
  have hnone : handleModifiers scancode s = none := Option.not_isSome_iff_eq_none.mp hm
  unfold keyboardWindows
  rw [if_neg hm, if_neg hctrl]
  simp only [keyboardHandlerMain, hnone, if_neg hctrl] at h
  by_cases hx : isChord scancode s
  · rw [if_pos hx] at hc
    cases hc
    rw [isChord] at hx
    rw [if_pos hx] at h ⊢
    cases h
    exact .chord hx
  · rw [if_neg hx] at hc
    have hx' : ¬(s.shiftHeld && decide (scancode = scancodeEnter)) = true := hx
    rw [if_neg hx'] at h ⊢
    split at hc
    · cases hc
    rename_i hrel
    rw [if_neg hrel] at h ⊢
    by_cases hf : stdinFull s
    · rw [stdinFull] at hf
      rw [if_pos hf] at h ⊢
      cases h
      exact .dropped hx hf
    · rw [stdinFull] at hf
      rw [if_neg hf] at h ⊢
      have hinput : handleInput scancode focused s = typeChar c focused s := by
        rw [handleInput_eq, hc]
        rfl
      have hsent : inputWindows scancode focused s ws = sendChar scancode c focused ws := by
        rw [inputWindows_eq, hc]
        rfl
      rw [hinput] at h
      rw [hsent]
      split at h
      · rename_i hwake
        exact .woken hx hf (by simpa [wakesReader] using hwake) h
      · rename_i hwake
        cases h
        exact .routed hx hf (by simpa [wakesReader] using hwake)

theorem systemStep_routed {ev : Lifecycle.Event} {g : Graphics} {left : Bool}
    (he : ev.entry = .keyboard scancode left) (hc : keyPressed scancode d.sched = some c)
    (h : systemStep d (.entry ev g) = some d') :
    Routed scancode c (terminalFocused left d) ev.regs d.sched d.windows d'.sched d'.windows := by
  have hentry : (seen d ev).entry = .keyboard scancode (terminalFocused left d) := by
    rw [seen, he]
    rfl
  obtain ⟨s, hs, hrest⟩ := Option.bind_eq_some_iff.mp h
  obtain ⟨out, hout, rfl⟩ := Option.map_eq_some_iff.mp hs
  simp only [handle, hentry] at hout
  simp only [entryWindows, hentry, Option.map_some, Option.some.injEq] at hrest
  cases hrest
  exact keyboard_routed hc hout

/-! ### The two consumers -/

theorem wake_stdin {out : Outcome} (h : stdinWakeProcess regs s = some out) :
    (callerGone s ∧ out.sched = s) ∨
      (¬callerGone s ∧ s.stdin.waitQueue.process ≠ none ∧ out.sched.stdin.waitQueue.process = none) := by
  obtain ⟨cur, hcur, h1⟩ := Option.bind_eq_some_iff.mp h
  by_cases hz : cur.status = .zombie
  · rw [if_pos hz] at h1
    cases h1
    refine .inl ⟨?_, rfl⟩
    rw [callerGone, hcur, Option.map_some, hz]
  · rw [if_neg hz] at h1
    obtain ⟨a, ha, h2⟩ := Option.bind_eq_some_iff.mp h1
    obtain ⟨p, _, h3⟩ := Option.bind_eq_some_iff.mp h2
    obtain ⟨cur', _, h4⟩ := Option.bind_eq_some_iff.mp h3
    cases h4
    refine .inr ⟨fun h => ?_, fun h => ?_, rfl⟩
    · rw [callerGone, hcur] at h
      exact hz (Option.some.inj h)
    · rw [ha] at h
      cases h

/-- A full ring changes with every character, but for a backspace that finds nothing to erase. -/
theorem typeChar_same (hf : stdinFull s) : typeChar c true s = s ↔
    c = charBackspace ∧ s.stdin.readIndex = s.stdin.writeIndex := by
  have hring : typeChar c true s = s ↔ stdinWrite c s.stdin = s.stdin := by
    constructor
    · exact congrArg Sched.stdin
    · intro h
      rw [typeChar, if_pos rfl, h]
  rw [hring]
  have hsize : (standardInBufferSize : Int) = 256 := rfl
  rw [stdinFull, hsize] at hf
  unfold stdinWrite
  split
  · rename_i hc
    split
    · rename_i hr
      exact iff_of_true rfl ⟨hc, hr⟩
    · rename_i hr
      refine iff_of_false (fun h => ?_) fun h => hr h.2
      have hcount : max 0 (s.stdin.count - 1) = s.stdin.count := congrArg StdinBuffer.count h
      omega
  · rename_i hc
    refine iff_of_false (fun h => ?_) fun h => hc h.1
    have hcount : s.stdin.count + 1 = s.stdin.count := congrArg StdinBuffer.count h
    omega

theorem typeChar_slot : (typeChar c focused s).stdin.waitQueue = s.stdin.waitQueue := by
  cases focused with
  | true => exact stdinWrite_waitQueue c s.stdin
  | false => rfl

theorem typed_self (hf : stdinFull s) : Typed c regs s s ↔
    c = charBackspace ∧ s.stdin.readIndex = s.stdin.writeIndex := by
  rw [← typeChar_same hf]
  constructor
  · rintro (h | ⟨out, hout, h⟩)
    · exact h.symm
    · rcases wake_stdin hout with ⟨-, he⟩ | ⟨-, hslot, hcleared⟩
      · exact (h.trans he).symm
      · rw [← h] at hcleared
        rw [typeChar_slot] at hslot
        exact absurd hcleared hslot
  · intro h
    exact .inl h.symm

theorem StdinAlone.refl (s : Sched) : StdinAlone s s := ⟨rfl, fun _ _ => rfl⟩

/-- While the terminal has the focus no window is told. -/
theorem Routed.terminal (h : Routed scancode c true regs s ws t ws') :
    ws' = ws ∧ (Typed c regs s t ↔ isChord scancode s ∨
      (stdinFull s → c = charBackspace ∧ s.stdin.readIndex = s.stdin.writeIndex)) := by
  cases h with
  | chord hx => exact ⟨rfl, iff_of_true (.inl rfl) (.inl hx)⟩
  | dropped hx hf =>
    refine ⟨rfl, (typed_self hf).trans ?_⟩
    exact ⟨fun h => .inr fun _ => h, fun h => h.resolve_left hx hf⟩
  | routed _ hf _ => exact ⟨rfl, iff_of_true (.inl rfl) (.inr fun h => absurd h hf)⟩
  | woken _ hf _ hw => exact ⟨rfl, iff_of_true (.inr ⟨_, hw, rfl⟩) (.inr fun h => absurd h hf)⟩

theorem Routed.window (h : Routed scancode c false regs s ws t ws') :
    (ws' = updateFocusedWindow (.keypress scancode c) ws ∧ StdinAlone s t) ↔
      isChord scancode s ∨
        if stdinFull s then NoRoom ws else wakesReader scancode s → callerGone s := by
  cases h with
  | chord hx => exact iff_of_true ⟨rfl, .refl s⟩ (.inl hx)
  | dropped hx hf =>
    rw [if_pos hf, or_iff_right hx, ← updateFocusedWindow_same (.keypress scancode c) ws]
    exact ⟨fun h => h.1.symm, fun h => ⟨h.symm, .refl s⟩⟩
  | routed hx hf hw =>
    rw [if_neg hf]
    exact iff_of_true ⟨rfl, .refl s⟩ (.inr fun h => absurd h hw)
  | woken hx hf hw hout =>
    rw [if_neg hf, or_iff_right hx]
    rcases wake_stdin hout with ⟨hgone, he⟩ | ⟨hlive, hslot, hcleared⟩
    · rw [he]
      exact iff_of_true ⟨rfl, .refl s⟩ fun _ => hgone
    · refine iff_of_false (fun h => ?_) fun h => hlive (h hw)
      rw [h.2.stdin] at hcleared
      exact hslot hcleared

end Key

/-- A key press affects the one consumer that has the focus exactly if the terminal finds room for
it, or a window finds room in standard input too and nobody there to be woken. -/
theorem key_one_consumer {d d' : System} {ev : Lifecycle.Event} {g : Graphics} {scancode c : Nat}
    {left : Bool} (he : ev.entry = .keyboard scancode left)
    (hc : keyPressed scancode d.sched = some c) (h : systemStep d (.entry ev g) = some d') :
    OneConsumer scancode c (terminalFocused left d) ev.regs d d' ↔
      Independent scancode c (terminalFocused left d) d := by
  have hrouted := systemStep_routed he hc h
  unfold OneConsumer Independent
  cases hfocus : terminalFocused left d with
  | true =>
    rw [hfocus] at hrouted
    obtain ⟨hsame, hiff⟩ := hrouted.terminal
    rw [if_pos rfl, if_pos rfl, ← hiff]
    exact and_iff_left hsame
  | false =>
    rw [hfocus] at hrouted
    rw [if_neg Bool.false_ne_true, if_neg Bool.false_ne_true]
    exact hrouted.window

/-! ### A key for a window, and Enter while main reads -/

def windowFocused : List Input := [windowCall 18 0] ++ pressAt 505 160

theorem windowKey_one_consumer : ∃ d d', Reach systemStep anyStep (bootSystem sampleDesktop) d ∧
    systemStep d (.entry (keyDown 0x1E) noGraphics) = some d' ∧
    OneConsumer 0x1E 97 (terminalFocused true d) default d d' := by
  obtain ⟨d, hr, hc, hstep, hroom, hnone⟩ : ∃ d, Reach systemStep anyStep (bootSystem sampleDesktop) d ∧
      keyPressed 0x1E d.sched = some 97 ∧
      (systemStep d (.entry (keyDown 0x1E) noGraphics)).isSome ∧ ¬stdinFull d.sched ∧
      ¬wakesReader 0x1E d.sched :=
    reach_of_test windowFocused (guarded_anyStep _ _) (by decide +kernel)
  obtain ⟨d', hd'⟩ := Option.isSome_iff_exists.mp hstep
  refine ⟨d, d', hr, hd', (key_one_consumer rfl hc hd').mpr (.inr ?_)⟩
  rw [if_neg hroom]
  split
  · exact fun h => absurd h hroom
  · exact fun h => absurd h hnone

def stdinFilled : List Input := windowFocused ++ [.entry (call 4 0 256) noGraphics]

def queueSizes (d : System) : List Nat := d.windows.windows.map (·.eventQueue.size)

/-- The handler returns on the full ring and the focused window never sees the key. -/
theorem windowKey_dropped : ¬ ∀ c d ev g scancode ch left d',
    Reach systemStep anyStep (bootSystem c) d → ev.entry = .keyboard scancode left →
    keyPressed scancode d.sched = some ch → systemStep d (.entry ev g) = some d' →
    OneConsumer scancode ch (terminalFocused left d) ev.regs d d' := by
  intro hall
  obtain ⟨d, hr, hc, hfocus, hstep, hsizes⟩ : ∃ d, Reach systemStep anyStep (bootSystem sampleDesktop) d ∧
      keyPressed 0x1E d.sched = some 97 ∧ terminalFocused true d = false ∧
      (systemStep d (.entry (keyDown 0x1E) noGraphics)).any (fun d' => decide (queueSizes d' = [0, 1])) ∧
      (updateFocusedWindow (.keypress 0x1E 97) d.windows).windows.map (·.eventQueue.size) = [0, 2] :=
    reach_of_test stdinFilled (guarded_anyStep _ _) (by decide +kernel)
  obtain ⟨d', hd', hsame⟩ := (Option.any_eq_true _ _).mp hstep
  have hone := hall _ d (keyDown 0x1E) noGraphics _ _ _ d' hr rfl hc hd'
  rw [OneConsumer, hfocus, if_neg Bool.false_ne_true] at hone
  have hsame' := of_decide_eq_true hsame
  rw [queueSizes, hone.1, hsizes] at hsame'
  exact absurd hsame' (by decide)

end AdamOS.Desktop
