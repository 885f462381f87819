import AdamOS.Display.KeyRouting
import AdamOS.Kernel.WakeReasons

/-! Lines typed for a reader of standard input. A read of 255 characters blocks while there are fewer,
whether or not they hold an end of line, and Enter ends it with all that has been typed. -/
namespace AdamOS.Desktop
open AdamOS.Lifecycle AdamOS.Process AdamOS.Ring AdamOS.Scheduler AdamOS.Transition AdamOS.Word

/- MAX_INPUT - 1 -/
def lineMax : Nat := 255

def buffered (b : StdinBuffer) : List Nat :=
  contents standardInBufferSize b.buffer b.readIndex.toNat b.count.toNat

def OnStdin (sc : Syscall) (s : Sched) (ev : Lifecycle.Event) : Prop :=
  Calls ev sc ∧ s.currentProcess.bind (fdType ev.regs.ebx) = some .stdin

instance (sc : Syscall) (s : Sched) (ev : Lifecycle.Event) : Decidable (OnStdin sc s ev) :=
  inferInstanceAs (Decidable (_ ∧ _))

def charTyped (s : Sched) (ev : Lifecycle.Event) : Option Nat :=
  match ev.entry with
  | .keyboard scancode _ => keyPressed scancode s
  | _ => none

def toTerminal (ev : Lifecycle.Event) : Bool :=
  match ev.entry with
  | .keyboard _ focused => focused
  | _ => false

def interrupts (s : Sched) (ev : Lifecycle.Event) : Bool :=
  match ev.entry with
  | .keyboard scancode _ => isCtrlC scancode s
  | _ => false

def ReadServed (s : Sched) (ev : Lifecycle.Event) : Prop := OnStdin .read s ev ∧ ¬readBlocks ev.regs s

instance (s : Sched) (ev : Lifecycle.Event) : Decidable (ReadServed s ev) :=
  inferInstanceAs (Decidable (_ ∧ _))

def copied (s : Sched) (ev : Lifecycle.Event) : Option (List Nat) :=
  if ReadServed s ev then some (stdinRead (toInt32 ev.regs.edx) s.stdin).1
  else (wakeCall s ev).bind fun u => (wakeRead u).map fun len => (stdinRead len u.stdin).1

/- A process that is blocked in a read, as the entry is, and goes on after it. -/
def LeavesRead (s : Sched) (ev : Lifecycle.Event) (t : Sched) (p : Pcb) : Prop :=
  blockedAs (onEntry s ev) ev.regs .read p ∧
    ∃ q ∈ t.procs, q.addr = p.addr ∧ (q.status = .ready ∨ q.status = .running)

instance (s : Sched) (ev : Lifecycle.Event) (t : Sched) (p : Pcb) : Decidable (LeavesRead s ev t p) :=
  inferInstanceAs (Decidable (_ ∧ ∃ q ∈ t.procs, _))

/- The buffers of the reads that return: of the one that is served, or of each that was blocked. Only the
   process in the slot gets what stdin_wake_process copies. -/
def returned (s : Sched) (ev : Lifecycle.Event) (t : Sched) : List (List Nat) :=
  if ReadServed s ev then (copied s ev).toList
  else ((onEntry s ev).procs.filter fun p => decide (LeavesRead s ev t p)).map fun p =>
    if queued s = some p.addr then (copied s ev).getD [] else []

/- The processes, the line that is being typed, the lines before it and what the reads returned. -/
structure LineWatch where
  sched : Sched
  line : List Nat
  lines : List (List Nat)
  reads : List (List Nat)

def startLines (s : Sched) : LineWatch := ⟨s, [], [], []⟩

def noteChar (w : LineWatch) : Option Nat → LineWatch
  | none => w
  | some c =>
    if c = charNewline then { w with line := [], lines := w.lines ++ [w.line] }
    else { w with line := w.line ++ [c] }

def lineWatch (w : LineWatch) (ev : Lifecycle.Event) : Option LineWatch :=
  (Lifecycle.step w.sched ev).map fun t =>
    { noteChar w (charTyped w.sched ev) with
      sched := t
      reads := w.reads ++ returned w.sched ev t }

/- The i-th read returns the i-th line, and a read that finds a complete line does not wait. -/
structure LinesRead (w : LineWatch) : Prop where
  exact : w.reads <+: w.lines
  prompt : charNewline ∈ buffered w.sched.stdin → ∀ ev, OnStdin .read w.sched ev →
    ev.regs.edx = lineMax → ¬readBlocks ev.regs w.sched

/- Lines of less than 255 characters are typed into the terminal, the buffer is never full, and one
   reader makes one read of 255 characters after the other. Nobody else uses standard input. -/
structure TypesLines (w : LineWatch) (ev : Lifecycle.Event) : Prop where
  plain : interrupts w.sched ev = false
  key : ∀ c ∈ charTyped w.sched ev, toTerminal ev = true ∧ c ≠ charBackspace ∧
    w.sched.stdin.count + 1 < standardInBufferSize ∧ (c ≠ charNewline → w.line.length + 1 < lineMax)
  read : OnStdin .read w.sched ev → ev.regs.edx = lineMax ∧ queued w.sched = none
  write : ¬OnStdin .write w.sched ev

/- Enter is pressed while the reader waits, and the process it interrupts is no ZOMBIE; or nobody
   waits and the line has 254 characters. -/
def EnterAwaited (w : LineWatch) (ev : Lifecycle.Event) : Prop :=
  charTyped w.sched ev = some charNewline →
    if queued w.sched = none then w.line.length + 1 = lineMax else ¬callerGone w.sched

/- Besides, nothing but a key press ends a read that waits. -/
def LineGuard (w : LineWatch) (ev : Lifecycle.Event) : Prop :=
  TypesLines w ev ∧ EnterAwaited w ev ∧ SlotGuard w.sched ev

instance (s : Sched) : Decidable (callerGone s) := inferInstanceAs (Decidable (_ = _))

instance (w : LineWatch) (ev : Lifecycle.Event) : Decidable (TypesLines w ev) :=
  decidable_of_iff (interrupts w.sched ev = false ∧
      (∀ c ∈ charTyped w.sched ev, toTerminal ev = true ∧ c ≠ charBackspace ∧
        w.sched.stdin.count + 1 < standardInBufferSize ∧
          (c ≠ charNewline → w.line.length + 1 < lineMax)) ∧
      (OnStdin .read w.sched ev → ev.regs.edx = lineMax ∧ queued w.sched = none) ∧
      ¬OnStdin .write w.sched ev)
    ⟨fun h => ⟨h.1, h.2.1, h.2.2.1, h.2.2.2⟩, fun h => ⟨h.plain, h.key, h.read, h.write⟩⟩

instance (w : LineWatch) (ev : Lifecycle.Event) : Decidable (EnterAwaited w ev) :=
  inferInstanceAs (Decidable (_ → _))

instance (w : LineWatch) (ev : Lifecycle.Event) : Decidable (LineGuard w ev) :=
  inferInstanceAs (Decidable (_ ∧ _))

section Entry
variable {s t : Sched} {ev : Lifecycle.Event} {c scancode : Nat} {q : List Nat} {b : StdinBuffer}

theorem represents_buffered (h : Represents b q) : buffered b = q := by
  have hcount := h.count
  unfold buffered
  rw [hcount, Int.toNat_natCast]
  exact h.chars

/-! ### Entries that are no key press -/

/-- Of the calls only a read that blocks and the use of descriptor 0 change standard input. -/
theorem enters_stdin {u : Sched} (hl : Listed s) (h : enters s ev = some u) : u.stdin =
    if OnStdin .read s ev then { s.stdin with waitQueue := ⟨some s.current, toInt32 ev.regs.edx⟩ }
    else s.stdin := by
  obtain ⟨cur, -, -, hcur⟩ := currentProcess_eq hl
  cases he : ev.entry with
  | timer =>
    have hno : ¬OnStdin .read s ev := fun hr => by
      have := hr.1.1
      rw [he] at this
      cases this
    simp only [enters, hcur, he, Option.bind_eq_bind, Option.bind_some] at h
    cases h
    rw [if_neg hno]
  | keyboard k f =>
    simp only [enters, hcur, he, Option.bind_eq_bind, Option.bind_some] at h
    cases h
  | syscall =>
    rw [enters_syscall hcur he] at h
    cases hn : Syscall.ofNumber ev.regs.eax with
    | none => simp [hn] at h
    | some sc =>
      have hcall : Calls ev sc := ⟨he, hn⟩
      have hno : sc ≠ .read → ¬OnStdin .read s ev := fun hne hr => hne (hcall.unique hr.1)
      simp only [hn] at h
      cases sc with
      | read =>
        dsimp only at h
        split at h
        · rename_i hb
          cases h
          simp only [blocksOnStdin, Bool.and_eq_true, decide_eq_true_eq] at hb
          have hon : OnStdin .read s ev := ⟨hcall, by rw [hcur]; exact hb.1⟩
          rw [if_pos hon]
        · cases h
      | exit =>
        rw [if_neg (hno (by decide))]
        dsimp only at h
        split at h <;> (cases h; rfl)
      | wait =>
        rw [if_neg (hno (by decide))]
        cases h
        rfl
      | sleep =>
        rw [if_neg (hno (by decide))]
        dsimp only at h
        split at h
        · cases h
        · cases h
          rfl
      | _ => cases h

/-- A read that finds too few characters takes the wait queue. -/
theorem read_blocked (hl : Listed s) (hr : OnStdin .read s ev) (hb : readBlocks ev.regs s)
    (h : Lifecycle.step s ev = some t) :
    t.stdin = { s.stdin with waitQueue := ⟨some s.current, toInt32 ev.regs.edx⟩ } := by
  obtain ⟨out, hout, rfl⟩ := Option.map_eq_some_iff.mp h
  obtain ⟨cur, -, -, hcur⟩ := currentProcess_eq hl
  have hfd : fdType ev.regs.ebx cur = some .stdin := by
    have := hr.2
    rwa [hcur] at this
  have hblocks : blocksOnStdin ev.regs s cur = true := by simp [blocksOnStdin, hfd, hb]
  cases hent : enters s ev with
  | none =>
    rw [enters_syscall hcur hr.1.1] at hent
    simp only [hr.1.2, hblocks, if_true] at hent
    cases hent
  | some u =>
    rw [handle_of_enters hcur hent] at hout
    obtain ⟨_, _, hentered⟩ := enters_spec hl hent
    obtain ⟨-, hrest⟩ := updateScheduler_round (hentered.listed hl) hout
    rw [hrest.stdin, enters_stdin hl hent, if_pos hr]

theorem read_served (hl : Listed s) (hr : OnStdin .read s ev) (hb : ¬readBlocks ev.regs s)
    (h : Lifecycle.step s ev = some t) : t.stdin = (stdinRead (toInt32 ev.regs.edx) s.stdin).2 := by
  obtain ⟨out, hout, rfl⟩ := Option.map_eq_some_iff.mp h
  obtain ⟨cur, -, -, hcur⟩ := currentProcess_eq hl
  have hfd : fdType ev.regs.ebx cur = some .stdin := by
    have := hr.2
    rwa [hcur] at this
  simp only [handle, hr.1.1, syscallHandlerMain, hr.1.2, handleSyscallRead, hcur, Option.bind_eq_bind,
    Option.bind_some, hfd, if_neg hb] at hout
  cases hout
  rfl

theorem other_stdin (hl : Listed s) (hkey : ∀ k f, ev.entry ≠ .keyboard k f)
    (hr : ¬OnStdin .read s ev) (hw : ¬OnStdin .write s ev) (h : Lifecycle.step s ev = some t) :
    t.stdin = s.stdin := by
  have hslot : t.stdin.waitQueue = s.stdin.waitQueue := by
    obtain ⟨_, _, heff⟩ := step_effect hl h
    cases heff with
    | quiet hq => exact hq.slot
    | schedule he hu =>
      obtain ⟨_, _, hentered⟩ := enters_spec hl he
      obtain ⟨-, hrest⟩ := updateScheduler_round (hentered.listed hl) hu
      rw [hrest.stdin, enters_stdin hl he, if_neg hr]
    | fork _ _ _ _ hst => rw [hst]
    | kill _ hrem => cases hrem <;> rfl
    | interrupt he => exact absurd he (hkey _ _)
    | wake he => exact absurd he (hkey _ _)
  have hops : performed s ev = [] := by
    unfold performed requested
    cases he : ev.entry with
    | timer => split <;> rfl
    | keyboard k f => exact absurd he (hkey k f)
    | syscall =>
      have hnone : syscallOps ev.env ev.regs s = [] := by
        unfold syscallOps
        dsimp only
        split
        · rename_i hn
          exact if_neg fun hb => hr ⟨⟨he, hn⟩, hb.1⟩
        · rename_i hn
          exact if_neg fun hb => hw ⟨⟨he, hn⟩, hb⟩
        · rfl
      dsimp only
      rw [hnone]
      split <;> rfl
  have hring := step_ring hl h
  rw [hops] at hring
  rw [hring, hslot]
  rfl

/-! ### Key presses -/

theorem keyChar_newline {shift : Bool} (h : keyChar scancode shift = some charNewline) :
    scancode = scancodeEnter := by
  have htable : ∀ shift : Bool, ∀ k < scancodeToAscii.length,
      (if shift then scancodeToAsciiShift else scancodeToAscii).getD k 0 ≠ charNewline := by decide
  unfold keyChar at h
  split at h
  · assumption
  split at h
  · cases h
  split at h
  · rename_i hlt
    have hother := htable shift scancode hlt
    dsimp only at h
    generalize (if shift then scancodeToAsciiShift else scancodeToAscii).getD scancode 0 = k at h hother
    split at h
    · exact absurd (Option.some.inj h) hother
    · cases h
  · cases h

/-- Without Shift the end of a line is typed by Enter, and by no other key. -/
theorem newline_iff (hc : keyPressed scancode s = some c) (hx : isChord scancode s = false) :
    c = charNewline ↔ scancode = scancodeEnter := by
  unfold keyPressed at hc
  rw [hx, if_neg Bool.false_ne_true] at hc
  split at hc
  · cases hc
  split at hc
  · cases hc
  · constructor
    · rintro rfl
      exact keyChar_newline hc
    · rintro rfl
      exact (Option.some.inj hc).symm

theorem keyboard_copied {focused : Bool} (he : ev.entry = .keyboard scancode focused) : copied s ev =
    (wakeCall s ev).bind fun u => (wakeRead u).map fun len => (stdinRead len u.stdin).1 := by
  have hno : ¬OnStdin .read s ev := fun hr => by
    have := hr.1.1
    rw [he] at this
    cases this
  exact if_neg fun h => hno h.1

/-- A key without a character, while a reader that waits has to wait on. -/
theorem key_silent {focused : Bool} (he : ev.entry = .keyboard scancode focused)
    (hctrl : isCtrlC scancode s = false) (hc : keyPressed scancode s = none)
    (hwait : queued s ≠ none → s.stdin.count < s.stdin.waitQueue.requestedLen)
    (h : Lifecycle.step s ev = some t) : t.stdin = s.stdin ∧ copied s ev = none := by
  obtain ⟨out, hout, rfl⟩ := Option.map_eq_some_iff.mp h
  rw [keyboard_copied he]
  simp only [handle, he, keyboardHandlerMain, hctrl] at hout
  simp only [wakeCall, he, hctrl]
  cases hm : handleModifiers scancode s with
  | some u =>
    simp only [hm] at hout
    cases hout
    exact ⟨handleModifiers_stdin hm, by simp⟩
  | none =>
    unfold keyPressed at hc
    simp only [hm, hctrl, Option.isSome_none, Bool.or_self, Bool.false_eq_true, if_false] at hc hout ⊢
    by_cases hx : isChord scancode s = true
    · rw [if_pos hx] at hc
      cases hc
    rw [if_neg hx] at hc
    have hx' : ¬(s.shiftHeld && decide (scancode = scancodeEnter)) = true := hx
    rw [if_neg hx'] at hout
    by_cases hrel : scancode &&& scancodeReleaseMask ≠ 0
    · rw [if_pos hrel] at hout
      cases hout
      exact ⟨rfl, by simp [hrel]⟩
    rw [if_neg hrel] at hc hout
    by_cases hfull : (standardInBufferSize : Int) ≤ s.stdin.count
    · rw [if_pos hfull] at hout
      cases hout
      exact ⟨rfl, by simp [hfull]⟩
    have hinput : handleInput scancode focused s = s := by
      rw [handleInput_eq, hc]
      rfl
    have henter : scancode ≠ scancodeEnter := by
      rintro rfl
      cases hc
    have htest : ¬(s.stdin.waitQueue.process.isSome &&
        (decide (s.stdin.waitQueue.requestedLen ≤ s.stdin.count) || decide (scancode = scancodeEnter))) =
          true := by
      intro htest
      simp only [henter, decide_false, Bool.or_false, Bool.and_eq_true, decide_eq_true_eq] at htest
      have := hwait fun hq => by
        rw [queued] at hq
        rw [hq] at htest
        cases htest.1
      omega
    rw [if_neg hfull, hinput, if_neg htest] at hout
    cases hout
    refine ⟨rfl, ?_⟩
    rw [hinput, if_neg htest]
    simp

/-- stdin_wake_process, where it returns at once and where it ends the read. -/
theorem wake_read {u : Sched} {regs : Registers} {out : Outcome}
    (h : stdinWakeProcess regs u = some out) :
    (callerGone u ∧ wakeRead u = none ∧ out.sched = u) ∨
      wakeRead u = some (min u.stdin.count u.stdin.waitQueue.requestedLen) ∧ out.sched.stdin =
        { (stdinRead (min u.stdin.count u.stdin.waitQueue.requestedLen) u.stdin).2 with
          waitQueue := ⟨none, -1⟩ } := by
  obtain ⟨cur, hcur, h1⟩ := Option.bind_eq_some_iff.mp h
  by_cases hz : cur.status = .zombie
  · rw [if_pos hz] at h1
    cases h1
    refine .inl ⟨?_, by simp [wakeRead, hcur, hz], rfl⟩
    rw [callerGone, hcur, Option.map_some, hz]
  · rw [if_neg hz] at h1
    obtain ⟨a, _, h2⟩ := Option.bind_eq_some_iff.mp h1
    obtain ⟨p, _, h3⟩ := Option.bind_eq_some_iff.mp h2
    obtain ⟨cur', _, h4⟩ := Option.bind_eq_some_iff.mp h3
    cases h4
    exact .inr ⟨by simp [wakeRead, hcur, hz], rfl⟩

/-- Whether a key with a character calls stdin_wake_process. -/
theorem wakeCall_key {focused : Bool} (he : ev.entry = .keyboard scancode focused)
    (hc : keyPressed scancode s = some c) (hfull : ¬stdinFull s) : wakeCall s ev =
      if isChord scancode s = false ∧ wakesReader scancode (typeChar c focused s) then
        some (typeChar c focused s) else none := by
  unfold keyPressed at hc
  split at hc
  · cases hc
  rename_i hplain
  have hfull' : ¬(standardInBufferSize : Int) ≤ s.stdin.count := hfull
  simp only [wakeCall, he, Bool.or_eq_true, decide_eq_true_eq]
  cases hx : isChord scancode s with
  | true =>
    have hx' : (s.shiftHeld && decide (scancode = scancodeEnter)) = true := hx
    have hchord : (((handleModifiers scancode s).isSome = true ∨ isCtrlC scancode s = true) ∨
        (s.shiftHeld && decide (scancode = scancodeEnter)) = true) ∨
        scancode &&& scancodeReleaseMask ≠ 0 := .inl (.inr hx')
    rw [if_pos (.inl hchord)]
    exact (if_neg fun h => by cases h.1).symm
  | false =>
    rw [hx, if_neg Bool.false_ne_true] at hc
    split at hc
    · cases hc
    rename_i hrel
    have hinput : handleInput scancode focused s = typeChar c focused s := by
      rw [handleInput_eq, hc]
      rfl
    have hx' : ¬(s.shiftHeld && decide (scancode = scancodeEnter)) = true := by
      rw [← isChord, hx]
      exact Bool.false_ne_true
    rw [if_neg, hinput]
    · refine if_congr ?_ rfl rfl
      rw [Bool.and_eq_true, Bool.or_eq_true, decide_eq_true_eq, decide_eq_true_eq]
      exact ⟨fun h => ⟨rfl, h⟩, fun h => h.2⟩
    · rintro (((h | h) | h) | h)
      · exact hplain (Bool.or_eq_true_iff.mpr h)
      · exact hx' h
      · exact hrel h
      · exact hfull' h

inductive Keyed (s : Sched) (ev : Lifecycle.Event) (c : Nat) (t : Sched) : Prop
  | kept : copied s ev = none → t.stdin = stdinWrite c s.stdin →
      (c = charNewline → queued s = none ∨ callerGone s) → Keyed s ev c t
  | woke {r : List Nat × StdinBuffer} : queued s ≠ none →
      (c = charNewline ∨ s.stdin.waitQueue.requestedLen ≤ (stdinWrite c s.stdin).count) →
      r = stdinRead (min (stdinWrite c s.stdin).count s.stdin.waitQueue.requestedLen)
        (stdinWrite c s.stdin) →
      copied s ev = some r.1 → t.stdin = { r.2 with waitQueue := ⟨none, -1⟩ } → Keyed s ev c t

theorem key_typed (he : ev.entry = .keyboard scancode true) (hc : keyPressed scancode s = some c)
    (hfull : ¬stdinFull s) (h : Lifecycle.step s ev = some t) : Keyed s ev c t := by
  obtain ⟨out, hout, rfl⟩ := Option.map_eq_some_iff.mp h
  have hcall := wakeCall_key he hc hfull
  have hret := @keyboard_copied s ev _ _ he
  simp only [handle, he] at hout
  have hslot : (stdinWrite c s.stdin).waitQueue = s.stdin.waitQueue := stdinWrite_waitQueue c s.stdin
  have hrouted := @keyboard_routed s Windows.initial _ _ _ _ _ hc hout
  generalize out.sched = t at *
  generalize keyboardWindows scancode true s Windows.initial = ws at hrouted
  cases hrouted with
  | chord hx =>
    rw [hcall, if_neg fun h => by rw [hx] at h; cases h.1] at hret
    refine .kept hret rfl fun hn => ?_
    unfold keyPressed at hc
    rw [hx, if_pos rfl, hn] at hc
    split at hc <;> cases hc
  | dropped _ hf => exact absurd hf hfull
  | routed hx _ hw =>
    rw [hcall, if_neg fun h => hw h.2] at hret
    refine .kept hret rfl fun hn => .inl ?_
    have henter := (newline_iff hc (Bool.eq_false_iff.mpr hx)).mp hn
    by_contra hq
    refine hw ⟨?_, .inr henter⟩
    rw [typeChar_slot]
    exact Option.isSome_iff_ne_none.mpr hq
  | woken hx _ hw hout' =>
    rw [hcall, if_pos ⟨Bool.eq_false_iff.mpr hx, hw⟩, Option.bind_some] at hret
    obtain ⟨hsome, hlen⟩ := hw
    rw [typeChar_slot] at hsome hlen
    rcases wake_read hout' with ⟨hgone, hnone, hu⟩ | ⟨hread, hst⟩
    · rw [hnone] at hret
      exact .kept hret (congrArg Sched.stdin hu) fun _ => .inr hgone
    · rw [hread, Option.map_some] at hret
      refine .woke (Option.isSome_iff_ne_none.mp hsome) ?_ (congrArg₂ stdinRead ?_ rfl) hret hst
      · rcases hlen with hlen | henter
        · exact .inr hlen
        · exact .inl ((newline_iff hc (Bool.eq_false_iff.mpr hx)).mpr henter)
      · exact congrArg (fun q : WaitQueue => min (stdinWrite c s.stdin).count q.requestedLen) hslot

theorem readLine {l : List Nat} (h : Represents b (l ++ [charNewline])) (hl : ∀ c ∈ l, visible c)
    {len : Int} (hlen : len = l.length + 1) :
    (stdinRead len b).1 = l ∧ Represents (stdinRead len b).2 [] := by
  have hall : (l ++ [charNewline]).length = l.length + 1 := by
    rw [List.length_append, List.length_singleton]
  have hnat : len.toNat = (l ++ [charNewline]).length := by omega
  obtain ⟨hbytes, hring⟩ := h.readLoop len.toNat (Nat.le_of_eq hnat)
  rw [hnat, List.take_length, List.filter_append, List.filter_eq_self.mpr hl] at hbytes
  rw [hnat, List.drop_length] at hring
  unfold stdinRead
  rw [hnat]
  exact ⟨hbytes.trans (List.append_nil l), hring⟩

end Entry

/-! ### Every return from a read -/

section Returns
variable {s t u : Sched} {ev : Lifecycle.Event} {p : Pcb}

/-- The key press that wakes a reader ends in stdin_wake_process. -/
theorem wakeCall_spec (h : wakeCall s ev = some u) : handle s ev = stdinWakeProcess ev.regs u ∧
    u.procs = s.procs ∧ Quiet s u ∧ queued u ≠ none := by
  cases he : ev.entry with
  | timer => simp [wakeCall, he] at h
  | syscall => simp [wakeCall, he] at h
  | keyboard scancode focused =>
    obtain ⟨⟨hm, hc, hx, hr⟩, hu⟩ := wakeCall_ring he h
    simp only [wakeCall, he] at h
    split at h
    · cases h
    rename_i hno
    split at h
    · rename_i hslot
      have hroom : ¬(standardInBufferSize : Int) ≤ s.stdin.count := by
        intro hfull
        exact hno (Bool.or_eq_true_iff.mpr (.inr (decide_eq_true hfull)))
      refine ⟨?_, hu ▸ handleInput_procs .., hu ▸ handleInput_quiet .., ?_⟩
      · simp only [handle, he, keyboardHandlerMain, hm, if_neg hc, if_neg hx, if_neg (not_not.mpr hr),
          if_neg hroom, if_pos hslot, hu]
      · rw [hu]
        exact Option.isSome_iff_ne_none.mp (Bool.and_eq_true_iff.mp hslot).1
    · cases h

theorem enters_wakeCall (h : enters s ev = some u) : wakeCall s ev = none := by
  cases he : ev.entry with
  | timer => simp only [wakeCall, he]
  | syscall => simp only [wakeCall, he]
  | keyboard scancode focused =>
    obtain ⟨cur, hcur, h1⟩ := Option.bind_eq_some_iff.mp h
    rw [he] at h1
    cases h1

/-- update_scheduler lets nobody go on out of a read. -/
theorem schedule_keepsReaders (hi : SlotInv s) (ho : OnlySlot s) (hg : SlotGuard s ev)
    (ha : ReadsAlone s ev) (he : enters s ev = some u) (h : Lifecycle.step s ev = some t)
    (hp : p ∈ u.procs) : ¬LeavesRead s ev t p := by
  rintro ⟨hb, q, hq, hqa, hst⟩
  rw [onEntry, he, Option.getD_some] at hb
  obtain ⟨out, hout, rfl⟩ := Option.map_eq_some_iff.mp h
  obtain ⟨cur, f, hent⟩ := enters_spec hi.sane.listed he
  obtain ⟨_, _, _, hcur⟩ := currentProcess_eq hi.sane.listed
  rw [handle_of_enters hcur he] at hout
  have hlu := hent.listed hi.sane.listed
  obtain ⟨hround, -⟩ := updateScheduler_round hlu hout
  obtain ⟨ht, hwoken⟩ := hg.2.2.2 u he p hp (hent.onlySlot hi.sane ho ha hp hb.1 hb.2)
  obtain ⟨r, hr, hm⟩ := round_asleep hlu hround hq
  rw [addr_inj hlu.nodup hr hp (hm.addr.symm.trans hqa)] at hm
  have hawake : q.status ≠ .waiting := by
    rcases hst with hst | hst <;> (rw [hst]; decide)
  exact (hm.roused hb.1 hawake).1.elim ht hwoken

theorem undisturbed_keepsReaders (h : Undisturbed s t) (hno : enters s ev = none) (hp : p ∈ s.procs) :
    ¬LeavesRead s ev t p := by
  rintro ⟨hb, q, hq, hqa, hst⟩
  rw [onEntry, hno, Option.getD_none] at hb
  rcases (h p hp hb.1 q hq hqa).1 with hw | hw <;> (rw [hw] at hst; rcases hst with hst | hst <;> cases hst)

/-- While nothing but a key press ends a read, only the read that is given something returns. -/
theorem step_keepsReaders (hi : SlotInv s) (hno : enters s ev = none) (hnone : copied s ev = none)
    (h : Lifecycle.step s ev = some t) (hp : p ∈ s.procs) : ¬LeavesRead s ev t p := by
  have hs := hi.sane
  obtain ⟨_, _, heff⟩ := step_effect hs.listed h
  cases heff with
  | quiet hq => exact undisturbed_keepsReaders (hq.undisturbed hs) hno hp
  | schedule he => simp [hno] at he
  | fork _ hc hprocs => exact undisturbed_keepsReaders (fork_undisturbed hs hc hprocs) hno hp
  | kill _ hr => exact undisturbed_keepsReaders (kill_undisturbed hs hr) hno hp
  | interrupt _ _ hint =>
    cases sigintForeground_cases hs.listed hint with
    | inl hq => exact undisturbed_keepsReaders (hq.undisturbed hs) hno hp
    | inr hint => exact undisturbed_keepsReaders (hint.undisturbed hs) hno hp
  | wake _ hq hw hcall =>
    rcases wake_read hw with ⟨-, -, hsame⟩ | ⟨hread, -⟩
    · rw [hsame]
      exact undisturbed_keepsReaders (hq.undisturbed hs) hno hp
    · unfold copied at hnone
      split at hnone
      · cases hnone
      · rw [hcall, Option.bind_some, hread] at hnone
        cases hnone

/-- A delivery ends the read of the process in the slot. -/
theorem delivery_leavesRead {a : Nat} {w : Pcb} {regs : Registers} (hs : Sane s) (hno : enters s ev = none)
    (hprocs : u.procs = s.procs) (hp : p ∈ s.procs) (hpa : p.addr = a) (hb : blockedIn .read p)
    (hd : Delivery u regs a w t) : LeavesRead s ev t p := by
  have hcur : p.addr ≠ s.current := fun he => hs.awake p hp he hb.1
  refine ⟨⟨hb.1, ?_⟩, delivered regs u.current a (deliveredCount u.stdin) p, ?_, by simp, .inl ?_⟩
  · rw [onEntry, hno, Option.getD_none, frame, if_neg hcur]
    exact hb.2
  · rw [hd.procs, hprocs]
    exact List.mem_map_of_mem hp
  · rw [delivered_at hpa]
    rfl

/-- The process in the slot is the only one that leaves its read. -/
theorem only_leavesRead (hs : Sane s) (ho : OnlySlot s) (hent : enters s ev = none) (hp : p ∈ s.procs)
    (hq : queued s = some p.addr) (hleaves : LeavesRead s ev t p) :
    (s.procs.filter fun p => decide (LeavesRead s ev t p)) = [p] := by
  refine List.perm_singleton.mp ((List.perm_ext_iff_of_nodup ?_ (List.nodup_singleton p)).mpr ?_)
  · exact (hs.listed.nodup.of_map _).filter _
  · intro r
    rw [List.mem_filter, List.mem_singleton, decide_eq_true_eq]
    constructor
    · rintro ⟨hr, hrb, -⟩
      rw [onEntry, hent, Option.getD_none] at hrb
      obtain ⟨hwaits, hcall⟩ := hrb
      rw [frame, if_neg fun he => hs.awake r hr he hwaits] at hcall
      exact addr_inj hs.listed.nodup hr hp (Option.some.inj ((ho r hr ⟨hwaits, hcall⟩).symm.trans hq))
    · rintro rfl
      exact ⟨hp, hleaves⟩

/-- Every read that returns has been given what its entry copied. -/
theorem returned_copied (hi : SlotInv s) (ho : OnlySlot s) (hg : SlotGuard s ev) (ha : ReadsAlone s ev)
    (h : Lifecycle.step s ev = some t) : returned s ev t = (copied s ev).toList := by
  have hs := hi.sane
  unfold returned
  split
  · rfl
  rename_i hserved
  cases hent : enters s ev with
  | some u =>
    have hnone : copied s ev = none := by
      unfold copied
      rw [if_neg hserved, enters_wakeCall hent]
      rfl
    rw [hnone, onEntry, hent, Option.getD_some, List.filter_eq_nil_iff.mpr]
    · rfl
    · intro p hp
      simpa using schedule_keepsReaders hi ho hg ha hent h hp
  | none =>
    rw [onEntry, hent, Option.getD_none]
    cases hcopied : copied s ev with
    | none =>
      rw [List.filter_eq_nil_iff.mpr]
      · rfl
      · intro p hp
        simpa using step_keepsReaders hi hent hcopied h hp
    | some bytes =>
      unfold copied at hcopied
      rw [if_neg hserved] at hcopied
      obtain ⟨u, hcall, hread⟩ := Option.bind_eq_some_iff.mp hcopied
      obtain ⟨len, hlen, -⟩ := Option.map_eq_some_iff.mp hread
      obtain ⟨hhandle, hprocs, hquiet, hslot⟩ := wakeCall_spec hcall
      obtain ⟨out, hout, rfl⟩ := Option.map_eq_some_iff.mp h
      rw [hhandle] at hout
      rcases stdinWakeProcess_cases (hquiet.sane hs).listed hout with hsame | ⟨a, w, hd⟩
      · rcases wake_read hout with ⟨-, hgone, -⟩ | ⟨-, hempty⟩
        · rw [hgone] at hlen
          cases hlen
        · rw [hsame] at hempty
          exact absurd (congrArg (fun b => b.waitQueue.process) hempty) hslot
      · have hqs : queued s = some a := (congrArg WaitQueue.process hquiet.slot).symm.trans hd.slot
        obtain ⟨p, hp, hpa, hb⟩ := hi.reads a hqs
        have hleaves : LeavesRead s ev out.sched p := delivery_leavesRead hs hent hprocs hp hpa hb hd
        have hone := only_leavesRead hs ho hent hp (hqs.trans (congrArg some hpa.symm)) hleaves
        rw [hone, List.map_singleton, if_pos (by rw [hqs, hpa])]
        rfl

end Returns

/-! ### Runs -/

/- What the ring holds: the line that is being typed, or a line of 254 characters that no reader
   waited for. -/
inductive Holds (w : LineWatch) : List Nat → Prop
  | typing : w.reads = w.lines →
      (queued w.sched ≠ none → w.sched.stdin.waitQueue.requestedLen = lineMax) → Holds w w.line
  | ahead {l : List Nat} : l.length + 1 = lineMax → (∀ c ∈ l, visible c) → w.line = [] →
      w.lines = w.reads ++ [l] → queued w.sched = none → Holds w (l ++ [charNewline])

structure LineInv (w : LineWatch) : Prop where
  sane : Sane w.sched
  plain : ∀ c ∈ w.line, visible c
  short : w.line.length < lineMax
  ring : ∃ q, Represents w.sched.stdin q ∧ Holds w q

section Runs
variable {w w' : LineWatch} {ev : Lifecycle.Event} {t : Sched} {c : Nat}

theorem noteChar_newline (w : LineWatch) : noteChar w (some charNewline) =
    { w with line := [], lines := w.lines ++ [w.line] } := by
  rw [noteChar, if_pos rfl]

theorem noteChar_char (hn : c ≠ charNewline) (w : LineWatch) : noteChar w (some c) =
    { w with line := w.line ++ [c] } := by
  rw [noteChar, if_neg hn]

theorem boot_lineInv (c : BootConfig) : LineInv (startLines (boot c)) where
  sane := boot_sane c
  plain := fun _ h => absurd h List.not_mem_nil
  short := Nat.zero_lt_succ _
  ring := ⟨[], boot_represents c, .typing rfl fun h => absurd rfl h⟩

theorem LineInv.still (h : LineInv w) (ht : Sane t) (hst : t.stdin = w.sched.stdin) :
    LineInv { w with sched := t } := by
  obtain ⟨q, hring, hholds⟩ := h.ring
  have hqueue : queued t = queued w.sched := congrArg (fun b => b.waitQueue.process) hst
  refine ⟨ht, h.plain, h.short, q, hst ▸ hring, ?_⟩
  cases hholds with
  | typing hr hlen =>
    refine .typing hr fun hq => ?_
    exact (congrArg (fun b => b.waitQueue.requestedLen) hst).trans (hlen (hqueue ▸ hq))
  | ahead hl hv hline hlines hq => exact .ahead hl hv hline hlines (hqueue.trans hq)

/-- While there is room for a key the ring holds the line that is being typed. -/
theorem LineInv.typing (h : LineInv w) (hroom : w.sched.stdin.count + 1 < standardInBufferSize) :
    Represents w.sched.stdin w.line ∧ w.reads = w.lines ∧
      (queued w.sched ≠ none → w.sched.stdin.waitQueue.requestedLen = lineMax) := by
  obtain ⟨q, hring, hholds⟩ := h.ring
  cases hholds with
  | typing hr hlen => exact ⟨hring, hr, hlen⟩
  | ahead hl =>
    have hmax : lineMax = 255 := rfl
    have hsize : standardInBufferSize = 256 := rfl
    have hcount := hring.count
    rw [List.length_append, List.length_singleton] at hcount
    omega

theorem LineInv.newline (h : LineInv w) (ht : Sane t) (hk : Keyed w.sched ev charNewline t)
    (hroom : w.sched.stdin.count + 1 < standardInBufferSize)
    (hg : if queued w.sched = none then w.line.length + 1 = lineMax else ¬callerGone w.sched) :
    LineInv { w with
      line := []
      lines := w.lines ++ [w.line]
      sched := t
      reads := w.reads ++ (copied w.sched ev).toList } := by
  obtain ⟨hring, hr, hlen⟩ := h.typing hroom
  have hcount := hring.count
  have htyped := hring.type (show charNewline ≠ charBackspace by decide) (by omega)
  have hcount' := htyped.count
  rw [List.length_append, List.length_singleton] at hcount'
  cases hk with
  | kept hret hst hnone =>
    rw [hret]
    have hqueue : queued w.sched = none := by
      by_contra hq
      rw [if_neg hq] at hg
      exact (hnone rfl).elim hq hg
    rw [if_pos hqueue] at hg
    have hqueue' : queued t = none := by
      rw [← hqueue]
      exact congrArg WaitQueue.process ((congrArg (·.waitQueue) hst).trans (stdinWrite_waitQueue _ _))
    refine ⟨ht, fun _ h => absurd h List.not_mem_nil, Nat.zero_lt_succ _, _, hst ▸ htyped, ?_⟩
    exact .ahead hg h.plain rfl (by simp [hr]) hqueue'
  | @woke r hq _ hread hret hst =>
    have hshort : w.line.length < 255 := h.short
    have hall : min (stdinWrite charNewline w.sched.stdin).count
        w.sched.stdin.waitQueue.requestedLen = w.line.length + 1 := by
      rw [hlen hq, hcount', show lineMax = 255 from rfl]
      omega
    obtain ⟨hbytes, hrest⟩ := readLine htyped h.plain hall
    rw [← hread] at hbytes hrest
    rw [hret, hbytes]
    refine ⟨ht, fun _ h => absurd h List.not_mem_nil, Nat.zero_lt_succ _, [], ?_, ?_⟩
    · rw [hst]
      exact hrest.same rfl
    · refine .typing (by simp [hr]) fun hq' => absurd ?_ hq'
      exact congrArg (fun b => b.waitQueue.process) hst

theorem LineInv.char (h : LineInv w) (ht : Sane t) (hk : Keyed w.sched ev c t) (hc : c ≠ charBackspace)
    (hn : c ≠ charNewline) (hroom : w.sched.stdin.count + 1 < standardInBufferSize)
    (hshort : w.line.length + 1 < lineMax) :
    LineInv { w with
      line := w.line ++ [c]
      sched := t
      reads := w.reads ++ (copied w.sched ev).toList } := by
  obtain ⟨hring, hr, hlen⟩ := h.typing hroom
  have hcount := hring.count
  have htyped := hring.type hc (by omega)
  have hcount' := htyped.count
  rw [List.length_append, List.length_singleton] at hcount'
  have hvisible : visible c := by simp [visible, hc, hn]
  cases hk with
  | kept hret hst _ =>
    rw [hret]
    have hqueue : t.stdin.waitQueue = w.sched.stdin.waitQueue :=
      (congrArg (·.waitQueue) hst).trans (stdinWrite_waitQueue _ _)
    refine ⟨ht, ?_, ?_, w.line ++ [c], hst ▸ htyped, .typing (by simp [hr]) fun hq => ?_⟩
    · intro d hd
      rcases List.mem_append.mp hd with hd | hd
      · exact h.plain d hd
      · exact List.mem_singleton.mp hd ▸ hvisible
    · dsimp only
      rw [List.length_append, List.length_singleton]
      exact hshort
    · exact (congrArg WaitQueue.requestedLen hqueue).trans
        (hlen fun hnone => hq ((congrArg WaitQueue.process hqueue).trans hnone))
  | woke hq henough =>
    rcases henough with he | henough
    · exact absurd he hn
    · rw [hlen hq, hcount'] at henough
      omega

theorem LineInv.key (h : LineInv w) (ht : Sane t) (hk : Keyed w.sched ev c t) (hc : c ≠ charBackspace)
    (hroom : w.sched.stdin.count + 1 < standardInBufferSize)
    (hshort : c ≠ charNewline → w.line.length + 1 < lineMax)
    (hg : c = charNewline →
      if queued w.sched = none then w.line.length + 1 = lineMax else ¬callerGone w.sched) :
    LineInv { noteChar w (some c) with
      sched := t
      reads := w.reads ++ (copied w.sched ev).toList } := by
  by_cases hn : c = charNewline
  · subst hn
    rw [noteChar_newline]
    exact h.newline ht hk hroom (hg rfl)
  · rw [noteChar_char hn]
    exact h.char ht hk hc hn hroom (hshort hn)

theorem LineInv.read (h : LineInv w) (hr : OnStdin .read w.sched ev) (hlen : ev.regs.edx = lineMax)
    (hq : queued w.sched = none) (hs : Lifecycle.step w.sched ev = some t) :
    LineInv { w with sched := t, reads := w.reads ++ (copied w.sched ev).toList } := by
  have hmax : lineMax = 255 := rfl
  have ht := step_sane h.sane hs
  obtain ⟨q, hring, hholds⟩ := h.ring
  have hcount := hring.count
  have hint : toInt32 ev.regs.edx = lineMax := by
    rw [hlen]
    exact toInt32_eq (by decide)
  have hblocks : readBlocks ev.regs w.sched ↔ q.length < 255 := by
    unfold readBlocks
    have hsize := hring.short
    have hfull : standardInBufferSize = 256 := rfl
    rw [hlen, hcount, ofInt32_eq (by omega) (by omega), Int.toNat_natCast, hmax]
  cases hholds with
  | typing hreads _ =>
    have hb : readBlocks ev.regs w.sched := hblocks.mpr h.short
    have hwake : wakeCall w.sched ev = none := by simp only [wakeCall, hr.1.1]
    have hst := read_blocked h.sane.listed hr hb hs
    have hnone : copied w.sched ev = none := by
      unfold copied
      rw [if_neg fun hret => hret.2 hb, hwake]
      rfl
    rw [hnone]
    refine ⟨ht, h.plain, h.short, w.line, ?_, .typing (by simp [hreads]) fun _ => ?_⟩
    · rw [hst]
      exact hring.same rfl
    · exact (congrArg (fun b => b.waitQueue.requestedLen) hst).trans hint
  | @ahead l hl hv hline hlines _ =>
    have hb : ¬readBlocks ev.regs w.sched := by
      rw [hblocks, List.length_append, List.length_singleton]
      omega
    obtain ⟨hbytes, hrest⟩ := @readLine _ _ hring hv (toInt32 ev.regs.edx) (by rw [hint]; omega)
    have hst := read_served h.sane.listed hr hb hs
    have hsome : copied w.sched ev = some l := by
      unfold copied
      rw [if_pos ⟨hr, hb⟩, hbytes]
    rw [hsome]
    have hqueue : queued t = none := by
      rw [← hq]
      exact congrArg WaitQueue.process ((congrArg (·.waitQueue) hst).trans (stdinRead_waitQueue _ _))
    refine ⟨ht, h.plain, h.short, [], hst ▸ hrest, ?_⟩
    rw [← hline]
    exact .typing hlines.symm fun hno => absurd hqueue hno

theorem TypesLines.readsAlone (hl : Listed w.sched) (h : TypesLines w ev) : ReadsAlone w.sched ev := by
  intro hc p hp ha hb
  simp only [blocksOnStdin, Bool.and_eq_true, decide_eq_true_eq] at hb
  refine (h.read ⟨hc, ?_⟩).2
  rw [Sched.currentProcess, ← ha, Sched.deref_of_mem hl.nodup hp]
  exact hb.1

theorem LineInv.step (h : LineInv w) (hi : SlotInv w.sched) (ho : OnlySlot w.sched) (hgd : LineGuard w ev)
    (hw : lineWatch w ev = some w') : LineInv w' := by
  obtain ⟨hd, hg, hslot⟩ := hgd
  obtain ⟨t, hs, rfl⟩ := Option.map_eq_some_iff.mp hw
  rw [returned_copied hi ho hslot (hd.readsAlone h.sane.listed) hs]
  have ht := step_sane h.sane hs
  have hmax : lineMax = 255 := rfl
  have hsize : standardInBufferSize = 256 := rfl
  cases hc : charTyped w.sched ev with
  | some c =>
    obtain ⟨hfocus, hback, hroom, hshort⟩ := hd.key c hc
    unfold charTyped at hc
    unfold toTerminal at hfocus
    split at hc
    · rename_i scancode focused he
      rw [he] at hfocus
      dsimp only at hfocus
      rw [hfocus] at he
      have hfull : ¬stdinFull w.sched := by
        unfold stdinFull
        omega
      refine h.key ht (key_typed he hc hfull hs) hback hroom hshort fun hn => hg ?_
      unfold charTyped
      rw [he, ← hn]
      exact hc
    · cases hc
  | none =>
    have hnote : noteChar w none = w := rfl
    rw [hnote]
    by_cases hr : OnStdin .read w.sched ev
    · obtain ⟨hlen, hq⟩ := hd.read hr
      exact h.read hr hlen hq hs
    · have hstill : t.stdin = w.sched.stdin ∧ copied w.sched ev = none := by
        by_cases hkey : ∃ scancode focused, ev.entry = .keyboard scancode focused
        · obtain ⟨scancode, focused, he⟩ := hkey
          have hplain := hd.plain
          unfold interrupts at hplain
          unfold charTyped at hc
          rw [he] at hplain hc
          refine key_silent he hplain hc (fun hq => ?_) hs
          obtain ⟨q, hring, hholds⟩ := h.ring
          have hcount := hring.count
          have hshort := h.short
          cases hholds with
          | typing _ hlen =>
            rw [hlen hq]
            omega
          | ahead _ _ _ _ hnone => exact absurd hnone hq
        · have hno : ∀ k f, ev.entry ≠ .keyboard k f := fun k f he => hkey ⟨k, f, he⟩
          refine ⟨other_stdin h.sane.listed hno hr hd.write hs, ?_⟩
          unfold copied
          rw [if_neg fun hret => hr hret.1]
          unfold wakeCall
          split
          · rename_i he
            exact absurd he (hno _ _)
          · rfl
      rw [hstill.2, Option.toList_none, List.append_nil]
      exact h.still ht hstill.1

theorem LineInv.linesRead (h : LineInv w) : LinesRead w := by
  have hmax : lineMax = 255 := rfl
  obtain ⟨q, hring, hholds⟩ := h.ring
  have hcount := hring.count
  have hchars := represents_buffered hring
  cases hholds with
  | typing hreads _ =>
    refine ⟨hreads ▸ List.prefix_refl _, fun hn => ?_⟩
    rw [hchars] at hn
    exact absurd (h.plain _ hn) (by decide)
  | ahead hl _ _ hlines _ =>
    refine ⟨hlines ▸ List.prefix_append _ _, fun _ ev _ hlen => ?_⟩
    unfold readBlocks
    rw [List.length_append, List.length_singleton] at hcount
    rw [hcount, hlen, ofInt32_eq (by omega) (by omega), Int.toNat_natCast]
    omega

end Runs

/-- The observer only looks on. -/
theorem lineWatch_sched {s : Sched} {w : LineWatch} {guard : LineWatch → Lifecycle.Event → Prop}
    (h : Reach lineWatch guard (startLines s) w) : Reach Lifecycle.step anyStep s w.sched := by
  refine @Reach.image _ _ _ _ _ _ _ Lifecycle.step LineWatch.sched _ h fun w ev w' hw => ?_
  obtain ⟨t, ht, rfl⟩ := Option.map_eq_some_iff.mp hw
  exact .inr ⟨ev, ht⟩

/-- Along every run in which Enter is pressed only while the reader waits, or after 254 characters
while nobody waits, and nothing but a key ends a read that waits, each read returns its line, and none
waits that finds a line. -/
theorem lines_read {c : BootConfig} {w : LineWatch} (h : Reach lineWatch LineGuard (startLines (boot c)) w) :
    LinesRead w := by
  have hinv : LineInv w ∧ SlotInv w.sched ∧ OnlySlot w.sched := by
    refine h.invariant (fun w => LineInv w ∧ SlotInv w.sched ∧ OnlySlot w.sched)
      ⟨boot_lineInv c, boot_slotInv c, boot_onlySlot c⟩ fun y ev y' ⟨hline, hi, ho⟩ hg hy => ?_
    have hnext := hline.step hi ho hg hy
    obtain ⟨t, ht, rfl⟩ := Option.map_eq_some_iff.mp hy
    exact ⟨hnext, hi.step hg.2.2 ht,
      step_onlySlot hi.sane hi.distinct ho (hg.1.readsAlone hi.sane.listed) ht⟩
  exact hinv.1.linesRead

/-! ### A line begun before its read, and a line typed ahead -/

def keyA : Lifecycle.Event := keyDown 0x1E
def keyB : Lifecycle.Event := keyDown 0x30
def keyEnter : Lifecycle.Event := keyDown scancodeEnter

theorem begun_line_read : ∃ w, Reach lineWatch LineGuard
    (startLines (boot sampleBoot)) w ∧ w.reads = [[97, 98]] ∧ LinesRead w := by
  obtain ⟨w, hr, hw⟩ : ∃ w, Reach lineWatch LineGuard
      (startLines (boot sampleBoot)) w ∧ w.reads = [[97, 98]] :=
    reach_of_test [keyA, call 3 0 lineMax, keyB, keyEnter] (by decide +kernel) (by decide +kernel)
  exact ⟨w, hr, hw, lines_read hr⟩

/-- The read that comes after "a" and Enter waits for the next Enter and returns "ab". -/
theorem lines_merged : ¬ ∀ c w, Reach lineWatch TypesLines (startLines (boot c)) w → LinesRead w := by
  intro hall
  obtain ⟨w, hr, hreads, hlines⟩ : ∃ w, Reach lineWatch TypesLines (startLines (boot sampleBoot)) w ∧
      w.reads = [[97, 98]] ∧ w.lines = [[97], [98]] :=
    reach_of_test [keyA, keyEnter, call 3 0 lineMax, keyB, keyEnter] (by decide +kernel)
      (by decide +kernel)
  have hexact := (hall _ w hr).exact
  rw [hreads, hlines] at hexact
  exact absurd hexact (by decide)

end AdamOS.Desktop
