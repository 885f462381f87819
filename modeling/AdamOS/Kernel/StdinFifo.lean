import AdamOS.Kernel.Waiting
import AdamOS.Lib.Ring

/-! Standard input as a queue. The ring of stdin.c holds the characters typed and not yet read;
a queue beside it takes what each entry asks for, and the two agree as long as no character is
written to a full ring and no backspace meets the start of the array. -/
namespace AdamOS.Lifecycle
open AdamOS.Process AdamOS.Scheduler AdamOS.Ring AdamOS.Word AdamOS.Transition

def keyChar (scancode : Nat) (shiftHeld : Bool) : Option Nat :=
  if scancode = scancodeEnter then some charNewline
  else if scancode = scancodeBackspace then some charBackspace
  else if scancode < scancodeToAscii.length then
    let c := (if shiftHeld then scancodeToAsciiShift else scancodeToAscii).getD scancode 0
    if c ≠ 0 then some c else none
  else none

theorem handleInput_eq (scancode : Nat) (focused : Bool) (s : Sched) :
    handleInput scancode focused s =
      ((keyChar scancode s.shiftHeld).map fun c => typeChar c focused s).getD s := by
  have hchar : ∀ c, (if c ≠ 0 then typeChar c focused s else s) =
      ((if c ≠ 0 then some c else none).map fun c => typeChar c focused s).getD s := by
    intro c
    split <;> rfl
  unfold handleInput keyChar
  split
  · rfl
  split
  · rfl
  split
  · exact hchar _
  · rfl

/-! ### Operations on the ring and on the queue -/

inductive RingOp where
  | write (c : Nat)
  | read (len : Int)
  | clear
deriving DecidableEq, Repr

/- stdin_write, stdin_read and the reset of sigint_foreground: the bytes delivered and the ring. -/
def RingOp.run : RingOp → StdinBuffer → List Nat × StdinBuffer
  | .write c, b => ([], stdinWrite c b)
  | .read len, b => stdinRead len b
  | .clear, b => ([], { b with count := 0, readIndex := b.writeIndex })

/- What an editable queue of at most 256 characters does with a character. -/
def edit (c : Nat) (q : List Nat) : List Nat :=
  if c = charBackspace then q.dropLast
  else if q.length < standardInBufferSize then q ++ [c] else q

def visible (c : Nat) : Bool := decide ¬(c = charBackspace ∨ c = charNewline)

def RingOp.spec : RingOp → List Nat → List Nat × List Nat
  | .write c, q => ([], edit c q)
  | .read len, q => ((q.take len.toNat).filter visible, q.drop len.toNat)
  | .clear, _ => ([], [])

def perform {σ : Type} (f : RingOp → σ → List Nat × σ) : List RingOp → σ → List Nat × σ
  | [], x => ([], x)
  | op :: ops, x =>
    let r := f op x
    let rest := perform f ops r.2
    (r.1 ++ rest.1, rest.2)

structure Represents (b : StdinBuffer) (q : List Nat) : Prop where
  short : q.length ≤ standardInBufferSize
  count : b.count = q.length
  read : 0 ≤ b.readIndex ∧ b.readIndex < standardInBufferSize
  write : (b.readIndex + b.count) % standardInBufferSize = b.writeIndex
  chars : contents standardInBufferSize b.buffer b.readIndex.toNat q.length = q

/- What stdin_write relies on: room for a character; for a backspace an empty ring, or one that is
not full and whose last character is not in the last cell of the array. -/
def RoomFor (c : Nat) (b : StdinBuffer) : Prop :=
  if c = charBackspace then b.count = 0 ∨ b.writeIndex ≠ 0 ∧ b.count < standardInBufferSize
  else b.count < standardInBufferSize

def WriteFits (op : RingOp) (b : StdinBuffer) : Prop := ∀ c, op = .write c → RoomFor c b

def ReadFits (op : RingOp) (b : StdinBuffer) : Prop := ∀ len, op = .read len → len ≤ b.count

def AllAt (P : RingOp → StdinBuffer → Prop) : List RingOp → StdinBuffer → Prop
  | [], _ => True
  | op :: ops, b => P op b ∧ AllAt P ops (op.run b).2

instance (c : Nat) (b : StdinBuffer) : Decidable (RoomFor c b) :=
  inferInstanceAs (Decidable (if c = charBackspace then
    b.count = 0 ∨ b.writeIndex ≠ 0 ∧ b.count < standardInBufferSize
    else b.count < standardInBufferSize))

instance (b : StdinBuffer) : (op : RingOp) → Decidable (WriteFits op b)
  | .write c => decidable_of_iff (RoomFor c b) ⟨fun h _ he => by cases he; exact h, fun h => h c rfl⟩
  | .read _ => .isTrue fun _ he => by cases he
  | .clear => .isTrue fun _ he => by cases he

instance allAtDecidable {P : RingOp → StdinBuffer → Prop} [∀ op b, Decidable (P op b)] :
    ∀ (ops : List RingOp) (b : StdinBuffer), Decidable (AllAt P ops b)
  | [], _ => .isTrue trivial
  | op :: ops, b =>
    have := allAtDecidable (P := P) ops (op.run b).2
    inferInstanceAs (Decidable (_ ∧ _))

section Ops
variable {b : StdinBuffer} {q : List Nat} {c : Nat}

theorem Represents.indices (h : Represents b q) : ∃ r, b.readIndex = (r : Nat) ∧ r < 256 ∧
    b.count = q.length ∧ b.writeIndex = ((r + q.length) % 256 : Nat) := by
  have h256 : standardInBufferSize = 256 := rfl
  have hr := h.read
  have hw := h.write
  have hc := h.count
  refine ⟨b.readIndex.toNat, ?_, ?_, hc, ?_⟩
  · omega
  · omega
  · rw [← hw, hc, h256]
    omega

theorem stdinWrite_char (hc : c ≠ charBackspace) (b : StdinBuffer) :
    stdinWrite c b = { b.put b.writeIndex c with
      writeIndex := (b.writeIndex + 1) % standardInBufferSize, count := b.count + 1 } :=
  if_neg hc

theorem Represents.type (h : Represents b q) (hc : c ≠ charBackspace)
    (hroom : b.count < standardInBufferSize) : Represents (stdinWrite c b) (q ++ [c]) := by
  obtain ⟨r, hr, hlt, hcount, hw⟩ := h.indices
  have h256 : standardInBufferSize = 256 := rfl
  have hchars := h.chars
  rw [hr, Int.toNat_natCast] at hchars
  have hshort : q.length < 256 := by omega
  rw [stdinWrite_char hc]
  refine ⟨?_, ?_, ?_, ?_, ?_⟩
  · rw [List.length_append, List.length_singleton]
    omega
  · rw [List.length_append, List.length_singleton, hcount]
    rfl
  · exact h.read
  · have hend := h.write
    rw [h256] at hend
    change (b.readIndex + (b.count + 1)) % (256 : Nat) = (b.writeIndex + 1) % (256 : Nat)
    omega
  · change contents _ (fun j => if j = b.writeIndex.toNat then c else b.buffer j)
      b.readIndex.toNat _ = _
    rw [hr, hw, Int.toNat_natCast, Int.toNat_natCast, List.length_append, List.length_singleton,
      contents_last, h256, contents_write (Nat.le_refl _) hshort, if_pos rfl]
    rw [h256] at hchars
    rw [hchars]

/-- A backspace away from the edges takes the last character back. -/
theorem Represents.erase (h : Represents b q) (hw : b.writeIndex ≠ 0)
    (hroom : b.count < standardInBufferSize) :
    Represents (stdinWrite charBackspace b) q.dropLast := by
  obtain ⟨r, hr, hlt, hcount, hwi⟩ := h.indices
  have h256 : standardInBufferSize = 256 := rfl
  have hshort : q.length < 256 := by omega
  by_cases hq : q = []
  · subst hq
    have he : b.readIndex = b.writeIndex := by
      rw [hr, hwi]
      simp only [List.length_nil]
      omega
    have hsame : stdinWrite charBackspace b = b := by
      rw [stdinWrite, if_pos rfl, if_pos he]
    rw [hsame]
    exact h
  · obtain ⟨xs, x, hqx⟩ := (List.eq_nil_or_concat q).resolve_left hq
    rw [List.concat_eq_append] at hqx
    subst hqx
    have hlen : (xs ++ [x]).length = xs.length + 1 := by simp
    rw [hlen] at hcount hwi hshort
    have hne : b.readIndex ≠ b.writeIndex := by
      rw [hr, hwi]
      omega
    have hlast : max 0 (b.writeIndex - 1) = ((r + xs.length) % 256 : Nat) := by
      rw [hwi] at hw ⊢
      omega
    have hone : max 0 (b.count - 1) = (xs.length : Int) := by
      rw [hcount]
      omega
    have hchars := h.chars
    rw [hr, Int.toNat_natCast, hlen, contents_last] at hchars
    rw [stdinWrite, if_pos rfl, if_neg hne, hlast, hone, List.dropLast_concat]
    refine ⟨?_, rfl, h.read, ?_, ?_⟩
    · omega
    · change (b.readIndex + (xs.length : Int)) % (256 : Nat) = ((r + xs.length) % 256 : Nat)
      rw [hr]
      omega
    · change contents _ (fun j => if j = (((r + xs.length) % 256 : Nat) : Int).toNat then charSpace
        else b.buffer j) b.readIndex.toNat _ = _
      rw [hr, Int.toNat_natCast, Int.toNat_natCast, h256,
        contents_write (Nat.le_refl _) (by omega)]
      exact (List.append_inj hchars (by simp)).1

theorem Represents.write_spec (h : Represents b q) (hf : RoomFor c b) :
    Represents (stdinWrite c b) (edit c q) := by
  have h256 : standardInBufferSize = 256 := rfl
  unfold RoomFor at hf
  unfold edit
  by_cases hc : c = charBackspace
  · rw [if_pos hc] at hf ⊢
    subst hc
    rcases hf with hempty | ⟨hw, hroom⟩
    · have hq : q = [] := by
        have hcount := h.count
        exact List.length_eq_zero_iff.mp (by omega)
      subst hq
      have he : b.readIndex = b.writeIndex := by
        have hr := h.read
        have hend := h.write
        rw [h256] at hr hend
        omega
      rw [stdinWrite, if_pos rfl, if_pos he]
      exact h
    · exact h.erase hw hroom
  · rw [if_neg hc] at hf ⊢
    have hcount := h.count
    rw [if_pos (by omega)]
    exact h.type hc hf

theorem Represents.next {x : Nat} {xs : List Nat} (h : Represents b (x :: xs)) :
    (stdinReadOne b).1 = (if visible x then some x else none) ∧
      Represents (stdinReadOne b).2 xs := by
  obtain ⟨r, hr, hlt, hcount, hwi⟩ := h.indices
  have h256 : standardInBufferSize = 256 := rfl
  have hchars := h.chars
  have hshort := h.short
  rw [List.length_cons] at hcount hwi hshort
  rw [hr, Int.toNat_natCast, List.length_cons, contents_succ (by omega)] at hchars
  obtain ⟨hx, hxs⟩ := List.cons.inj hchars
  have hnext : (b.readIndex + 1) % (256 : Nat) = ((r + 1) % 256 : Nat) := by
    rw [hr]
    omega
  refine ⟨?_, ⟨by omega, ?_, ?_, ?_, ?_⟩⟩
  · change (if b.buffer b.readIndex.toNat = charBackspace ∨ b.buffer b.readIndex.toNat = charNewline
      then none else some (b.buffer b.readIndex.toNat)) = _
    rw [hr, Int.toNat_natCast, hx, visible]
    by_cases hv : x = charBackspace ∨ x = charNewline
    · rw [if_pos hv, decide_eq_false (not_not.mpr hv), if_neg Bool.false_ne_true]
    · rw [if_neg hv, decide_eq_true hv, if_pos rfl]
  · change b.count - 1 = _
    rw [hcount]
    omega
  · change 0 ≤ (b.readIndex + 1) % (256 : Nat) ∧ (b.readIndex + 1) % (256 : Nat) < (256 : Nat)
    omega
  · change ((b.readIndex + 1) % (256 : Nat) + (b.count - 1)) % (256 : Nat) = b.writeIndex
    have hend := h.write
    rw [h256] at hend
    omega
  · change contents 256 b.buffer ((b.readIndex + 1) % (256 : Nat)).toNat xs.length = xs
    rw [hnext, Int.toNat_natCast]
    exact hxs

theorem Represents.readLoop (n : Nat) (h : Represents b q) (hn : n ≤ q.length) :
    (stdinReadLoop n b).1 = (q.take n).filter visible ∧
      Represents (stdinReadLoop n b).2 (q.drop n) := by
  induction n generalizing b q with
  | zero => exact ⟨rfl, h⟩
  | succ n ih =>
    cases q with
    | nil => cases hn
    | cons x xs =>
      obtain ⟨hone, hrest⟩ := h.next
      obtain ⟨hbytes, hring⟩ := ih hrest (Nat.le_of_succ_le_succ hn)
      refine ⟨?_, hring⟩
      change (stdinReadOne b).1.toList ++ (stdinReadLoop n (stdinReadOne b).2).1 = _
      rw [hone, hbytes, List.take_succ_cons, List.filter_cons]
      split <;> rfl

/-- Each operation on the ring is the one on the queue. -/
theorem Represents.run {op : RingOp} (h : Represents b q) (hw : WriteFits op b)
    (hr : ReadFits op b) :
    (op.run b).1 = (op.spec q).1 ∧ Represents (op.run b).2 (op.spec q).2 := by
  cases op with
  | write c => exact ⟨rfl, h.write_spec (hw c rfl)⟩
  | read len =>
    have hcount := h.count
    have hlen : len ≤ b.count := hr len rfl
    exact h.readLoop len.toNat (by omega)
  | clear =>
    have hr := h.read
    have hend := h.write
    have h256 : standardInBufferSize = 256 := rfl
    rw [h256] at hr hend
    refine ⟨rfl, Nat.zero_le _, rfl, ?_, ?_, rfl⟩
    · change 0 ≤ b.writeIndex ∧ b.writeIndex < (256 : Nat)
      omega
    · change (b.writeIndex + 0) % (256 : Nat) = b.writeIndex
      omega

theorem Represents.perform {ops : List RingOp} (h : Represents b q) (hw : AllAt WriteFits ops b)
    (hr : AllAt ReadFits ops b) :
    (perform RingOp.run ops b).1 = (perform RingOp.spec ops q).1 ∧
      Represents (perform RingOp.run ops b).2 (perform RingOp.spec ops q).2 := by
  induction ops generalizing b q with
  | nil => exact ⟨rfl, h⟩
  | cons op ops ih =>
    obtain ⟨hone, hnext⟩ := h.run hw.1 hr.1
    obtain ⟨hbytes, hring⟩ := ih hnext hw.2 hr.2
    refine ⟨?_, hring⟩
    change (op.run b).1 ++ (Lifecycle.perform RingOp.run ops (op.run b).2).1 = _
    rw [hone, hbytes]
    rfl

end Ops

/-! ### What an entry asks of the ring -/

def typed (c : Nat) (focused : Bool) : List RingOp := if focused then [.write c] else []

def keyboardOps (scancode : Nat) (focused : Bool) (s : Sched) : List RingOp :=
  if (handleModifiers scancode s).isSome then []
  else if isCtrlC scancode s then [.clear]
  else if s.shiftHeld && scancode = scancodeEnter then typed charSpace focused
  else if scancode &&& scancodeReleaseMask ≠ 0 then []
  else ((keyChar scancode s.shiftHeld).map fun c => typed c focused).getD []

def wakeRead (u : Sched) : Option Int := do
  let cur ← u.currentProcess
  if cur.status = .zombie then none
  else some (min u.stdin.count u.stdin.waitQueue.requestedLen)

def syscallOps (env : Env) (regs : Registers) (s : Sched) : List RingOp :=
  let fd := s.currentProcess.bind (fdType regs.ebx)
  match Syscall.ofNumber regs.eax with
  | some .read =>
    if fd = some .stdin ∧ ¬readBlocks regs s then [.read (toInt32 regs.edx)] else []
  | some .write =>
    if fd = some .stdin then (List.range regs.edx).map fun i => .write (env.buf i) else []
  | _ => []

def requested (s : Sched) (ev : Event) : List RingOp :=
  match ev.entry with
  | .timer => []
  | .keyboard scancode focused =>
    keyboardOps scancode focused s ++ (((wakeCall s ev).bind wakeRead).map .read).toList
  | .syscall => syscallOps ev.env ev.regs s

/- The key press of a character that finds the ring full: the handler returns before it looks at
the key. -/
def keyDropped (s : Sched) (ev : Event) : Bool :=
  match ev.entry with
  | .keyboard scancode _ =>
    !((handleModifiers scancode s).isSome || isCtrlC scancode s ||
      (s.shiftHeld && scancode = scancodeEnter) ||
      decide (scancode &&& scancodeReleaseMask ≠ 0)) &&
      decide ((standardInBufferSize : Int) ≤ s.stdin.count)
  | _ => false

def performed (s : Sched) (ev : Event) : List RingOp :=
  if keyDropped s ev then [] else requested s ev

def SameRing (b b' : StdinBuffer) : Prop := b' = { b with waitQueue := b'.waitQueue }

section Entry
variable {s t u : Sched} {ev : Event} {out : Outcome}

theorem SameRing.refl (b : StdinBuffer) : SameRing b b := rfl

theorem SameRing.of_eq {b b' : StdinBuffer} (h : b' = b) : SameRing b b' := h ▸ .refl b

theorem Represents.same {b b' : StdinBuffer} {q : List Nat} (h : Represents b q)
    (hb : SameRing b b') : Represents b' q := by
  rw [hb]
  exact ⟨h.short, h.count, h.read, h.write, h.chars⟩

theorem perform_append {σ : Type} (f : RingOp → σ → List Nat × σ) (ops ops' : List RingOp)
    (x : σ) : (perform f (ops ++ ops') x).2 = (perform f ops' (perform f ops x).2).2 := by
  induction ops generalizing x with
  | nil => rfl
  | cons op ops ih => exact ih (f op x).2

theorem perform_writes (buf : Nat → Nat) (is : List Nat) (b : StdinBuffer) :
    (perform RingOp.run (is.map fun i => .write (buf i)) b).2 =
      is.foldl (fun b i => stdinWrite (buf i) b) b := by
  induction is generalizing b with
  | nil => rfl
  | cons i is ih => exact ih (stdinWrite (buf i) b)

theorem typeChar_ring (c : Nat) (focused : Bool) (s : Sched) :
    (typeChar c focused s).stdin = (perform RingOp.run (typed c focused) s.stdin).2 := by
  cases focused <;> rfl

theorem handleInput_ring (scancode : Nat) (focused : Bool) (s : Sched) :
    (handleInput scancode focused s).stdin = (perform RingOp.run
      (((keyChar scancode s.shiftHeld).map fun c => typed c focused).getD []) s.stdin).2 := by
  rw [handleInput_eq]
  cases keyChar scancode s.shiftHeld with
  | none => rfl
  | some c => exact typeChar_ring c focused s

theorem stdinWakeProcess_ring {regs : Registers} (h : stdinWakeProcess regs u = some out) :
    SameRing (perform RingOp.run ((wakeRead u).map .read).toList u.stdin).2 out.sched.stdin := by
  obtain ⟨cur, hcur, h1⟩ := Option.bind_eq_some_iff.mp h
  by_cases hz : cur.status = .zombie
  · rw [if_pos hz] at h1
    cases h1
    have hw : wakeRead u = none := by simp [wakeRead, hcur, hz]
    rw [hw]
    exact .refl _
  · rw [if_neg hz] at h1
    obtain ⟨a, _, h2⟩ := Option.bind_eq_some_iff.mp h1
    obtain ⟨p, _, h3⟩ := Option.bind_eq_some_iff.mp h2
    obtain ⟨cur', _, h4⟩ := Option.bind_eq_some_iff.mp h3
    cases h4
    have hw : wakeRead u = some (min u.stdin.count u.stdin.waitQueue.requestedLen) := by
      simp [wakeRead, hcur, hz]
    rw [hw]
    exact rfl

theorem handleModifiers_stdin {scancode : Nat} (h : handleModifiers scancode s = some t) :
    t.stdin = s.stdin := by
  obtain ⟨shift, ctrl, rfl⟩ := handleModifiers_held h
  rfl

theorem sigintForeground_ring (h : sigintForeground s = some t) :
    SameRing (RingOp.clear.run s.stdin).2 t.stdin := by
  simp only [sigintForeground] at h
  split at h
  · cases h
    exact rfl
  · obtain ⟨own, _, h1⟩ := Option.bind_eq_some_iff.mp h
    cases h1
    exact rfl

def Typing (scancode : Nat) (s : Sched) : Prop :=
  handleModifiers scancode s = none ∧ ¬isCtrlC scancode s ∧
    ¬(s.shiftHeld && scancode = scancodeEnter) = true ∧ scancode &&& scancodeReleaseMask = 0

theorem performed_typing {scancode : Nat} {focused : Bool}
    (he : ev.entry = .keyboard scancode focused) (hk : Typing scancode s) :
    performed s ev = if (standardInBufferSize : Int) ≤ s.stdin.count then [] else
      ((keyChar scancode s.shiftHeld).map fun c => typed c focused).getD [] ++
        (((wakeCall s ev).bind wakeRead).map RingOp.read).toList := by
  obtain ⟨hm, hc, hx, hr⟩ := hk
  simp only [performed, keyDropped, requested, keyboardOps, he, hm, hc, hx, hr]
  simp

/-- Any other key press is never dropped and wakes nobody. -/
theorem performed_chord {scancode : Nat} {focused : Bool}
    (he : ev.entry = .keyboard scancode focused) (hk : ¬Typing scancode s) :
    performed s ev = keyboardOps scancode focused s := by
  have hall : ((handleModifiers scancode s).isSome || isCtrlC scancode s ||
      (s.shiftHeld && scancode = scancodeEnter) ||
      decide (scancode &&& scancodeReleaseMask ≠ 0)) = true := by
    by_contra hno
    simp only [Bool.or_eq_true, not_or, Bool.not_eq_true, Option.isSome_eq_false_iff,
      decide_eq_false_iff_not, not_not, Option.isNone_iff_eq_none] at hno
    obtain ⟨⟨⟨h1, h2⟩, h3⟩, h4⟩ := hno
    exact hk ⟨h1, by simp [h2], by simp [h3], h4⟩
  have hwake : wakeCall s ev = none := by
    simp only [wakeCall, he, hall, Bool.true_or, if_true]
  have hdrop : keyDropped s ev = false := by
    simp only [keyDropped, he, hall, Bool.not_true, Bool.false_and]
  simp only [performed, hdrop, requested, he, hwake]
  simp

theorem keyboard_ring {scancode : Nat} {focused : Bool} (he : ev.entry = .keyboard scancode focused)
    (h : keyboardHandlerMain scancode focused ev.regs s = some out) :
    SameRing (perform RingOp.run (performed s ev) s.stdin).2 out.sched.stdin := by
  by_cases hk : Typing scancode s
  · rw [performed_typing he hk]
    obtain ⟨hm, hc, hx, hr⟩ := hk
    simp only [keyboardHandlerMain, hm, if_neg hc, if_neg hx, if_neg (not_not.mpr hr)] at h
    by_cases hf : (standardInBufferSize : Int) ≤ s.stdin.count
    · rw [if_pos hf] at h ⊢
      cases h
      exact .refl _
    rw [if_neg hf] at h ⊢
    rw [perform_append, ← handleInput_ring]
    have hx' : (s.shiftHeld && decide (scancode = scancodeEnter)) = false :=
      Bool.eq_false_iff.mpr hx
    have hcall : wakeCall s ev = if ((handleInput scancode focused s).stdin.waitQueue.process.isSome &&
        (decide ((handleInput scancode focused s).stdin.waitQueue.requestedLen ≤
          (handleInput scancode focused s).stdin.count) || scancode = scancodeEnter)) = true then
        some (handleInput scancode focused s) else none := by
      have hc' : isCtrlC scancode s = false := Bool.eq_false_iff.mpr hc
      simp [wakeCall, he, hm, hc', hx', hr, hf]
    rw [hcall]
    split at h
    next hslot =>
      rw [if_pos hslot]
      exact stdinWakeProcess_ring h
    next hslot =>
      cases h
      rw [if_neg hslot]
      exact .refl _
  · rw [performed_chord he hk]
    unfold keyboardHandlerMain at h
    unfold keyboardOps
    cases hm : handleModifiers scancode s with
    | some t =>
      simp only [hm] at h
      cases h
      exact .of_eq (handleModifiers_stdin hm)
    | none =>
      simp only [hm] at h
      rw [Option.isSome_none, if_neg Bool.false_ne_true]
      by_cases hc : isCtrlC scancode s
      · rw [if_pos hc] at h ⊢
        obtain ⟨t, ht, h1⟩ := Option.bind_eq_some_iff.mp h
        cases h1
        exact sigintForeground_ring ht
      rw [if_neg hc] at h ⊢
      by_cases hx : (s.shiftHeld && scancode = scancodeEnter) = true
      · rw [if_pos hx] at h ⊢
        cases h
        exact .of_eq (typeChar_ring charSpace focused s)
      rw [if_neg hx] at h ⊢
      by_cases hr : scancode &&& scancodeReleaseMask ≠ 0
      · rw [if_pos hr] at h ⊢
        cases h
        exact .refl _
      · exact absurd ⟨hm, hc, hx, not_not.mp hr⟩ hk

/-- Before update_scheduler an entry leaves the ring alone, and no read of it comes after. -/
theorem enters_ring (he : enters s ev = some u) :
    SameRing s.stdin u.stdin ∧ performed s ev = [] := by
  obtain ⟨cur, hcur, h⟩ := Option.bind_eq_some_iff.mp he
  split at h
  next hentry =>
    cases h
    exact ⟨.refl _, by simp [performed, keyDropped, requested, hentry]⟩
  next => cases h
  next hentry =>
    have hops : performed s ev = syscallOps ev.env ev.regs s := by
      simp [performed, keyDropped, requested, hentry]
    rw [hops]
    split at h
    next hn => split at h <;> (cases h; exact ⟨.refl _, by simp [syscallOps, hn]⟩)
    next hn =>
      cases h
      exact ⟨.refl _, by simp [syscallOps, hn]⟩
    next hn =>
      split at h <;> cases h
      exact ⟨.refl _, by simp [syscallOps, hn]⟩
    next hn =>
      split at h
      next hb =>
        cases h
        have hblocks : readBlocks ev.regs s := by
          simp only [blocksOnStdin, Bool.and_eq_true, decide_eq_true_eq] at hb
          exact hb.2
        exact ⟨rfl, by simp [syscallOps, hn, hblocks]⟩
      next => cases h
    next => cases h

theorem read_ring {cur : Pcb} (hcur : s.currentProcess = some cur) (hc : Calls ev .read)
    (hno : enters s ev = none) (h : handleSyscallRead ev.env ev.regs s = some out) :
    SameRing (perform RingOp.run (syscallOps ev.env ev.regs s) s.stdin).2 out.sched.stdin := by
  rw [enters_syscall hcur hc.1] at hno
  simp only [hc.2] at hno
  simp only [handleSyscallRead, hcur, Option.bind_eq_bind, Option.bind_some] at h
  simp only [syscallOps, hc.2, hcur, Option.bind_some]
  split at h
  next hfd =>
    by_cases hb : readBlocks ev.regs s
    · rw [if_pos (by simp [blocksOnStdin, hfd, hb])] at hno
      cases hno
    · rw [if_neg hb] at h
      cases h
      rw [if_pos ⟨hfd, hb⟩]
      exact rfl
  next hfd =>
    cases h
    rw [if_neg (by simp [hfd])]
    exact rfl
  next hfd _ =>
    cases h
    rw [if_neg fun hf => hfd hf.1]
    exact rfl

theorem write_ring {cur : Pcb} (hcur : s.currentProcess = some cur) (hc : Calls ev .write)
    (h : handleSyscallWrite ev.env ev.regs s = some out) :
    SameRing (perform RingOp.run (syscallOps ev.env ev.regs s) s.stdin).2 out.sched.stdin := by
  simp only [handleSyscallWrite, hcur, Option.bind_eq_bind, Option.bind_some] at h
  simp only [syscallOps, hc.2, hcur, Option.bind_some]
  split at h
  next hfd =>
    cases h
    rw [if_pos hfd, perform_writes]
    exact rfl
  next hfd =>
    cases h
    rw [if_neg (by simp [hfd])]
    exact rfl
  next hfd =>
    cases h
    rw [if_neg (by simp [hfd])]
    exact rfl
  next hfd _ _ =>
    cases h
    rw [if_neg hfd]
    exact rfl

theorem syscall_ring (hl : Listed s) (he : ev.entry = .syscall) (hno : enters s ev = none)
    (h : syscallHandlerMain ev.env ev.regs s = some out) :
    SameRing (perform RingOp.run (syscallOps ev.env ev.regs s) s.stdin).2 out.sched.stdin := by
  obtain ⟨cur, _, _, hcur⟩ := currentProcess_eq hl
  simp only [syscallHandlerMain] at h
  by_cases hr : Calls ev .read
  · simp only [hr.2] at h
    exact read_ring hcur hr hno h
  by_cases hw : Calls ev .write
  · simp only [hw.2] at h
    exact write_ring hcur hw h
  have hops : syscallOps ev.env ev.regs s = [] := by
    unfold syscallOps
    split
    next hn => exact absurd ⟨he, hn⟩ hr
    next hn => exact absurd ⟨he, hn⟩ hw
    next => rfl
  rw [hops]
  have hstdin : out.sched.stdin = s.stdin → SameRing s.stdin out.sched.stdin := .of_eq
  apply hstdin
  have henter := enters_syscall hcur he
  cases hn : Syscall.ofNumber ev.regs.eax with
  | none =>
    simp only [hn] at h
    cases h
    rfl
  | some sc =>
    simp only [hn] at h henter
    cases sc with
    | exit =>
      rw [hno] at henter
      by_cases hp : cur.pid = 1 ∨ cur.pid = 2 <;> simp [hp] at henter
    | wait => simp [hno] at henter
    | sleep =>
      rw [handleSyscallSleep_eq hcur] at h
      by_cases hz : ev.regs.ebx = 0 ∨ cur.pid = 1
      · rw [if_pos hz] at h
        cases h
        rfl
      · simp [hno, hz] at henter
    | read => exact absurd ⟨he, hn⟩ hr
    | write => exact absurd ⟨he, hn⟩ hw
    | fork =>
      simp only [handleSyscallFork, hcur, Option.bind_eq_bind, Option.bind_some] at h
      split at h
      · cases h
      · cases h
        unfold schedulerEnqueue
        split <;> rfl
    | kill =>
      obtain ⟨r, hrem, h1⟩ := Option.bind_eq_some_iff.mp h
      cases h1
      cases schedulerRemove_cases hl hrem <;> rfl
    | getpid =>
      simp only [hcur, Option.map_some] at h
      cases h
      rfl
    | getppid =>
      simp only [hcur, Option.map_some] at h
      cases h
      rfl
    | _ =>
      cases h
      rfl

/-- What an entry does to the ring are the operations it performs, in their order. -/
theorem step_ring (hl : Listed s) (h : step s ev = some t) :
    SameRing (perform RingOp.run (performed s ev) s.stdin).2 t.stdin := by
  obtain ⟨out, hout, rfl⟩ := Option.map_eq_some_iff.mp h
  obtain ⟨cur, _, _, hcur⟩ := currentProcess_eq hl
  cases hent : enters s ev with
  | some u =>
    rw [handle_of_enters hcur hent] at hout
    obtain ⟨hring, hops⟩ := enters_ring hent
    obtain ⟨c, f, hentered⟩ := enters_spec hl hent
    obtain ⟨-, hrest⟩ := updateScheduler_round (hentered.listed hl) hout
    rw [hops, hrest.stdin]
    exact hring
  | none =>
    simp only [handle] at hout
    cases he : ev.entry with
    | timer => simp [enters, hcur, he] at hent
    | keyboard scancode focused =>
      simp only [he] at hout
      exact keyboard_ring he hout
    | syscall =>
      simp only [he] at hout
      have hops : performed s ev = syscallOps ev.env ev.regs s := by
        simp [performed, keyDropped, requested, he]
      rw [hops]
      exact syscall_ring hl he hent hout

theorem allAt_append {P : RingOp → StdinBuffer → Prop} {ops ops' : List RingOp} {b : StdinBuffer}
    (h : AllAt P ops b) (h' : AllAt P ops' (perform RingOp.run ops b).2) :
    AllAt P (ops ++ ops') b := by
  induction ops generalizing b with
  | nil => exact h'
  | cons op ops ih => exact ⟨h.1, ih h.2 h'⟩

theorem allAt_readFits {ops : List RingOp} (h : ∀ len, .read len ∉ ops) (b : StdinBuffer) :
    AllAt ReadFits ops b := by
  induction ops generalizing b with
  | nil => trivial
  | cons op ops ih =>
    refine ⟨?_, ih (fun len hm => h len (List.mem_cons_of_mem _ hm)) _⟩
    rintro len rfl
    exact absurd List.mem_cons_self (h len)

theorem typed_reads (c : Nat) (focused : Bool) (len : Int) : .read len ∉ typed c focused := by
  cases focused <;> simp [typed]

theorem keyboardOps_reads (scancode : Nat) (focused : Bool) (s : Sched) (len : Int) :
    .read len ∉ keyboardOps scancode focused s := by
  have hkey : ∀ o : Option Nat, .read len ∉ (o.map fun c => typed c focused).getD [] := by
    intro o
    cases o with
    | none => simp
    | some c => exact typed_reads c focused len
  unfold keyboardOps
  split
  · simp
  split
  · simp
  split
  · exact typed_reads charSpace focused len
  split
  · simp
  · exact hkey _

theorem wakeRead_fits {len : Int} (h : wakeRead u = some len) : len ≤ u.stdin.count := by
  obtain ⟨cur, _, h1⟩ := Option.bind_eq_some_iff.mp h
  split at h1
  · cases h1
  · cases h1
    exact min_le_left _ _

/-- The state in which a key press wakes the reader has the character in its ring. -/
theorem wakeCall_ring {scancode : Nat} {focused : Bool} (he : ev.entry = .keyboard scancode focused)
    (h : wakeCall s ev = some u) : Typing scancode s ∧ u = handleInput scancode focused s := by
  simp only [wakeCall, he] at h
  split at h
  · cases h
  next hno =>
    simp only [Bool.or_eq_true, not_or, Bool.not_eq_true, Option.isSome_eq_false_iff,
      decide_eq_true_eq, not_not, Option.isNone_iff_eq_none] at hno
    obtain ⟨⟨⟨⟨h1, h2⟩, h3⟩, h4⟩, -⟩ := hno
    split at h
    · cases h
      exact ⟨⟨h1, by simp [h2], by simp [h3], h4⟩, rfl⟩
    · cases h

/-- No read asks for more than the ring holds. -/
theorem performed_readFits (hcount : 0 ≤ s.stdin.count) (hsmall : s.stdin.count ≤ 256) :
    AllAt ReadFits (performed s ev) s.stdin := by
  unfold performed
  split
  · trivial
  unfold requested
  split
  · trivial
  next scancode focused he =>
    refine allAt_append (allAt_readFits (keyboardOps_reads scancode focused s) _) ?_
    cases hw : wakeCall s ev with
    | none => trivial
    | some u =>
      obtain ⟨hk, rfl⟩ := wakeCall_ring he hw
      obtain ⟨hm, hc, hx, hr⟩ := hk
      have hops : keyboardOps scancode focused s =
          ((keyChar scancode s.shiftHeld).map fun c => typed c focused).getD [] := by
        rw [keyboardOps, hm, if_neg (by simp), if_neg hc, if_neg hx, if_neg (not_not.mpr hr)]
      rw [hops, ← handleInput_ring, Option.bind_some]
      cases hlen : wakeRead (handleInput scancode focused s) with
      | none => trivial
      | some len =>
        refine ⟨?_, trivial⟩
        rintro len' ⟨⟩
        exact wakeRead_fits hlen
  · unfold syscallOps
    dsimp only
    split
    · split
      next hfd =>
        refine ⟨?_, trivial⟩
        rintro len ⟨⟩
        have hb := hfd.2
        rw [readBlocks, ofInt32_eq hcount (by omega)] at hb
        rw [toInt32_eq (by omega)]
        omega
      · trivial
    · split
      · exact allAt_readFits (by simp) _
      · trivial
    · trivial

end Entry

/-! ### Runs -/

def queuedStep (x : Sched × List Nat) (ev : Event) : Option (Sched × List Nat) :=
  (step x.1 ev).map fun t => (t, (perform RingOp.spec (requested x.1 ev) x.2).2)

/- Every character an entry writes fits where it is written, and no Backspace is pressed on a full
ring. -/
structure FitsRing (x : Sched × List Nat) (ev : Event) : Prop where
  fits : AllAt WriteFits (performed x.1 ev) x.1.stdin
  kept : keyDropped x.1 ev → .write charBackspace ∉ requested x.1 ev

instance (x : Sched × List Nat) (ev : Event) : Decidable (FitsRing x ev) :=
  decidable_of_iff (AllAt WriteFits (performed x.1 ev) x.1.stdin ∧
      (keyDropped x.1 ev → .write charBackspace ∉ requested x.1 ev))
    ⟨fun h => ⟨h.1, h.2⟩, fun h => ⟨h.fits, h.kept⟩⟩

def DeliversQueue (s : Sched) (q : List Nat) (ev : Event) : Prop :=
  (perform RingOp.run (performed s ev) s.stdin).1 = (perform RingOp.spec (requested s ev) q).1

section Run
variable {s : Sched} {q : List Nat} {ev : Event}

/-- What the keyboard drops the full queue drops as well. -/
theorem dropped_spec (h : Represents s.stdin q) (hd : keyDropped s ev = true)
    (hk : .write charBackspace ∉ requested s ev) :
    perform RingOp.spec (requested s ev) q = ([], q) := by
  unfold keyDropped at hd
  split at hd
  next scancode focused he =>
    simp only [Bool.and_eq_true, Bool.not_eq_true', decide_eq_true_eq] at hd
    obtain ⟨hno, hfull⟩ := hd
    have hlen : ¬q.length < standardInBufferSize := by
      have := h.count
      omega
    have hwake : wakeCall s ev = none := by
      simp only [wakeCall, he, hno, Bool.false_or, decide_eq_true hfull, if_true]
    have hreq : requested s ev = keyboardOps scancode focused s := by
      simp only [requested, he, hwake]
      simp
    rw [hreq] at hk ⊢
    have htyped : ∀ c, .write charBackspace ∉ typed c focused →
        perform RingOp.spec (typed c focused) q = ([], q) := by
      intro c hc
      cases focused with
      | false => rfl
      | true =>
        have hcb : c ≠ charBackspace := by
          rintro rfl
          exact hc List.mem_cons_self
        simp [typed, perform, RingOp.spec, edit, hcb, hlen]
    simp only [Bool.or_eq_false_iff, decide_eq_false_iff_not] at hno
    obtain ⟨⟨⟨hm, hc⟩, hx⟩, hr⟩ := hno
    have hops : keyboardOps scancode focused s =
        ((keyChar scancode s.shiftHeld).map fun c => typed c focused).getD [] := by
      simp only [keyboardOps, hm, hc, hx, if_neg hr, Bool.false_eq_true, if_false]
    rw [hops] at hk ⊢
    cases hchar : keyChar scancode s.shiftHeld with
    | none => rfl
    | some c =>
      rw [hchar] at hk
      exact htyped c hk
  · cases hd

theorem entry_represents (h : Represents s.stdin q) (hg : FitsRing (s, q) ev) :
    DeliversQueue s q ev ∧
      Represents (perform RingOp.run (performed s ev) s.stdin).2
        (perform RingOp.spec (requested s ev) q).2 := by
  have hcount := h.count
  have hshort := h.short
  have h256 : standardInBufferSize = 256 := rfl
  have hreads := @performed_readFits s ev (by omega) (by omega)
  obtain ⟨hbytes, hring⟩ := h.perform hg.fits hreads
  by_cases hd : keyDropped s ev = true
  · have hp : performed s ev = [] := if_pos hd
    have hs := dropped_spec h hd (hg.kept hd)
    rw [DeliversQueue, hs, hp]
    exact ⟨rfl, h⟩
  · have hp : performed s ev = requested s ev := if_neg hd
    rw [hp] at hbytes hring
    rw [DeliversQueue, hp]
    exact ⟨hbytes, hring⟩

/-- One entry of the kernel on the ring is the same operations on the queue. -/
theorem step_represents {t : Sched} (hl : Listed s) (h : Represents s.stdin q)
    (hg : FitsRing (s, q) ev) (ht : step s ev = some t) :
    Represents t.stdin (perform RingOp.spec (requested s ev) q).2 :=
  (entry_represents h hg).2.same (step_ring hl ht)

theorem boot_represents (c : BootConfig) : Represents (boot c).stdin [] :=
  ⟨Nat.zero_le _, rfl, ⟨Int.le_refl 0, Int.natCast_pos.mpr (by decide)⟩, rfl, rfl⟩

end Run

/-- Along every run whose characters fit, the ring is the queue, and every read hands over what
the queue gives up. -/
theorem stdin_fifo {c : BootConfig} {x : Sched × List Nat}
    (h : Reach queuedStep FitsRing (boot c, []) x) :
    Represents x.1.stdin x.2 ∧ ∀ ev, FitsRing x ev → DeliversQueue x.1 x.2 ev := by
  have hinv : Sane x.1 ∧ Represents x.1.stdin x.2 := by
    refine h.invariant (fun x => Sane x.1 ∧ Represents x.1.stdin x.2)
      ⟨boot_sane c, boot_represents c⟩ ?_
    rintro ⟨s, q⟩ ev y ⟨hs, hr⟩ hg hy
    obtain ⟨t, ht, rfl⟩ := Option.map_eq_some_iff.mp hy
    exact ⟨step_sane hs ht, step_represents hs.listed hr hg ht⟩
  exact ⟨hinv.2, fun ev hg => (entry_represents hinv.2 hg).1⟩

def editRun : List Event := [keyDown 0x1E, keyDown 0x1F, keyDown 0x0E, keyDown 0x20, call 3 0 2]

theorem editRun_fifo : ∃ x, run queuedStep editRun (boot sampleBoot, []) = some x ∧
    Represents x.1.stdin x.2 := by
  have h : (run queuedStep editRun (boot sampleBoot, [])).isSome := by decide +kernel
  obtain ⟨x, hx⟩ := Option.isSome_iff_exists.mp h
  exact ⟨x, hx, (stdin_fifo (reach_of_run editRun (by decide +kernel) hx)).1⟩

def floodRun : List Event := [call 4 0 257]

/-- A writer that does not look at the count fills the ring beyond its size. -/
theorem floodRun_overruns : ¬ ∀ c x, Reach queuedStep anyStep (boot c, []) x →
    Represents x.1.stdin x.2 := by
  intro h
  have hrun : ∃ x, Reach queuedStep anyStep (boot sampleBoot, []) x ∧ 256 < x.1.stdin.count :=
    reach_of_test floodRun (guarded_anyStep _ _) (by decide +kernel)
  obtain ⟨x, hx, hlong⟩ := hrun
  have hrep := h _ x hx
  have hcount := hrep.count
  have hshort : x.2.length ≤ 256 := hrep.short
  omega

end AdamOS.Lifecycle
