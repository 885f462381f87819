import AdamOS.Kernel.Lifecycle
import AdamOS.Kernel.ProcessList

/-! What one kernel entry can do to the process state. Six effects cover every interrupt and
every system call; the proofs about runs go through these and never open a handler again. -/
namespace AdamOS.Lifecycle
open AdamOS.Process AdamOS.Scheduler AdamOS.ListUpdate AdamOS.Word AdamOS.Transition

def Calls (ev : Event) (sc : Syscall) : Prop :=
  ev.entry = .syscall ∧ Syscall.ofNumber ev.regs.eax = some sc

instance (ev : Event) (sc : Syscall) : Decidable (Calls ev sc) := inferInstanceAs (Decidable (_ ∧ _))

theorem Calls.withEnv {ev : Event} {sc : Syscall} (h : Calls ev sc) (env : Env) :
    Calls { ev with env := env } sc := h

theorem Calls.unique {ev : Event} {sc sc' : Syscall} (h : Calls ev sc) (h' : Calls ev sc') :
    sc = sc' := Option.some.inj (h.2.symm.trans h'.2)

/-! ### The frame a process is owed -/

structure Context where
  frame : Registers
  syscall : Bool
deriving DecidableEq

/- exit, waitpid and sleep return nothing; every other call leaves a result in eax. -/
def Context.answers (c : Context) : Bool :=
  c.syscall && match Syscall.ofNumber c.frame.eax with
    | some .exit | some .wait | some .sleep => false
    | _ => true

def Context.Resumes (c : Context) (regs : Registers) : Prop :=
  regs = c.frame ∨ c.answers ∧ regs = { c.frame with eax := regs.eax }

instance (c : Context) (regs : Registers) : Decidable (c.Resumes regs) :=
  inferInstanceAs (Decidable (_ ∨ _))

/- The context of the process that makes an entry: exec replaces its frame. -/
def entryContext (ev : Event) : Context :=
  if Calls ev .exec then ⟨ev.env.execRegs, false⟩ else ⟨ev.regs, decide (ev.entry = .syscall)⟩

theorem entryContext_of_not {ev : Event} (h : ¬Calls ev .exec) :
    entryContext ev = ⟨ev.regs, decide (ev.entry = .syscall)⟩ := if_neg h

theorem Context.resumes_same {ev : Event} (h : ¬Calls ev .exec) :
    (entryContext ev).Resumes ev.regs := by
  rw [entryContext_of_not h]
  exact .inl rfl

/-- A call other than the four below may return any result. -/
theorem Context.resumes_result {ev : Event} (he : ev.entry = .syscall)
    (h : ∀ sc, Calls ev sc → sc ∉ [Syscall.exec, .exit, .wait, .sleep]) (v : Nat) :
    (entryContext ev).Resumes { ev.regs with eax := v } := by
  have hx : ¬Calls ev .exec := fun hc => h _ hc (by decide)
  rw [entryContext_of_not hx]
  refine .inr ⟨?_, rfl⟩
  simp only [Context.answers, he, decide_true, Bool.true_and]
  split
  next hn => exact absurd (by decide) (h _ ⟨he, hn⟩)
  next hn => exact absurd (by decide) (h _ ⟨he, hn⟩)
  next hn => exact absurd (by decide) (h _ ⟨he, hn⟩)
  next => rfl

theorem Context.resumes_call {ev : Event} {sc : Syscall} (hc : Calls ev sc)
    (h : sc ∉ [Syscall.exec, .exit, .wait, .sleep]) (v : Nat) :
    (entryContext ev).Resumes { ev.regs with eax := v } :=
  resumes_result hc.1 (fun _ hc' => hc.unique hc' ▸ h) v

theorem not_calls {ev : Event} {sc sc' : Syscall} (h : Calls ev sc) (hne : sc ≠ sc') :
    ¬Calls ev sc' := fun h' => hne (h.unique h')

def Answered (ev : Event) (regs : Registers) : Prop :=
  ¬Calls ev .fork ∧ (entryContext ev).Resumes regs

theorem Answered.of_call {ev : Event} {sc : Syscall} (hc : Calls ev sc)
    (h : sc ∉ [Syscall.fork, .exec, .exit, .wait, .sleep]) (v : Nat) :
    Answered ev { ev.regs with eax := v } :=
  ⟨fun hf => h (hc.unique hf ▸ List.mem_cons_self),
    Context.resumes_call hc (fun hm => h (List.mem_cons_of_mem _ hm)) v⟩

def awaits (pid : Nat) (p : Pcb) : Pcb := blockStatus { p with waitingPid := pid }

def sleeps (ticks : Nat) (p : Pcb) : Pcb := blockStatus { p with sleepTicks := ticks }

def blocksOnStdin (regs : Registers) (s : Sched) (p : Pcb) : Bool :=
  fdType regs.ebx p = some .stdin && decide (readBlocks regs s)

/- The state in which an entry calls update_scheduler, if it does. -/
def enters (s : Sched) (ev : Event) : Option Sched := do
  let cur ← s.currentProcess
  match ev.entry with
  | .timer => some { s with timerTicks := wrap (s.timerTicks + 1) }
  | .keyboard _ _ => none
  | .syscall =>
    match Syscall.ofNumber ev.regs.eax with
    | some .exit =>
      if cur.pid = 1 ∨ cur.pid = 2 then some s else some (s.modify s.current (setStatus .zombie))
    | some .wait =>
      some ({ s with foregroundPid := ev.regs.ebx }.modify s.current (awaits ev.regs.ebx))
    | some .sleep =>
      if ev.regs.ebx = 0 ∨ cur.pid = 1 then none
      else some (s.modify s.current (sleeps ev.regs.ebx))
    | some .read =>
      if blocksOnStdin ev.regs s cur then
        some { s.modify s.current blockStatus with
          stdin := { s.stdin with waitQueue := ⟨some s.current, toInt32 ev.regs.edx⟩ } }
      else none
    | _ => none

/- The state in which a key press calls stdin_wake_process, if it does. -/
def wakeCall (s : Sched) (ev : Event) : Option Sched :=
  match ev.entry with
  | .keyboard scancode focused =>
    if (handleModifiers scancode s).isSome || isCtrlC scancode s ||
        (s.shiftHeld && scancode = scancodeEnter) ||
        decide (scancode &&& scancodeReleaseMask ≠ 0) ||
        decide ((standardInBufferSize : Int) ≤ s.stdin.count) then none
    else
      let u := handleInput scancode focused s
      if u.stdin.waitQueue.process.isSome &&
          (decide (u.stdin.waitQueue.requestedLen ≤ u.stdin.count) || scancode = scancodeEnter) then
        some u
      else none
  | _ => none

structure Quiet (s t : Sched) : Prop where
  procs : ∃ f : Pcb → Pcb, t.procs = s.procs.map f ∧
    ∀ p, f p = { p with fds := (f p).fds, heapBreak := (f p).heapBreak }
  current : t.current = s.current
  slot : t.stdin.waitQueue = s.stdin.waitQueue
  foregroundPid : t.foregroundPid = s.foregroundPid
  pidStatic : t.pidStatic = s.pidStatic
  enabled : t.enableScheduler = s.enableScheduler
  queueSize : t.processQueueSize = s.processQueueSize
  esp0 : t.esp0 = s.esp0
  cr3 : t.cr3 = s.cr3

theorem Quiet.of_procs {s t : Sched} (h : t.procs = s.procs) (hc : t.current = s.current)
    (hs : t.stdin.waitQueue = s.stdin.waitQueue) (hf : t.foregroundPid = s.foregroundPid)
    (hp : t.pidStatic = s.pidStatic) (he : t.enableScheduler = s.enableScheduler)
    (hq : t.processQueueSize = s.processQueueSize) (h0 : t.esp0 = s.esp0) (h3 : t.cr3 = s.cr3) :
    Quiet s t :=
  ⟨⟨id, by rw [h, List.map_id], fun _ => rfl⟩, hc, hs, hf, hp, he, hq, h0, h3⟩

theorem Quiet.refl (s : Sched) : Quiet s s := .of_procs rfl rfl rfl rfl rfl rfl rfl rfl rfl

theorem Quiet.of_modify {s : Sched} {a : Nat} {f : Pcb → Pcb}
    (hf : ∀ p, f p = { p with fds := (f p).fds, heapBreak := (f p).heapBreak }) :
    Quiet s (s.modify a f) where
  procs := by
    refine ⟨onAddr a f, rfl, fun p => ?_⟩
    by_cases h : p.addr = a
    · rw [onAddr_of_eq h]
      exact hf p
    · rw [onAddr_of_ne h]
  current := rfl
  slot := rfl
  foregroundPid := rfl
  pidStatic := rfl
  enabled := rfl
  queueSize := rfl
  esp0 := rfl
  cr3 := rfl

structure Child (s : Sched) (ev : Event) (child : Pcb) : Prop where
  addr : child.addr = ev.env.pcbAddr
  fresh : child.addr ∉ s.procs.map Pcb.addr
  pid : child.pid = s.pidStatic
  status : child.status = .ready
  directory : child.pageDirectory = ev.env.directory
  registers : child.registers = { ev.regs with eax := 0 }
  sleepTicks : child.sleepTicks = 0
  waitingPid : child.waitingPid = 0

def editsAssets (ev : Event) : Prop :=
  Calls ev .open ∨ Calls ev .close ∨ Calls ev .read ∨ Calls ev .sbrk

structure Retains (s : Sched) (ev : Event) (t : Sched) : Prop where
  assets : ¬editsAssets ev → t.procs.map Scheduler.assets = s.procs.map Scheduler.assets
  heap : ¬Calls ev .sbrk → t.procs.map Pcb.heapBreak = s.procs.map Pcb.heapBreak

theorem Retains.of_procs {s t : Sched} (ev : Event) (h : t.procs = s.procs) : Retains s ev t :=
  ⟨fun _ => by rw [h], fun _ => by rw [h]⟩

inductive Effect (s : Sched) (ev : Event) : Sched → Option Pcb → Registers → Prop
  | quiet {t : Sched} {regs : Registers} : Quiet s t → Retains s ev t → Answered ev regs → Effect s ev t none regs
  | schedule {u : Sched} {out : Outcome} : enters s ev = some u →
      updateScheduler ev.env.dyingParent ev.regs u = some out →
      Effect s ev out.sched out.released out.regs
  | fork {t : Sched} {child : Pcb} : Calls ev .fork → Child s ev child →
      t.procs = s.procs ++ [child] → t.current = s.current → t.stdin = s.stdin →
      t.foregroundPid = s.foregroundPid → t.pidStatic = wrap (s.pidStatic + 1) →
      t.enableScheduler = s.enableScheduler →
      t.processQueueSize = wrap (s.processQueueSize + 1) → t.esp0 = s.esp0 → t.cr3 = s.cr3 →
      Effect s ev t none { ev.regs with eax := child.pid }
  | kill {r : Removal} {eax : Nat} : Calls ev .kill → Removed ev.regs.ebx s r →
      Effect s ev r.sched r.released { ev.regs with eax := eax }
  | interrupt {t : Sched} {scancode : Nat} {focused : Bool} :
      ev.entry = .keyboard scancode focused → isCtrlC scancode s → sigintForeground s = some t →
      Effect s ev t none ev.regs
  | wake {out : Outcome} {scancode : Nat} {focused : Bool} :
      ev.entry = .keyboard scancode focused → Quiet s (handleInput scancode focused s) →
      stdinWakeProcess ev.regs (handleInput scancode focused s) = some out →
      wakeCall s ev = some (handleInput scancode focused s) →
      Effect s ev out.sched none out.regs

/-! ### Interrupts -/

/-- A modifier key changes which of the two are held, and nothing else. -/
theorem handleModifiers_held {scancode : Nat} {s t : Sched} (h : handleModifiers scancode s = some t) :
    ∃ shift ctrl, t = { s with shiftHeld := shift, ctrlHeld := ctrl } := by
  unfold handleModifiers at h
  split at h
  · cases h; exact ⟨true, s.ctrlHeld, rfl⟩
  split at h
  · cases h; exact ⟨false, s.ctrlHeld, rfl⟩
  split at h
  · cases h; exact ⟨s.shiftHeld, true, rfl⟩
  split at h
  · cases h; exact ⟨s.shiftHeld, false, rfl⟩
  · cases h

theorem handleModifiers_quiet {scancode : Nat} {s t : Sched}
    (h : handleModifiers scancode s = some t) : Quiet s t := by
  obtain ⟨shift, ctrl, rfl⟩ := handleModifiers_held h
  exact .of_procs rfl rfl rfl rfl rfl rfl rfl rfl rfl

theorem handleModifiers_procs {scancode : Nat} {s t : Sched}
    (h : handleModifiers scancode s = some t) : t.procs = s.procs := by
  obtain ⟨shift, ctrl, rfl⟩ := handleModifiers_held h
  rfl

theorem typeChar_procs (c : Nat) (focused : Bool) (s : Sched) :
    (typeChar c focused s).procs = s.procs := by
  cases focused <;> rfl

theorem typeChar_quiet (c : Nat) (focused : Bool) (s : Sched) : Quiet s (typeChar c focused s) := by
  cases focused with
  | false => exact .refl s
  | true => exact .of_procs rfl rfl (stdinWrite_waitQueue c s.stdin) rfl rfl rfl rfl rfl rfl

theorem handleInput_quiet (scancode : Nat) (focused : Bool) (s : Sched) :
    Quiet s (handleInput scancode focused s) := by
  have hchar : ∀ c, Quiet s (if c ≠ 0 then typeChar c focused s else s) := by
    intro c
    by_cases hc : c ≠ 0
    · rw [if_pos hc]
      exact typeChar_quiet ..
    · rw [if_neg hc]
      exact .refl s
  unfold handleInput
  split
  · exact typeChar_quiet ..
  split
  · exact typeChar_quiet ..
  split
  · exact hchar _
  · exact .refl s

theorem handleInput_procs (scancode : Nat) (focused : Bool) (s : Sched) :
    (handleInput scancode focused s).procs = s.procs := by
  have hchar : ∀ c, (if c ≠ 0 then typeChar c focused s else s).procs = s.procs := by
    intro c
    by_cases hc : c ≠ 0
    · rw [if_pos hc]
      exact typeChar_procs ..
    · rw [if_neg hc]
  unfold handleInput
  split
  · exact typeChar_procs ..
  split
  · exact typeChar_procs ..
  split
  · exact hchar _
  · rfl

theorem stdinWakeProcess_released {s : Sched} {regs : Registers} {out : Outcome}
    (h : stdinWakeProcess regs s = some out) : out.released = none := by
  obtain ⟨cur, _, h1⟩ := Option.bind_eq_some_iff.mp h
  split at h1
  · cases h1
    rfl
  · obtain ⟨a, _, h2⟩ := Option.bind_eq_some_iff.mp h1
    obtain ⟨p, _, h3⟩ := Option.bind_eq_some_iff.mp h2
    obtain ⟨cur', _, h4⟩ := Option.bind_eq_some_iff.mp h3
    cases h4
    rfl

theorem effect_still {s t : Sched} {ev : Event} {regs : Registers} (hp : t.procs = s.procs)
    (hq : Quiet s t) (hr : Answered ev regs) : Effect s ev t none regs :=
  .quiet hq (.of_procs ev hp) hr

theorem keyboard_effect {s : Sched} {ev : Event} {out : Outcome} {scancode : Nat} {focused : Bool}
    (he : ev.entry = .keyboard scancode focused)
    (h : keyboardHandlerMain scancode focused ev.regs s = some out) :
    Effect s ev out.sched out.released out.regs := by
  have hnc : ∀ sc, ¬Calls ev sc := fun sc hc => by simp [Calls, he] at hc
  have hr : Answered ev ev.regs := ⟨hnc _, Context.resumes_same (hnc _)⟩
  unfold keyboardHandlerMain at h
  cases hm : handleModifiers scancode s with
  | some t =>
    simp only [hm] at h
    cases h
    exact effect_still (handleModifiers_procs hm) (handleModifiers_quiet hm) hr
  | none =>
    simp only [hm] at h
    by_cases hc : isCtrlC scancode s
    · rw [if_pos hc] at h
      obtain ⟨t, ht, h1⟩ := Option.bind_eq_some_iff.mp h
      cases h1
      exact .interrupt he hc ht
    rw [if_neg hc] at h
    split at h
    · cases h
      exact effect_still (typeChar_procs ..) (typeChar_quiet ..) hr
    split at h
    · cases h
      exact effect_still rfl (.refl s) hr
    split at h
    · cases h
      exact effect_still rfl (.refl s) hr
    have hq := handleInput_quiet scancode focused s
    split at h
    next hshift hrelease hfull hslot =>
      rw [stdinWakeProcess_released h]
      refine .wake he hq h ?_
      simp only [wakeCall, he, hm, hc, hslot, if_true]
      simp_all
    next =>
      cases h
      exact effect_still (handleInput_procs ..) hq hr

/-! ### System calls -/

section Syscalls
variable {s : Sched} {ev : Event} {out : Outcome} {cur : Pcb}

theorem enters_syscall (hcur : s.currentProcess = some cur) (he : ev.entry = .syscall) :
    enters s ev = match Syscall.ofNumber ev.regs.eax with
    | some .exit =>
      if cur.pid = 1 ∨ cur.pid = 2 then some s else some (s.modify s.current (setStatus .zombie))
    | some .wait =>
      some ({ s with foregroundPid := ev.regs.ebx }.modify s.current (awaits ev.regs.ebx))
    | some .sleep =>
      if ev.regs.ebx = 0 ∨ cur.pid = 1 then none
      else some (s.modify s.current (sleeps ev.regs.ebx))
    | some .read =>
      if blocksOnStdin ev.regs s cur then
        some { s.modify s.current blockStatus with
          stdin := { s.stdin with waitQueue := ⟨some s.current, toInt32 ev.regs.edx⟩ } }
      else none
    | _ => none := by
  simp only [enters, hcur, he, Option.bind_eq_bind, Option.bind_some]

theorem modify_modify (s : Sched) (a : Nat) {f g : Pcb → Pcb} (hf : ∀ p, (f p).addr = p.addr) :
    (s.modify a f).modify a g = s.modify a fun p => g (f p) := by
  have : ∀ p, onAddr a g (onAddr a f p) = onAddr a (fun p => g (f p)) p := by
    intro p
    by_cases h : p.addr = a <;> simp [onAddr, h, hf]
  simp [Sched.modify, Function.comp_def, this]

theorem handleSyscallExit_eq (hcur : s.currentProcess = some cur) (env : Env) (regs : Registers) :
    handleSyscallExit env regs s = updateScheduler env.dyingParent regs
      (if cur.pid = 1 ∨ cur.pid = 2 then s else s.modify s.current (setStatus .zombie)) := by
  by_cases hp : cur.pid = 1 ∨ cur.pid = 2 <;>
    simp [handleSyscallExit, schedulerRemove, hcur, hp]

theorem handleSyscallWait_eq (env : Env) (regs : Registers) (s : Sched) :
    handleSyscallWait env regs s = updateScheduler env.dyingParent regs
      ({ s with foregroundPid := regs.ebx }.modify s.current (awaits regs.ebx)) :=
  congrArg (updateScheduler env.dyingParent regs) (modify_modify (g := blockStatus)
    (f := fun p => { p with waitingPid := regs.ebx }) { s with foregroundPid := regs.ebx }
    s.current fun _ => rfl)

theorem handleSyscallSleep_eq (hcur : s.currentProcess = some cur) (env : Env)
    (regs : Registers) : handleSyscallSleep env regs s =
      if regs.ebx = 0 ∨ cur.pid = 1 then some { sched := s, regs := regs }
      else updateScheduler env.dyingParent regs (s.modify s.current (sleeps regs.ebx)) := by
  have hm := modify_modify (g := blockStatus) (f := fun p => { p with sleepTicks := regs.ebx })
    s s.current fun _ => rfl
  simp only [handleSyscallSleep, hcur, Option.bind_eq_bind, Option.bind_some]
  exact if_congr Iff.rfl rfl (congrArg (updateScheduler env.dyingParent regs) hm)

theorem handleSyscallRead_blocks (hcur : s.currentProcess = some cur) (env : Env)
    {regs : Registers} (hb : blocksOnStdin regs s cur) :
    handleSyscallRead env regs s = updateScheduler env.dyingParent regs
      { s.modify s.current blockStatus with
        stdin := { s.stdin with waitQueue := ⟨some s.current, toInt32 regs.edx⟩ } } := by
  simp only [blocksOnStdin, Bool.and_eq_true, decide_eq_true_eq] at hb
  simp only [handleSyscallRead, hcur, Option.bind_eq_bind, Option.bind_some, hb.1, if_pos hb.2]
  rfl

/-- An entry that calls update_scheduler does nothing after it. -/
theorem handle_of_enters (hcur : s.currentProcess = some cur) {u : Sched}
    (h : enters s ev = some u) : handle s ev = updateScheduler ev.env.dyingParent ev.regs u := by
  cases he : ev.entry with
  | timer =>
    simp only [enters, hcur, he, Option.bind_eq_bind, Option.bind_some] at h
    cases h
    simp only [handle, he]
    rfl
  | keyboard scancode focused =>
    simp only [enters, hcur, he, Option.bind_eq_bind, Option.bind_some] at h
    cases h
  | syscall =>
    rw [enters_syscall hcur he] at h
    simp only [handle, he, syscallHandlerMain]
    cases hn : Syscall.ofNumber ev.regs.eax with
    | none =>
      simp only [hn] at h
      cases h
    | some sc =>
      simp only [hn] at h
      cases sc with
      | exit =>
        rw [handleSyscallExit_eq hcur]
        by_cases hp : cur.pid = 1 ∨ cur.pid = 2
        · rw [if_pos hp] at h
          cases h
          rw [if_pos hp]
        · rw [if_neg hp] at h
          cases h
          rw [if_neg hp]
      | wait =>
        cases h
        exact handleSyscallWait_eq ..
      | sleep =>
        rw [handleSyscallSleep_eq hcur]
        by_cases hz : ev.regs.ebx = 0 ∨ cur.pid = 1
        · rw [if_pos hz] at h
          cases h
        · rw [if_neg hz] at h
          cases h
          rw [if_neg hz]
      | read =>
        by_cases hb : blocksOnStdin ev.regs s cur
        · rw [if_pos hb] at h
          cases h
          exact handleSyscallRead_blocks hcur ev.env hb
        · rw [if_neg hb] at h
          cases h
      | _ => cases h

theorem sleep_effect (hcur : s.currentProcess = some cur) (hc : Calls ev .sleep)
    (hno : enters s ev = none) (h : handleSyscallSleep ev.env ev.regs s = some out) :
    Effect s ev out.sched out.released out.regs := by
  rw [enters_syscall hcur hc.1] at hno
  simp only [hc.2] at hno
  rw [handleSyscallSleep_eq hcur] at h
  by_cases hz : ev.regs.ebx = 0 ∨ cur.pid = 1
  · rw [if_pos hz] at h
    cases h
    exact effect_still rfl (.refl s)
      ⟨not_calls hc (by decide), Context.resumes_same (not_calls hc (by decide))⟩
  · rw [if_neg hz] at hno
    cases hno

theorem withFds_quiet (env : Env) (regs : Registers) (s : Sched) :
    Quiet s (withFds env regs s).sched := .of_modify fun _ => rfl

theorem withFds_retains {env : Env} {regs : Registers} (hc : editsAssets ev) :
    Retains s ev (withFds env regs s).sched where
  assets := fun hne => absurd hc hne
  heap := by
    intro _
    let setFds (p : Pcb) : Pcb := { p with fds := env.fds }
    have hf : ∀ p, (onAddr s.current setFds p).heapBreak = p.heapBreak :=
      onAddr_field Pcb.heapBreak setFds (fun _ => rfl) s.current
    simp only [withFds, Sched.modify, List.map_map]
    exact List.map_congr_left fun p _ => hf p

theorem read_effect (hcur : s.currentProcess = some cur) (hc : Calls ev .read)
    (hno : enters s ev = none) (h : handleSyscallRead ev.env ev.regs s = some out) :
    Effect s ev out.sched out.released out.regs := by
  rw [enters_syscall hcur hc.1] at hno
  simp only [hc.2] at hno
  simp only [handleSyscallRead, hcur, Option.bind_eq_bind, Option.bind_some] at h
  split at h
  next hfd =>
    by_cases hb : readBlocks ev.regs s
    · rw [if_pos (by simp [blocksOnStdin, hfd, hb])] at hno
      cases hno
    · rw [if_neg hb] at h
      cases h
      exact effect_still rfl (.of_procs rfl rfl (stdinRead_waitQueue ..) rfl rfl rfl rfl rfl rfl)
        (.of_call hc (by decide) _)
  next =>
    cases h
    exact .quiet (withFds_quiet ..) (withFds_retains (.inr (.inr (.inl hc))))
      (.of_call hc (by decide) _)
  next =>
    cases h
    exact effect_still rfl (.refl s) (.of_call hc (by decide) _)

theorem fork_effect (hl : Listed s) (hc : Calls ev .fork)
    (h : handleSyscallFork ev.env ev.regs s = some out) : Effect s ev out.sched out.released out.regs := by
  obtain ⟨cur, hcm, -, hcur⟩ := currentProcess_eq hl
  simp only [handleSyscallFork, hcur, Option.bind_eq_bind, Option.bind_some] at h
  by_cases hin : ev.env.pcbAddr ∈ s.procs.map Pcb.addr
  · rw [if_pos hin] at h
    cases h
  rw [if_neg hin] at h
  cases h
  obtain ⟨p, ps, hps⟩ := List.exists_cons_of_ne_nil (List.ne_nil_of_mem hcm)
  have hchild : Child s ev (createProcessControlBlock ev.env.pcbAddr ev.env.stackMem s.pidStatic
    ev.env.directory { ev.regs with eax := 0 } cur.pid) := ⟨rfl, hin, rfl, rfl, rfl, rfl, rfl, rfl⟩
  refine .fork hc hchild ?_ ?_ ?_ ?_ ?_ ?_ ?_ ?_ ?_ <;> simp [schedulerEnqueue, hps]

theorem kill_effect (hl : Listed s) (hc : Calls ev .kill)
    (h : handleSyscallKill ev.env ev.regs s = some out) : Effect s ev out.sched out.released out.regs := by
  obtain ⟨r, hr, h1⟩ := Option.bind_eq_some_iff.mp h
  cases h1
  exact .kill hc (schedulerRemove_cases hl hr)

theorem write_effect (hc : Calls ev .write) (h : handleSyscallWrite ev.env ev.regs s = some out) :
    Effect s ev out.sched out.released out.regs := by
  obtain ⟨cur, _, h1⟩ := Option.bind_eq_some_iff.mp h
  have hring : ∀ (is : List Nat) (b : StdinBuffer),
      (is.foldl (fun b i => stdinWrite (ev.env.buf i) b) b).waitQueue = b.waitQueue := by
    intro is
    induction is with
    | nil => exact fun _ => rfl
    | cons i is ih => exact fun b => (ih _).trans (stdinWrite_waitQueue ..)
  have hr : ∀ v, Answered ev { ev.regs with eax := v } := .of_call hc (by decide)
  split at h1
  · cases h1
    exact effect_still rfl (.of_procs rfl rfl (hring ..) rfl rfl rfl rfl rfl rfl) (hr _)
  · cases h1
    exact effect_still rfl (.refl s) (hr _)
  · cases h1
    exact effect_still rfl (.refl s) (hr _)
  · cases h1
    exact effect_still rfl (.refl s) (hr _)

theorem syscall_effect (hl : Listed s) (he : ev.entry = .syscall) (hno : enters s ev = none)
    (h : syscallHandlerMain ev.env ev.regs s = some out) : Effect s ev out.sched out.released out.regs := by
  obtain ⟨cur, _, _, hcur⟩ := currentProcess_eq hl
  simp only [syscallHandlerMain] at h
  cases hn : Syscall.ofNumber ev.regs.eax with
  | none =>
    simp only [hn] at h
    cases h
    have hnc : ∀ sc, ¬Calls ev sc := fun sc hc => by simpa [hn] using hc.2
    exact effect_still rfl (.refl s)
      ⟨hnc _, Context.resumes_result he (fun sc hc => absurd hc (hnc sc)) _⟩
  | some sc =>
    have hc : Calls ev sc := ⟨he, hn⟩
    have henter := enters_syscall hcur he
    simp only [hn] at h henter
    cases sc with
    | exit =>
      rw [hno] at henter
      by_cases hp : cur.pid = 1 ∨ cur.pid = 2 <;> simp [hp] at henter
    | wait => simp [hno] at henter
    | sleep => exact sleep_effect hcur hc hno h
    | read => exact read_effect hcur hc hno h
    | fork => exact fork_effect hl hc h
    | write => exact write_effect hc h
    | «open» =>
      cases h
      exact .quiet (withFds_quiet ..) (withFds_retains (.inl hc)) (.of_call hc (by decide) _)
    | close =>
      cases h
      exact .quiet (withFds_quiet ..) (withFds_retains (.inr (.inl hc))) (.of_call hc (by decide) _)
    | kill => exact kill_effect hl hc h
    | sbrk =>
      cases h
      exact .quiet (.of_modify fun _ => rfl)
        ⟨fun hne => absurd (.inr (.inr (.inr hc))) hne, fun hne => absurd hc hne⟩
        (.of_call hc (by decide) _)
    | exec =>
      cases h
      exact effect_still rfl (.refl s)
        ⟨not_calls hc (by decide), .inl (by rw [entryContext, if_pos hc])⟩
    | getpid =>
      simp only [hcur, Option.map_some] at h
      cases h; exact effect_still rfl (.refl s) (.of_call hc (by decide) _)
    | getppid =>
      simp only [hcur, Option.map_some] at h
      cases h; exact effect_still rfl (.refl s) (.of_call hc (by decide) _)
    | _ => cases h; exact effect_still rfl (.refl s) (.of_call hc (by decide) _)

end Syscalls

/-- Every entry has one of the six effects. -/
theorem handle_effect {s : Sched} {ev : Event} {out : Outcome} (hl : Listed s)
    (h : handle s ev = some out) : Effect s ev out.sched out.released out.regs := by
  obtain ⟨cur, _, _, hcur⟩ := currentProcess_eq hl
  cases hent : enters s ev with
  | some u =>
    rw [handle_of_enters hcur hent] at h
    exact .schedule hent h
  | none =>
    simp only [handle] at h
    cases he : ev.entry with
    | timer => simp [enters, hcur, he] at hent
    | keyboard scancode focused =>
      simp only [he] at h
      exact keyboard_effect he h
    | syscall =>
      simp only [he] at h
      exact syscall_effect hl he hent h

theorem step_effect {s t : Sched} {ev : Event} (hl : Listed s) (h : step s ev = some t) :
    ∃ released regs, Effect s ev t released regs := by
  obtain ⟨out, hout, rfl⟩ := Option.map_eq_some_iff.mp h
  exact ⟨out.released, out.regs, handle_effect hl hout⟩

end AdamOS.Lifecycle
