import AdamOS.Kernel.RunQueue
import AdamOS.Kernel.StdinQueue

/-! The process list where the rest of the kernel lets it down. A fork that kmalloc does not serve
counts a process that is not listed, and a key press follows the slot of the wait queue whether or
not its process is still there. -/
namespace AdamOS.Lifecycle
open AdamOS.Process AdamOS.Scheduler AdamOS.ListUpdate AdamOS.Word AdamOS.Transition

/- scheduler_enqueue(NULL): the last next pointer stays NULL, the counter goes up. -/
def enqueueNull (s : Sched) : Sched :=
  match s.procs with
  | [] => s
  | _ :: _ => { s with processQueueSize := wrap (s.processQueueSize + 1) }

/- handle_syscall_fork where kmalloc returns NULL for the PCB: the record is made at address 0. -/
def forkUnserved (regs : Registers) (s : Sched) : Outcome where
  sched := enqueueNull { s with pidStatic := wrap (s.pidStatic + 1) }
  regs := { regs with eax := s.pidStatic }

def queueStep (s : Sched) (ev : Event) : Option Sched :=
  if Calls ev .fork ∧ ev.env.pcbAddr = 0 then some (forkUnserved ev.regs s).sched else step s ev

def SlotListed (s : Sched) : Prop := ∀ a ∈ queued s, a ∈ s.procs.map Pcb.addr

instance (s : Sched) : Decidable (SlotListed s) :=
  match h : queued s with
  | none => .isTrue (by simp [SlotListed, h])
  | some a => decidable_of_iff (a ∈ s.procs.map Pcb.addr) (by simp [SlotListed, h])

/- Ctrl+C reads the pid of the process in the slot. -/
def CtrlCReads (s : Sched) (ev : Event) : Prop :=
  match ev.entry with
  | .keyboard scancode _ => isCtrlC scancode s ∧ s.foregroundPid ≠ 0
  | _ => False

instance (s : Sched) (ev : Event) : Decidable (CtrlCReads s ev) :=
  match h : ev.entry with
  | .keyboard scancode _ =>
    decidable_of_iff (isCtrlC scancode s ∧ s.foregroundPid ≠ 0) (by rw [CtrlCReads, h])
  | .timer => .isFalse (by rw [CtrlCReads, h]; exact id)
  | .syscall => .isFalse (by rw [CtrlCReads, h]; exact id)

def FollowsSlot (s : Sched) (ev : Event) : Prop :=
  CtrlCReads s ev ∨ (wakeCall s ev).isSome ∧ ∃ p ∈ s.procs, p.addr = s.current ∧ p.status ≠ .zombie

instance (s : Sched) (ev : Event) : Decidable (FollowsSlot s ev) :=
  inferInstanceAs (Decidable (_ ∨ _))

structure ServedGuard (s : Sched) (ev : Event) : Prop where
  queue : QueueGuard s ev
  served : Calls ev .fork → ev.env.pcbAddr ≠ 0
  slot : FollowsSlot s ev → SlotListed s

instance (s : Sched) (ev : Event) : Decidable (ServedGuard s ev) :=
  decidable_of_iff (QueueGuard s ev ∧ (Calls ev .fork → ev.env.pcbAddr ≠ 0) ∧
      (FollowsSlot s ev → SlotListed s))
    ⟨fun h => ⟨h.1, h.2.1, h.2.2⟩, fun h => ⟨h.queue, h.served, h.slot⟩⟩

structure QueueIntact (s : Sched) : Prop where
  acyclic : (s.procs.map Pcb.addr).Nodup
  pids : (s.procs.map Pcb.pid).Nodup
  idle : ∃ p ∈ s.procs, p.pid = 1
  main : ∃ p ∈ s.procs, p.pid = 2
  current : ∃ p ∈ s.procs, p.addr = s.current
  size : s.processQueueSize = s.procs.length

theorem RunQueue.intact {s : Sched} (hr : RunQueue s) : QueueIntact s :=
  ⟨hr.sane.listed.nodup, hr.distinct, hr.idle, hr.main, hr.sane.listed.current, hr.size⟩

/-! ### Every entry returns -/

section Returns
variable {s : Sched} {ev : Event}

theorem slotIsForeground_some (hl : Listed s) (h : SlotListed s) : ∃ b, slotIsForeground s = some b := by
  unfold slotIsForeground
  split
  next => exact ⟨_, rfl⟩
  next a ha =>
    obtain ⟨p, hp, rfl⟩ := List.mem_map.mp (h a ha)
    exact ⟨_, by rw [Sched.deref_of_mem hl.nodup hp, Option.map_some]⟩

theorem sigintForeground_some (hl : Listed s) (h : s.foregroundPid ≠ 0 → SlotListed s) :
    ∃ t, sigintForeground s = some t := by
  by_cases hf : s.foregroundPid = 0
  · exact ⟨_, by simp only [sigintForeground, hf, if_true]; rfl⟩
  · let u : Sched := { s with stdin := { s.stdin with count := 0, readIndex := s.stdin.writeIndex } }
    have hlu : Listed u := ⟨hl.nodup, hl.current, hl.enabled⟩
    obtain ⟨b, hb⟩ := slotIsForeground_some hlu (h hf)
    simp only [sigintForeground, if_neg hf]
    exact ⟨_, Option.bind_eq_some_iff.mpr ⟨b, hb, rfl⟩⟩

theorem stdinWakeProcess_some (hl : Listed s) (hq : (queued s).isSome)
    (h : (∃ p ∈ s.procs, p.addr = s.current ∧ p.status ≠ .zombie) → SlotListed s) (regs : Registers) :
    ∃ out, stdinWakeProcess regs s = some out := by
  obtain ⟨cur, hc, ha, hcur⟩ := currentProcess_eq hl
  by_cases hz : cur.status = .zombie
  · exact ⟨_, by simp only [stdinWakeProcess, hcur, Option.bind_eq_bind, Option.bind_some, if_pos hz]; rfl⟩
  obtain ⟨a, ha'⟩ := Option.isSome_iff_exists.mp hq
  obtain ⟨p, hp, rfl⟩ := List.mem_map.mp (h ⟨cur, hc, ha, hz⟩ a ha')
  have hslot : s.stdin.waitQueue.process = some p.addr := ha'
  let r := stdinRead (min s.stdin.count s.stdin.waitQueue.requestedLen) s.stdin
  let u := ((s.modify p.addr (setStatus .running)).modify s.current (setRegisters regs)).modify p.addr
    (setEax r.1.length)
  let v : Sched := { u with stdin := { r.2 with waitQueue := ⟨none, -1⟩ } }
  have hv : ∃ q ∈ v.procs, q.addr = v.current :=
    current_modify (fun _ => rfl) (current_modify (fun _ => rfl) (current_modify (fun _ => rfl) hl.current))
  obtain ⟨q, hq⟩ := currentProcess_some (current_modify (a := p.addr) (f := setStatus .ready) (fun _ => rfl) hv)
  simp only [stdinWakeProcess, hcur, if_neg hz, hslot, Sched.deref_of_mem hl.nodup hp,
    Option.bind_eq_bind, Option.bind_some]
  exact ⟨_, Option.bind_eq_some_iff.mpr ⟨q, hq, rfl⟩⟩

/-- A key press returns unless it follows the slot to a process that is gone. -/
theorem keyboard_some (hl : Listed s) (h : FollowsSlot s ev → SlotListed s) {scancode : Nat}
    {focused : Bool} (he : ev.entry = .keyboard scancode focused) :
    ∃ out, keyboardHandlerMain scancode focused ev.regs s = some out := by
  have hctrl : isCtrlC scancode s → s.foregroundPid ≠ 0 → SlotListed s := fun hc hf =>
    h (.inl (by rw [CtrlCReads, he]; exact ⟨hc, hf⟩))
  unfold keyboardHandlerMain
  cases hm : handleModifiers scancode s with
  | some t => exact ⟨_, rfl⟩
  | none =>
    by_cases hc : isCtrlC scancode s
    · obtain ⟨t, ht⟩ := sigintForeground_some hl (hctrl hc)
      exact ⟨_, by simp only [hc, if_true, ht]; rfl⟩
    simp only [if_neg hc]
    split
    · exact ⟨_, rfl⟩
    split
    · exact ⟨_, rfl⟩
    split
    · exact ⟨_, rfl⟩
    split
    next hshift hrelease hfull hslot =>
      have hq := handleInput_quiet scancode focused s
      have hp := handleInput_procs scancode focused s
      have hwake : wakeCall s ev = some (handleInput scancode focused s) := by
        simp [wakeCall, he, hm, hc, hshift, hrelease, hfull, hslot]
      have hlu : Listed (handleInput scancode focused s) :=
        ⟨hp ▸ hl.nodup, by rw [hp, hq.current]; exact hl.current, hq.enabled.trans hl.enabled⟩
      refine stdinWakeProcess_some hlu ((Bool.and_eq_true _ _).mp hslot).1 (fun hz => ?_) ev.regs
      rw [SlotListed, hp, show queued (handleInput scancode focused s) = queued s from
        congrArg (·.process) hq.slot]
      rw [hp, hq.current] at hz
      exact h (.inr ⟨by rw [hwake]; rfl, hz⟩)
    next => exact ⟨_, rfl⟩

/-- A call that does not enter update_scheduler returns to its caller. -/
theorem syscall_some (hl : Listed s) (he : ev.entry = .syscall) (hno : enters s ev = none)
    (hnew : Calls ev .fork → ev.env.pcbAddr ∉ s.procs.map Pcb.addr) :
    ∃ out, syscallHandlerMain ev.env ev.regs s = some out := by
  obtain ⟨cur, hc, ha, hcur⟩ := currentProcess_eq hl
  rw [enters_syscall hcur he] at hno
  unfold syscallHandlerMain
  cases hn : Syscall.ofNumber ev.regs.eax with
  | none => exact ⟨_, rfl⟩
  | some sc =>
    simp only [hn] at hno ⊢
    cases sc with
    | exit =>
      simp only at hno
      split at hno <;> cases hno
    | fork =>
      simp only [handleSyscallFork, hcur, Option.bind_eq_bind, Option.bind_some, if_neg (hnew ⟨he, hn⟩)]
      exact ⟨_, rfl⟩
    | read =>
      simp only [handleSyscallRead, hcur, Option.bind_eq_bind, Option.bind_some]
      split
      next hfd =>
        by_cases hb : readBlocks ev.regs s
        · simp only [if_pos (show blocksOnStdin ev.regs s cur by simp [blocksOnStdin, hfd, hb])] at hno
          cases hno
        · rw [if_neg hb]
          exact ⟨_, rfl⟩
      next => exact ⟨_, rfl⟩
      next => exact ⟨_, rfl⟩
    | write =>
      simp only [handleSyscallWrite, hcur, Option.bind_eq_bind, Option.bind_some]
      split <;> exact ⟨_, rfl⟩
    | kill =>
      obtain ⟨r, hr⟩ := schedulerRemove_some hl ev.env.dyingParent ev.regs.ebx
      exact ⟨_, Option.bind_eq_some_iff.mpr ⟨r, hr, rfl⟩⟩
    | wait => cases hno
    | sleep =>
      rw [handleSyscallSleep_eq hcur]
      by_cases hz : ev.regs.ebx = 0 ∨ cur.pid = 1
      · exact ⟨_, if_pos hz⟩
      · simp only [if_neg hz] at hno
        cases hno
    | getpid => exact ⟨_, by rw [hcur]; rfl⟩
    | getppid => exact ⟨_, by rw [hcur]; rfl⟩
    | _ => exact ⟨_, rfl⟩

/-- Every guarded entry returns. -/
theorem RunQueue.step_some (hr : RunQueue s) (hg : QueueGuard s ev) (h : FollowsSlot s ev → SlotListed s)
    (hnew : Calls ev .fork → ev.env.pcbAddr ∉ s.procs.map Pcb.addr) : ∃ t, step s ev = some t := by
  have hl := hr.sane.listed
  suffices hout : ∃ out, handle s ev = some out by
    obtain ⟨out, hout⟩ := hout
    exact ⟨out.sched, by rw [step, hout]; rfl⟩
  obtain ⟨cur, -, -, hcur⟩ := currentProcess_eq hl
  cases hu : enters s ev with
  | some u =>
    rw [handle_of_enters hcur hu]
    exact (hr.oneAwake hg hu).returns ev.env.dyingParent ev.regs
  | none =>
    cases he : ev.entry with
    | timer => simp [enters, hcur, he] at hu
    | keyboard scancode focused =>
      obtain ⟨out, hout⟩ := keyboard_some hl h he
      exact ⟨out, by simp only [handle, he, hout]⟩
    | syscall =>
      obtain ⟨out, hout⟩ := syscall_some hl he hu hnew
      exact ⟨out, by simp only [handle, he, hout]⟩

end Returns

/-! ### Runs -/

theorem queueStep_served {s : Sched} {ev : Event} (h : Calls ev .fork → ev.env.pcbAddr ≠ 0) :
    queueStep s ev = step s ev :=
  if_neg fun hf => h hf.1 hf.2

/-- Along every guarded run the list stays sound; from every state reached, next_process never halts
and every guarded entry returns. -/
theorem run_queue_intact {c : BootConfig} {s : Sched} (h : Reach queueStep ServedGuard (boot c) s) :
    QueueIntact s ∧ ∀ ev, ServedGuard s ev →
      (∀ n, nextCall s ev = some n → ∃ t, nextProcess n = some t) ∧
      ((Calls ev .fork → ev.env.pcbAddr ∉ s.procs.map Pcb.addr) → ∃ t, queueStep s ev = some t) := by
  have hr : RunQueue s := h.invariant RunQueue (boot_runQueue c) fun _ _ _ hr hg ht =>
    step_runQueue hr hg.queue (queueStep_served hg.served ▸ ht)
  refine ⟨hr.intact, fun ev hg => ⟨fun n hn => hr.next hg.queue hn, fun hnew => ?_⟩⟩
  rw [queueStep_served hg.served]
  exact hr.step_some hg.queue hg.slot hnew

/- main forks 3 and 4 and waits for 3; 3 gets the processor and exits; 4 kills itself. -/
def buryRun : List Event :=
  [forkAt 0x200000, forkAt 0x210000, call 13 3 0] ++ quantum ++ [call 1 0 0, call 12 4 0]

theorem buryRun_intact : ∃ s, run queueStep buryRun (boot sampleBoot) = some s ∧
    s.procs.length = 3 ∧ QueueIntact s := by
  have h : (run queueStep buryRun (boot sampleBoot)).any fun s =>
      decide (s.procs.length = 3) := by decide +kernel
  obtain ⟨s, hs, hlen⟩ := (Option.any_eq_true _ _).mp h
  exact ⟨s, hs, of_decide_eq_true hlen,
    (run_queue_intact (reach_of_run buryRun (by decide +kernel) hs)).1⟩

/- main opens a window whose pixels take what is left of the kernel heap, and forks. -/
def unservedRun : List Event := [call 18 0 0, forkAt 0]

/-- The counter goes up for a process that is not in the list. -/
theorem unservedRun_miscounts : ¬ ∀ c s, Reach queueStep QueueGuard (boot c) s → QueueIntact s := by
  intro h
  have hrun : ∃ s, Reach queueStep QueueGuard (boot sampleBoot) s ∧
      s.processQueueSize ≠ s.procs.length :=
    reach_of_test unservedRun (by decide +kernel) (by decide +kernel)
  obtain ⟨s, hs, hne⟩ := hrun
  exact hne (h _ s hs).size

end AdamOS.Lifecycle
