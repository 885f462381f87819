import AdamOS.Kernel.Waiting

/-! The process list as the scheduler needs it. While process 1 never blocks, next_process always
finds a process to run, and the size counter that bounds its search is the length of the list. -/
namespace AdamOS.Lifecycle
open AdamOS.Process AdamOS.Scheduler AdamOS.ListUpdate AdamOS.Word AdamOS.Transition

/- What is asked of an entry: kill names a pid, pid_static does not wrap, and process 1 makes no
   call that blocks. -/
structure QueueGuard (s : Sched) (ev : Event) : Prop where
  kill : Calls ev .kill → ev.regs.ebx ≠ 0
  fork : Calls ev .fork → s.pidStatic + 1 < 4294967296
  idle : ∀ p ∈ s.procs, p.addr = s.current → p.pid = 1 →
    ¬Calls ev .wait ∧ ¬(Calls ev .read ∧ blocksOnStdin ev.regs s p)

instance (s : Sched) (ev : Event) : Decidable (QueueGuard s ev) :=
  decidable_of_iff ((Calls ev .kill → ev.regs.ebx ≠ 0) ∧
      (Calls ev .fork → s.pidStatic + 1 < 4294967296) ∧
      ∀ p ∈ s.procs, p.addr = s.current → p.pid = 1 →
        ¬Calls ev .wait ∧ ¬(Calls ev .read ∧ blocksOnStdin ev.regs s p))
    ⟨fun h => ⟨h.1, h.2.1, h.2.2⟩, fun h => ⟨h.kill, h.fork, h.idle⟩⟩

/- The state in which an entry calls next_process, if it does. -/
def nextCall (s : Sched) (ev : Event) : Option Sched := do
  let u ← enters s ev
  let cur ← u.currentProcess
  if stays u cur then none
  else if cur.status = .zombie then some (schedulerWake cur.pid (tick u))
  else some ((tick u).modify u.current (setRegisters ev.regs))

structure RunQueue (s : Sched) : Prop where
  sane : Sane s
  distinct : Distinct s
  numbered : ∀ p ∈ s.procs, p.pid < s.pidStatic
  bounded : s.pidStatic < 4294967296
  size : s.processQueueSize = s.procs.length
  idle : ∃ p ∈ s.procs, p.pid = 1
  main : ∃ p ∈ s.procs, p.pid = 2
  idleAwake : ∀ p ∈ s.procs, p.pid = 1 → p.status ≠ .waiting

theorem boot_runQueue (c : BootConfig) : RunQueue (boot c) where
  sane := boot_sane c
  distinct := boot_distinct c
  numbered := by simp [boot, bootMain, bootIdle, createProcessControlBlock, setStatus]
  bounded := by simp [boot]
  size := rfl
  idle := ⟨bootIdle c, List.mem_cons_of_mem _ List.mem_cons_self, rfl⟩
  main := ⟨_, List.mem_cons_self, rfl⟩
  idleAwake := fun p hp _ => (boot_awake c p hp).1

theorem RunQueue.length_lt {s : Sched} (h : RunQueue s) : s.procs.length ≤ s.pidStatic :=
  h.distinct.length_le h.numbered

/-! ### Entries that rewrite the list -/

/- An entry that rewrites the listed processes in place, but for one that it may unlink. Process 1
is made WAITING by its own call only. -/
structure Shrinks (s t : Sched) (gone : Option Nat) (F : Pcb → Pcb) : Prop where
  procs : t.procs = (s.procs.filter fun p => decide (gone ≠ some p.addr)).map F
  pid : ∀ p ∈ s.procs, (F p).pid = p.pid
  listed : ∀ a, gone = some a → ∃ p ∈ s.procs, p.addr = a ∧ ¬(p.pid = 1 ∨ p.pid = 2)
  size : t.processQueueSize =
    if gone.isSome then sub32 s.processQueueSize 1 else s.processQueueSize
  pidStatic : t.pidStatic = s.pidStatic
  idle : ∀ p ∈ s.procs, p.pid = 1 → p.status ≠ .waiting → (F p).status ≠ .waiting

section Shrinks
variable {s t : Sched} {gone : Option Nat} {F : Pcb → Pcb}

theorem Shrinks.keeps (hs : Sane s) (h : Shrinks s t gone F) {p : Pcb} (hp : p ∈ s.procs)
    (hpid : p.pid = 1 ∨ p.pid = 2) : F p ∈ t.procs := by
  rw [h.procs]
  refine List.mem_map_of_mem (List.mem_filter.mpr ⟨hp, ?_⟩)
  simp only [ne_eq, decide_not, Bool.not_eq_true', decide_eq_false_iff_not]
  intro hg
  obtain ⟨q, hq, hqa, hqp⟩ := h.listed p.addr hg
  exact hqp (addr_inj hs.listed.nodup hq hp hqa ▸ hpid)

theorem Shrinks.mem (h : Shrinks s t gone F) {q : Pcb} (hq : q ∈ t.procs) :
    ∃ p ∈ s.procs, q = F p := by
  rw [h.procs] at hq
  obtain ⟨p, hp, rfl⟩ := List.mem_map.mp hq
  exact ⟨p, (List.mem_filter.mp hp).1, rfl⟩

theorem Shrinks.size_eq (hr : RunQueue s) (h : Shrinks s t gone F) :
    t.processQueueSize = t.procs.length := by
  have hlen := hr.length_lt
  have hbound := hr.bounded
  rw [h.size, h.procs, List.length_map]
  cases gone with
  | none =>
    rw [List.filter_eq_self.mpr fun p _ => by simp]
    simpa using hr.size
  | some a =>
    obtain ⟨p, hp, rfl, -⟩ := h.listed a rfl
    have hone := length_filter_key hr.sane.listed.nodup hp
    have hsub : sub32 s.processQueueSize 1 = s.processQueueSize - 1 :=
      sub32_eq (by rw [hr.size]; omega) (by rw [hr.size]; omega)
    rw [Option.isSome_some, if_pos rfl, hsub, hr.size]
    omega

theorem Shrinks.runQueue (hr : RunQueue s) (h : Shrinks s t gone F) (hs : Sane t)
    (hd : Distinct t) : RunQueue t where
  sane := hs
  distinct := hd
  numbered := by
    intro q hq
    obtain ⟨p, hp, rfl⟩ := h.mem hq
    rw [h.pid p hp, h.pidStatic]
    exact hr.numbered p hp
  bounded := h.pidStatic ▸ hr.bounded
  size := h.size_eq hr
  idle := by
    obtain ⟨p, hp, hpid⟩ := hr.idle
    exact ⟨F p, h.keeps hr.sane hp (.inl hpid), (h.pid p hp).trans hpid⟩
  main := by
    obtain ⟨p, hp, hpid⟩ := hr.main
    exact ⟨F p, h.keeps hr.sane hp (.inr hpid), (h.pid p hp).trans hpid⟩
  idleAwake := by
    intro q hq hqp
    obtain ⟨p, hp, rfl⟩ := h.mem hq
    have hp1 := (h.pid p hp).symm.trans hqp
    exact h.idle p hp hp1 (hr.idleAwake p hp hp1)

theorem Shrinks.of_map (hp : t.procs = s.procs.map F) (hpid : ∀ p ∈ s.procs, (F p).pid = p.pid)
    (hsize : t.processQueueSize = s.processQueueSize) (hst : t.pidStatic = s.pidStatic)
    (hw : ∀ p ∈ s.procs, (F p).status = .waiting → p.status = .waiting) : Shrinks s t none F where
  procs := by
    rw [hp, List.filter_eq_self.mpr]
    simp
  pid := hpid
  listed := by simp
  size := hsize
  pidStatic := hst
  idle := fun p hp _ hnw h => hnw (hw p hp h)

end Shrinks

/-! ### The effects -/

section Effects
variable {s t u : Sched} {ev : Event}

theorem Quiet.shrinks (h : Quiet s t) : ∃ F, Shrinks s t none F := by
  obtain ⟨f, hp, hf⟩ := h.procs
  refine ⟨f, .of_map hp (fun p _ => by rw [hf p]) h.queueSize h.pidStatic ?_⟩
  intro p _ hw
  rwa [hf p] at hw

theorem removed_shrinks {pid : Nat} {r : Removal} (h : Removed pid s r) :
    ∃ gone F, Shrinks s r.sched gone F := by
  cases h with
  | refused => exact ⟨none, id, .of_map (List.map_id _).symm (fun _ _ => rfl) rfl rfl fun _ _ h => h⟩
  | self =>
    refine ⟨none, _, .of_map rfl (fun p _ => by simp) rfl rfl ?_⟩
    intro p _ hw
    by_cases hpa : p.addr = s.current
    · rw [onAddr_of_eq hpa] at hw
      cases hw
    · rwa [onAddr_of_ne hpa] at hw
  | absent _ _ _ _ _ hf =>
    refine ⟨none, _, .of_map rfl (fun p hp => (hf p hp).pid) rfl rfl ?_⟩
    intro p hp hw
    exact (hf p hp).status ▸ hw
  | @gone cur p f hnp _ _ _ hg hgp hf =>
    refine ⟨some p.addr, f, ?_, fun q hq => (hf q hq).pid, ?_, ?_, rfl, ?_⟩
    · exact congrArg (List.map f) (List.filter_congr fun q _ => by simp [eq_comm])
    · rintro a ⟨⟩
      exact ⟨p, hg, rfl, hgp ▸ hnp⟩
    · rw [Option.isSome_some, if_pos rfl]
    · intro q hq _ hnw hw
      exact hnw ((hf q hq).status ▸ hw)

theorem Interrupted.shrinks (h : Interrupted s t) : Shrinks s t none (interrupted s) := by
  refine .of_map h.procs (fun p _ => by simp) h.queueSize h.pidStatic ?_
  intro p _ hw
  by_cases hf : foreground s = some p.addr
  · rw [interrupted_of hf] at hw
    cases hw
  · rwa [interrupted_of_not hf] at hw

theorem Delivery.shrinks {regs : Registers} {a : Nat} {p : Pcb} (hs : Sane s)
    (h : Delivery s regs a p t) : ∃ F, Shrinks s t none F := by
  refine ⟨_, .of_map h.procs (fun p _ => by simp) h.queueSize h.pidStatic ?_⟩
  intro q hq hw
  rwa [(delivered_asleep hs hq hw).2] at hw

theorem Entered.idle {cur p : Pcb} {f : Pcb → Pcb} (hs : Sane s) (hg : QueueGuard s ev)
    (h : Entered s ev cur f u) (hp : p ∈ s.procs) (hp1 : p.pid = 1) (hw : p.status ≠ .waiting) :
    (onAddr s.current f p).status ≠ .waiting := by
  by_cases hpa : p.addr = s.current
  · rw [onAddr_of_eq hpa]
    obtain rfl := addr_inj hs.listed.nodup hp h.mem (hpa.trans h.addr.symm)
    obtain ⟨hwait, hread⟩ := hg.idle p hp hpa hp1
    cases h.caller with
    | timer | spared => exact hw
    | exit => simp
    | wait hc => exact absurd hc hwait
    | sleep _ _ hne => exact absurd hp1 hne
    | read hc hb => exact absurd ⟨hc, hb⟩ hread
  · rw [onAddr_of_ne hpa]
    exact hw

theorem releases_isSome {procs : List Pcb} {rel : Option Pcb} {gone : Option Nat}
    (h : Releases procs rel gone) : rel.isSome = gone.isSome := by
  cases h with
  | inl h => rw [h.1, h.2]; rfl
  | inr h =>
    obtain ⟨_, _, _, hrel, hgone, -⟩ := h
    rw [hrel, hgone]
    rfl

theorem schedule_shrinks {out : Outcome} (hs : Sane s) (hg : QueueGuard s ev)
    (he : enters s ev = some u) (h : updateScheduler ev.env.dyingParent ev.regs u = some out)
    (hsize : u.processQueueSize = s.processQueueSize) :
    ∃ gone F, Shrinks s out.sched gone F := by
  obtain ⟨cur, f, hent⟩ := enters_spec hs.listed he
  have hlu := hent.listed hs.listed
  obtain ⟨hround, hrest⟩ := updateScheduler_round hlu h
  obtain ⟨gone, F, hps, hF, hgone, hrel, -⟩ := round_moved hlu hround
  have hk := hent.caller.keeps
  have haddr : ∀ p, (onAddr s.current f p).addr = p.addr :=
    onAddr_field Pcb.addr f hk.addr s.current
  have hpid : ∀ p, (onAddr s.current f p).pid = p.pid := onAddr_field Pcb.pid f hk.pid s.current
  have hin : ∀ p ∈ s.procs, onAddr s.current f p ∈ u.procs :=
    fun p hp => hent.procs ▸ List.mem_map_of_mem hp
  refine ⟨gone, F ∘ onAddr s.current f, ?_, ?_, ?_, ?_, ?_, ?_⟩
  · rw [hps, hent.procs, List.filter_map, List.map_map]
    congr 1
    exact List.filter_congr fun p _ => by simp [haddr p]
  · exact fun p hp => (hF _ (hin p hp)).pid.trans (hpid p)
  · intro a ha
    obtain ⟨d, hd, _, _, hd12, q, hq, hqa, hqp⟩ := hgone a ha
    rw [hent.procs] at hq
    obtain ⟨p, hp, rfl⟩ := List.mem_map.mp hq
    rw [haddr] at hqa
    rw [hpid] at hqp
    exact ⟨p, hp, hqa, hqp ▸ hd12⟩
  · rw [updateScheduler_size hlu h, releases_isSome hrel, hsize]
  · exact hrest.pidStatic.trans hent.pidStatic
  · intro p hp hp1 hw hwq
    exact hent.idle hs hg hp hp1 hw ((hF _ (hin p hp)).asleep hwq).1

theorem fork_runQueue {child : Pcb} (hr : RunQueue s) (hg : s.pidStatic + 1 < 4294967296)
    (hc : Child s ev child) (hp : t.procs = s.procs ++ [child])
    (hst : t.pidStatic = wrap (s.pidStatic + 1))
    (hsize : t.processQueueSize = wrap (s.processQueueSize + 1)) (hs : Sane t) (hd : Distinct t) :
    RunQueue t where
  sane := hs
  distinct := hd
  numbered := by
    intro p hpm
    rw [hst, wrap_eq hg]
    rw [hp] at hpm
    cases List.mem_append.mp hpm with
    | inl h => exact Nat.lt_succ_of_lt (hr.numbered p h)
    | inr h =>
      rw [List.mem_singleton.mp h, hc.pid]
      exact Nat.lt_succ_self _
  bounded := hst ▸ wrap_lt _
  size := by
    have hlen := hr.length_lt
    rw [hsize, hp, hr.size, List.length_append, List.length_singleton]
    exact wrap_eq (by omega)
  idle := by
    obtain ⟨p, hpm, hpid⟩ := hr.idle
    exact ⟨p, hp ▸ List.mem_append_left _ hpm, hpid⟩
  main := by
    obtain ⟨p, hpm, hpid⟩ := hr.main
    exact ⟨p, hp ▸ List.mem_append_left _ hpm, hpid⟩
  idleAwake := by
    intro p hpm hp1
    rw [hp] at hpm
    cases List.mem_append.mp hpm with
    | inl h => exact hr.idleAwake p h hp1
    | inr h =>
      rw [List.mem_singleton.mp h, hc.status]
      decide

theorem enters_size (he : enters s ev = some u) : u.processQueueSize = s.processQueueSize := by
  obtain ⟨cur, hcur, h⟩ := Option.bind_eq_some_iff.mp he
  split at h
  · cases h; rfl
  · cases h
  · split at h
    · split at h <;> (cases h; rfl)
    · cases h; rfl
    · split at h <;> cases h
      rfl
    · split at h <;> cases h
      rfl
    · cases h

theorem step_runQueue (hr : RunQueue s) (hg : QueueGuard s ev) (h : step s ev = some t) :
    RunQueue t := by
  have hs := step_sane hr.sane h
  have hfresh : FreshPid s ev := fun _ p hp => Nat.ne_of_lt (hr.numbered p hp)
  have hd := step_distinct hr.sane hr.distinct hfresh h
  obtain ⟨_, _, heff⟩ := step_effect hr.sane.listed h
  cases heff with
  | quiet hq =>
    obtain ⟨F, hF⟩ := hq.shrinks
    exact hF.runQueue hr hs hd
  | schedule he hu =>
    obtain ⟨gone, F, hF⟩ := schedule_shrinks hr.sane hg he hu (enters_size he)
    exact hF.runQueue hr hs hd
  | fork hcall hc hp _ _ _ hst _ hsize =>
    exact fork_runQueue hr (hg.fork hcall) hc hp hst hsize hs hd
  | kill _ hrem =>
    obtain ⟨gone, F, hF⟩ := removed_shrinks hrem
    exact hF.runQueue hr hs hd
  | interrupt _ _ hi =>
    cases sigintForeground_cases hr.sane.listed hi with
    | inl hq =>
      obtain ⟨F, hF⟩ := hq.shrinks
      exact hF.runQueue hr hs hd
    | inr hi => exact hi.shrinks.runQueue hr hs hd
  | @wake _ scancode focused _ hq hw =>
    cases stdinWakeProcess_cases (hq.sane hr.sane).listed hw with
    | inl he =>
      rw [he] at hs hd ⊢
      obtain ⟨F, hF⟩ := hq.shrinks
      exact hF.runQueue hr hs hd
    | inr hdel =>
      -- the character is typed first, then delivered
      obtain ⟨a, p, hdel⟩ := hdel
      obtain ⟨G, hG⟩ := hq.shrinks
      have hsu := hq.sane hr.sane
      have hdu : Distinct (handleInput scancode focused s) := by
        rw [Distinct, handleInput_procs]
        exact hr.distinct
      obtain ⟨F, hF⟩ := hdel.shrinks hsu
      exact hF.runQueue (hG.runQueue hr hsu hdu) hs hd

end Effects

/-! ### update_scheduler returns -/

section Returns
variable {s : Sched} {pid : Nat}

theorem schedulerRemove_some (hl : Listed s) (g pid : Nat) :
    ∃ r, schedulerRemove g pid s = some r := by
  obtain ⟨cur, -, -, hcur⟩ := currentProcess_eq hl
  simp only [schedulerRemove, hcur, Option.bind_eq_bind, Option.bind_some, Option.pure_def]
  split
  · exact ⟨_, rfl⟩
  split
  · exact ⟨_, rfl⟩
  split <;> exact ⟨_, rfl⟩

theorem removed_current {r : Removal} (hl : Listed s) (h : Removed pid s r) :
    ∃ p ∈ r.sched.procs, p.addr = r.sched.current := by
  obtain ⟨c, hc, hca⟩ := hl.current
  cases h with
  | refused => exact ⟨c, hc, hca⟩
  | self => exact ⟨_, List.mem_map_of_mem hc, by simpa using hca⟩
  | absent _ _ _ _ _ hf => exact ⟨_, List.mem_map_of_mem hc, by rw [(hf c hc).addr, hca]⟩
  | @gone cur p f _ hcm ha hne hp hpp hf =>
    refine ⟨f c, List.mem_map_of_mem (List.mem_filter.mpr ⟨hc, ?_⟩), by rw [(hf c hc).addr, hca]⟩
    have hcc := addr_inj hl.nodup hc hcm (hca.trans ha.symm)
    have hcp : c.addr ≠ p.addr := by
      intro he
      rw [addr_inj hl.nodup hc hp he] at hcc
      exact hne (hcc ▸ hpp)
    simpa using hcp

theorem currentProcess_some (h : ∃ p ∈ s.procs, p.addr = s.current) :
    ∃ p, s.currentProcess = some p := by
  obtain ⟨p, hp, ha⟩ := h
  exact Option.isSome_iff_exists.mp (List.find?_isSome.mpr ⟨p, hp, decide_eq_true ha⟩)

theorem current_modify {a : Nat} {f : Pcb → Pcb} (hf : ∀ p, (f p).addr = p.addr)
    (h : ∃ p ∈ s.procs, p.addr = s.current) :
    ∃ p ∈ (s.modify a f).procs, p.addr = (s.modify a f).current := by
  obtain ⟨p, hp, ha⟩ := h
  exact ⟨_, List.mem_map_of_mem hp, (onAddr_field Pcb.addr f hf a p).trans ha⟩

theorem resume_some (h : ∃ p ∈ s.procs, p.addr = s.current) : ∃ r, resume s = some r := by
  obtain ⟨q, hq⟩ := currentProcess_some (current_modify (a := s.current) (f := setStatus .running)
    (fun _ => rfl) h)
  exact ⟨_, Option.bind_eq_some_iff.mpr ⟨q, hq, rfl⟩⟩

structure OneAwake (s : Sched) : Prop where
  listed : Listed s
  size : s.processQueueSize = s.procs.length
  awake : ∃ p ∈ s.procs, (decrementWait p).status ≠ .waiting

theorem OneAwake.next_dead (h : OneAwake s) (pid : Nat) :
    Listed (schedulerWake pid (tick s)) ∧ ∃ n, nextProcess (schedulerWake pid (tick s)) = some n := by
  have hlt := tick_listed h.listed
  have hlw := schedulerWake_listed hlt pid
  obtain ⟨p, hp, hw⟩ := h.awake
  have hmem : wakeFirst pid (tick s).procs (decrementWait p) ∈ (schedulerWake pid (tick s)).procs := by
    rw [schedulerWake_procs hlt.nodup]
    exact List.mem_map_of_mem (List.mem_map_of_mem hp)
  refine ⟨hlw, nextProcess_some hlw.nodup hlw.current ?_ hmem ?_⟩
  · rw [schedulerWake_procs hlt.nodup, List.length_map, tick, List.length_map]
    exact h.size
  · by_cases hf : firstWaiter pid (tick s).procs = some (decrementWait p).addr
    · rw [wakeFirst_of_first hf]
      simp
    · rwa [wakeFirst_of_not hf]

/-- A live process keeps its frame and its place in the list. -/
theorem OneAwake.next_live (h : OneAwake s) (regs : Registers) :
    Listed ((tick s).modify s.current (setRegisters regs)) ∧
      ∃ n, nextProcess ((tick s).modify s.current (setRegisters regs)) = some n := by
  have hlt := tick_listed h.listed
  have hkeep : ∀ p, (onAddr s.current (setRegisters regs) p).addr = p.addr :=
    onAddr_setRegisters_addr s.current regs
  obtain ⟨d, hd, hda⟩ := hlt.current
  have hlm : Listed ((tick s).modify s.current (setRegisters regs)) :=
    ⟨nodup_map hkeep hlt.nodup, ⟨_, List.mem_map_of_mem hd, (hkeep d).trans hda⟩, hlt.enabled⟩
  obtain ⟨p, hp, hw⟩ := h.awake
  refine ⟨hlm, nextProcess_some hlm.nodup hlm.current ?_
    (List.mem_map_of_mem (List.mem_map_of_mem hp)) ?_⟩
  · rw [modify_procs, List.length_map, tick, List.length_map]
    exact h.size
  · rwa [onAddr_setRegisters_status]

/-- update_scheduler returns as long as one process is awake after the tick. -/
theorem OneAwake.returns (h : OneAwake s) (g : Nat) (regs : Registers) :
    ∃ out, updateScheduler g regs s = some out := by
  obtain ⟨cur, hc, ha, -⟩ := currentProcess_eq h.listed
  rw [updateScheduler_eq h.listed hc ha]
  by_cases hstay : stays s cur = true
  · exact ⟨_, if_pos hstay⟩
  rw [if_neg hstay]
  have hsw : ∃ t rel, switchAway g regs (decrementWait cur) (tick s) = some (t, rel) ∧
      ∃ q ∈ t.procs, q.addr = t.current := by
    by_cases hz : (decrementWait cur).status = .zombie
    · obtain ⟨hlw, n, hn⟩ := h.next_dead (decrementWait cur).pid
      obtain ⟨q, hq, -, rfl, -⟩ := nextProcess_spec hlw.nodup hn
      have hln : Listed { schedulerWake (decrementWait cur).pid (tick s) with current := q.addr } :=
        ⟨hlw.nodup, ⟨q, hq, rfl⟩, hlw.enabled⟩
      obtain ⟨r, hr⟩ := schedulerRemove_some hln g (decrementWait cur).pid
      refine ⟨r.sched, r.released, ?_, removed_current hln (schedulerRemove_cases hln hr)⟩
      simp only [switchAway, if_pos hz, hn, Option.bind_eq_bind, Option.bind_some, hr]
      rfl
    · obtain ⟨hlm, n, hn⟩ := h.next_live regs
      obtain ⟨q, hq, -, rfl, -⟩ := nextProcess_spec hlm.nodup hn
      refine ⟨{ (tick s).modify s.current (setRegisters regs) with current := q.addr }, none,
        ?_, q, hq, rfl⟩
      rw [switchAway, if_neg hz]
      exact Option.bind_eq_some_iff.mpr ⟨_, hn, rfl⟩
  obtain ⟨t, rel, hsw, hcur⟩ := hsw
  obtain ⟨r, hr⟩ := resume_some hcur
  exact ⟨_, by rw [hsw, Option.bind_some, hr]; rfl⟩

end Returns

/-- Process 1 is awake wherever an entry calls update_scheduler. -/
theorem RunQueue.oneAwake {s u : Sched} {ev : Event} (hr : RunQueue s) (hg : QueueGuard s ev)
    (hu : enters s ev = some u) : OneAwake u := by
  obtain ⟨c, f, hent⟩ := enters_spec hr.sane.listed hu
  refine ⟨hent.listed hr.sane.listed, ?_, ?_⟩
  · rw [enters_size hu, hent.procs, List.length_map]
    exact hr.size
  · obtain ⟨p, hp, hp1⟩ := hr.idle
    refine ⟨onAddr s.current f p, hent.procs ▸ List.mem_map_of_mem hp, fun hw => ?_⟩
    exact hent.idle hr.sane hg hp hp1 (hr.idleAwake p hp hp1) (decrementWait_waiting.mp hw).1

/-- Wherever an entry calls next_process, process 1 is there to be chosen. -/
theorem RunQueue.next {s n : Sched} {ev : Event} (hr : RunQueue s) (hg : QueueGuard s ev)
    (h : nextCall s ev = some n) : ∃ t, nextProcess n = some t := by
  obtain ⟨u, hu, h1⟩ := Option.bind_eq_some_iff.mp h
  obtain ⟨cur, hcur, h2⟩ := Option.bind_eq_some_iff.mp h1
  have hone := hr.oneAwake hg hu
  split at h2
  · cases h2
  split at h2
  · cases h2
    exact (hone.next_dead cur.pid).2
  · cases h2
    exact (hone.next_live ev.regs).2

end AdamOS.Lifecycle
