import AdamOS.Kernel.Waiting

/-! The one-slot wait queue of stdin.c over whole runs. The process in the slot stays blocked in
its read as long as nothing but a key press ends the wait; it is the only one so blocked as long
as nobody reads while the slot is taken. -/
namespace AdamOS.Lifecycle
open AdamOS.Process AdamOS.Scheduler AdamOS.ListUpdate AdamOS.Word AdamOS.Transition

def queued (s : Sched) : Option Nat := s.stdin.waitQueue.process

def SlotReads (s : Sched) : Prop :=
  ∀ a, queued s = some a → ∃ p ∈ s.procs, p.addr = a ∧ blockedIn .read p

def OnlySlot (s : Sched) : Prop := ∀ p ∈ s.procs, blockedIn .read p → queued s = some p.addr

/- The processes blocked in a read of standard input are exactly the one in the slot. -/
structure SlotExact (s : Sched) : Prop where
  blocked : ∀ p ∈ s.procs, blockedIn .read p ↔ queued s = some p.addr
  listed : ∀ a, queued s = some a → ∃ p ∈ s.procs, p.addr = a ∧ p.status = .waiting

def ReadsLive (s : Sched) (ev : Event) : Prop :=
  Calls ev .read → ∀ p ∈ s.procs, p.addr = s.current → blocksOnStdin ev.regs s p →
    p.status ≠ .zombie

def ReadsAlone (s : Sched) (ev : Event) : Prop :=
  Calls ev .read → ∀ p ∈ s.procs, p.addr = s.current → blocksOnStdin ev.regs s p →
    queued s = none

def KillsNoReader (s : Sched) (ev : Event) : Prop :=
  Calls ev .kill → ¬(ev.regs.ebx = 1 ∨ ev.regs.ebx = 2) →
    (∀ p ∈ s.procs, p.addr = s.current → p.pid ≠ ev.regs.ebx) →
    ∀ p ∈ s.procs, queued s = some p.addr → p.pid ≠ ev.regs.ebx

/- update_scheduler wakes the process in the slot neither by its tick nor by scheduler_wake. -/
def SlotUndisturbed (u : Sched) : Prop :=
  ∀ p ∈ u.procs, queued u = some p.addr → p.sleepTicks ≠ 1 ∧ ¬WokenFor u p

def SlotGuard (s : Sched) (ev : Event) : Prop :=
  FreshPid s ev ∧ ReadsLive s ev ∧ KillsNoReader s ev ∧ OnEntry SlotUndisturbed s ev

def ReadGuard (s : Sched) (ev : Event) : Prop := SlotGuard s ev ∧ ReadsAlone s ev

instance (s : Sched) (ev : Event) : Decidable (ReadsLive s ev) :=
  inferInstanceAs (Decidable (_ → _))

instance (s : Sched) (ev : Event) : Decidable (ReadsAlone s ev) :=
  inferInstanceAs (Decidable (_ → _))

instance (s : Sched) (ev : Event) : Decidable (KillsNoReader s ev) :=
  inferInstanceAs (Decidable (_ → _))

instance (u : Sched) : Decidable (SlotUndisturbed u) :=
  inferInstanceAs (Decidable (∀ p ∈ u.procs, _ → _))

instance (s : Sched) (ev : Event) : Decidable (SlotGuard s ev) :=
  inferInstanceAs (Decidable (_ ∧ _))

instance (s : Sched) (ev : Event) : Decidable (ReadGuard s ev) :=
  inferInstanceAs (Decidable (_ ∧ _))

theorem boot_slotReads (c : BootConfig) : SlotReads (boot c) := fun _ ha => by cases ha

theorem boot_onlySlot (c : BootConfig) : OnlySlot (boot c) :=
  fun p hp hb => absurd hb.1 (boot_awake c p hp).1

theorem slotExact_of {s : Sched} (hs : Sane s) (hr : SlotReads s) (ho : OnlySlot s) :
    SlotExact s where
  blocked := by
    intro p hp
    refine ⟨ho p hp, fun hq => ?_⟩
    obtain ⟨r, hrm, hra, hb⟩ := hr _ hq
    rwa [addr_inj hs.listed.nodup hp hrm hra.symm]
  listed := by
    intro a ha
    obtain ⟨p, hp, hpa, hb⟩ := hr a ha
    exact ⟨p, hp, hpa, hb.1⟩

section Step
variable {s t u : Sched} {ev : Event}

/-! ### The process in the slot -/

/-- A change that keeps the slot and the process in it keeps the slot's read. -/
theorem SlotReads.of_map {F : Pcb → Pcb} {keep : Pcb → Bool} (hi : SlotReads s)
    (hp : t.procs = (s.procs.filter keep).map F) (hs : queued t = queued s)
    (hk : ∀ p ∈ s.procs, queued s = some p.addr → blockedIn .read p →
      keep p ∧ (F p).addr = p.addr ∧ blockedIn .read (F p)) : SlotReads t := by
  rw [SlotReads, hp, hs]
  intro a ha
  obtain ⟨p, hpm, hpa, hb⟩ := hi a ha
  obtain ⟨hkeep, haddr, hb'⟩ := hk p hpm (hpa ▸ ha) hb
  exact ⟨F p, List.mem_map_of_mem (List.mem_filter.mpr ⟨hpm, hkeep⟩), haddr.trans hpa, hb'⟩

/-- On entry to update_scheduler the slot names a process that is blocked or blocking. -/
theorem entered_slotReads {cur : Pcb} {f : Pcb → Pcb} (hs : Sane s) (hi : SlotReads s)
    (hg : ReadsLive s ev) (h : Entered s ev cur f u) {a : Nat} (ha : queued u = some a) :
    ∃ p ∈ u.procs, p.addr = a ∧ p.status = .waiting ∧
      Syscall.ofNumber (frame u ev.regs p).eax = some .read := by
  by_cases hc : Calls ev .read
  · rw [queued, h.slot, if_pos hc] at ha
    have haddr : (f cur).addr = s.current := (h.caller.keeps.addr cur).trans h.addr
    have hz : cur.status ≠ .zombie := hg hc cur h.mem h.addr (h.caller.blocks hc)
    refine ⟨f cur, (h.mem_iff hs.listed).mpr (.inl rfl), haddr.trans (Option.some.inj ha), ?_, ?_⟩
    · rw [h.caller.of_call.2.2 hc, blockStatus_status, if_neg hz]
    · rw [frame, if_pos (haddr.trans h.current.symm)]
      exact hc.2
  · rw [queued, h.slot, if_neg hc] at ha
    obtain ⟨p, hp, hpa, hb⟩ := hi a ha
    have hne : p.addr ≠ s.current := fun he => hs.awake p hp he hb.1
    refine ⟨p, (h.mem_iff hs.listed).mpr (.inr ⟨hp, hne⟩), hpa, hb.1, ?_⟩
    rw [frame, if_neg (h.current ▸ hne)]
    exact hb.2

theorem schedule_slotReads {out : Outcome} (hs : Sane s) (hd : Distinct s) (hi : SlotReads s)
    (hg : SlotGuard s ev) (he : enters s ev = some u)
    (h : updateScheduler ev.env.dyingParent ev.regs u = some out) : SlotReads out.sched := by
  obtain ⟨cur, f, hent⟩ := enters_spec hs.listed he
  have hlu := hent.listed hs.listed
  obtain ⟨hround, hrest⟩ := updateScheduler_round hlu h
  obtain ⟨gone, F, hps, hF, hgone, -⟩ := round_moved hlu hround
  have hslot : queued out.sched = queued u := congrArg (·.waitQueue.process) hrest.stdin
  rw [SlotReads, hps, hslot]
  intro a ha
  obtain ⟨p, hp, hpa, hpw, hn⟩ := entered_slotReads hs hi hg.2.1 hent ha
  obtain ⟨ht, hwoken⟩ := hg.2.2.2 u he p hp (hpa ▸ ha)
  have hm := hF p hp
  have hkept : gone ≠ some p.addr := by
    intro hgp
    obtain ⟨d, hdm, hda, hdz, -, g, hgm, hga, hgd⟩ := hgone _ hgp
    have hpg : p = g := addr_inj hlu.nodup hp hgm hga.symm
    have hpd : p = d := hpg.trans (pid_inj (hent.distinct hd) hgm hdm hgd)
    rw [hpd, hdz] at hpw
    cases hpw
  have hw : (F p).status = .waiting := by
    by_contra hne
    cases (hm.roused hpw hne).1 with
    | inl h1 => exact ht h1
    | inr h1 => exact hwoken h1
  refine ⟨F p, List.mem_map_of_mem (List.mem_filter.mpr ⟨hp, by simpa using hkept⟩),
    hm.addr.trans hpa, hw, ?_⟩
  rw [(hm.asleep hw).2.2.2.2]
  exact hn

theorem Quiet.slotReads (hi : SlotReads s) (h : Quiet s t) : SlotReads t := by
  obtain ⟨f, hp, hf⟩ := h.procs
  refine hi.of_map (by rw [filter_all, hp]) (congrArg (·.process) h.slot) fun p _ _ hb => ?_
  rw [hf p]
  exact ⟨rfl, rfl, hb⟩

theorem fork_slotReads {child : Pcb} (hi : SlotReads s) (hp : t.procs = s.procs ++ [child])
    (hst : t.stdin = s.stdin) : SlotReads t := by
  rw [SlotReads, hp, show queued t = queued s from congrArg (·.waitQueue.process) hst]
  intro a ha
  obtain ⟨p, hpm, h⟩ := hi a ha
  exact ⟨p, List.mem_append_left _ hpm, h⟩

theorem kill_slotReads {r : Removal} (hs : Sane s) (hi : SlotReads s) (hg : KillsNoReader s ev)
    (hc : Calls ev .kill) (h : Removed ev.regs.ebx s r) : SlotReads r.sched := by
  have hsame : ∀ {d : Nat} {p q : Pcb}, Handed d s.procs p q → blockedIn .read p →
      blockedIn .read q := by
    intro d p q h hb
    rwa [blockedIn, h.status, h.registers]
  cases h with
  | refused => exact hi
  | self =>
    refine hi.of_map (by rw [filter_all]) rfl fun p hpm _ hb => ?_
    rw [onAddr_of_ne fun hpa => hs.awake p hpm hpa hb.1]
    exact ⟨rfl, rfl, hb⟩
  | absent _ _ _ _ _ hf =>
    exact hi.of_map (by rw [filter_all]) rfl fun p hp _ hb =>
      ⟨rfl, (hf p hp).addr, hsame (hf p hp) hb⟩
  | @gone cur g f hp hcm ha hpid hgm hgp hf =>
    refine hi.of_map rfl rfl fun p hpm hq hb => ⟨?_, (hf p hpm).addr, hsame (hf p hpm) hb⟩
    have hcur : ∀ c ∈ s.procs, c.addr = s.current → c.pid ≠ ev.regs.ebx :=
      hs.listed.current_of_mem hcm ha hpid
    have hne : p.addr ≠ g.addr := by
      intro he
      refine hg hc hp hcur p hpm hq ?_
      rw [addr_inj hs.listed.nodup hpm hgm he]
      exact hgp
    simpa using hne

/-- Ctrl+C empties the slot if and only if it kills the process in it. -/
theorem Interrupted.queued_iff (hs : Sane s) (h : Interrupted s t) {p : Pcb} (hp : p ∈ s.procs)
    (hq : queued s = some p.addr) :
    (queued t = none ∧ p.pid = s.foregroundPid) ∨
      (queued t = queued s ∧ p.pid ≠ s.foregroundPid) := by
  have hown : slotIsForeground s = some (decide (p.pid = s.foregroundPid)) := by
    rw [queued] at hq
    simp only [slotIsForeground, hq, Sched.deref_of_mem hs.listed.nodup hp, Option.map_some]
  cases h.slot with
  | inl hcl => exact .inl ⟨hcl.1, by simpa using hown.symm.trans hcl.2⟩
  | inr hcl => exact .inr ⟨hcl.1, by simpa using hown.symm.trans hcl.2⟩

theorem Interrupted.slotReads (hs : Sane s) (hi : SlotReads s) (h : Interrupted s t) :
    SlotReads t := by
  cases hq : queued s with
  | none =>
    have : queued t = none := by
      cases h.slot with
      | inl hcl => exact hcl.1
      | inr hcl => exact hcl.1.trans hq
    intro a ha
    rw [this] at ha
    cases ha
  | some b =>
    obtain ⟨w, hw, hwb, -⟩ := hi b hq
    cases h.queued_iff hs hw (hwb ▸ hq) with
    | inl hcl =>
      intro a ha
      rw [hcl.1] at ha
      cases ha
    | inr hcl =>
      refine hi.of_map (by rw [filter_all, h.procs]) hcl.1 fun p hp hqp hb => ?_
      have hpw : p = w := addr_inj hs.listed.nodup hp hw
        (Option.some.inj (hqp.symm.trans (hwb ▸ hq)))
      have hnf : foreground s ≠ some p.addr := by
        intro hf
        obtain ⟨x, hx, hxa, hxp⟩ := firstKey_mem hf
        rw [addr_inj hs.listed.nodup hx hp hxa, hpw] at hxp
        exact hcl.2 (by simpa using hxp)
      rw [interrupted_of_not hnf]
      exact ⟨rfl, rfl, hb⟩

theorem Delivery.slotReads {regs : Registers} {a : Nat} {w : Pcb} (h : Delivery s regs a w t) :
    SlotReads t := by
  intro b hb
  rw [queued, h.cleared] at hb
  cases hb

theorem step_slotReads (hs : Sane s) (hd : Distinct s) (hi : SlotReads s) (hg : SlotGuard s ev)
    (h : step s ev = some t) : SlotReads t := by
  obtain ⟨_, _, heff⟩ := step_effect hs.listed h
  cases heff with
  | quiet hq => exact hq.slotReads hi
  | schedule he hu => exact schedule_slotReads hs hd hi hg he hu
  | fork _ _ hp _ hst => exact fork_slotReads hi hp hst
  | kill hc hr => exact kill_slotReads hs hi hg.2.2.1 hc hr
  | interrupt _ _ hint =>
    cases sigintForeground_cases hs.listed hint with
    | inl hq => exact hq.slotReads hi
    | inr hint => exact hint.slotReads hs hi
  | wake _ hq hw =>
    cases stdinWakeProcess_cases (hq.sane hs).listed hw with
    | inl he => exact he ▸ hq.slotReads hi
    | inr hdel =>
      obtain ⟨a, p, hdel⟩ := hdel
      exact hdel.slotReads

/-! ### No other reader -/

theorem OnlySlot.of_map {F : Pcb → Pcb} {keep : Pcb → Bool} (hi : OnlySlot s)
    (hp : t.procs = (s.procs.filter keep).map F)
    (hk : ∀ p ∈ s.procs, blockedIn .read (F p) →
      (F p).addr = p.addr ∧ blockedIn .read p ∧ (queued s = some p.addr → queued t = queued s)) :
    OnlySlot t := by
  rw [OnlySlot, hp]
  intro q hq hb
  obtain ⟨p, hpf, rfl⟩ := List.mem_map.mp hq
  have hpm := (List.mem_filter.mp hpf).1
  obtain ⟨ha, hb', hqt⟩ := hk p hpm hb
  rw [hqt (hi p hpm hb'), ha]
  exact hi p hpm hb'

/-- On entry to update_scheduler whoever is blocked in a read is in the slot. -/
theorem Entered.onlySlot {cur p : Pcb} {f : Pcb → Pcb} (hs : Sane s) (hi : OnlySlot s)
    (hg : ReadsAlone s ev) (h : Entered s ev cur f u) (hp : p ∈ u.procs) (hw : p.status = .waiting)
    (hn : Syscall.ofNumber (frame u ev.regs p).eax = some .read) : queued u = some p.addr := by
  rw [queued, h.slot]
  cases h.reason hs hp hw with
  | inl hr =>
    obtain ⟨hps, _, hfr⟩ := hr
    rw [hfr] at hn
    have hqs := hi p hps ⟨hw, hn⟩
    have hc : ¬Calls ev .read := by
      intro hc
      rw [hg hc cur h.mem h.addr (h.caller.blocks hc)] at hqs
      cases hqs
    rw [if_neg hc]
    exact hqs
  | inr hr =>
    obtain ⟨hpc, hfr, hcall⟩ := hr
    rw [hfr] at hn
    have hentry : ev.entry = .syscall := by
      cases hcall with
      | inl hc => exact hc.1
      | inr hc => cases hc with
        | inl hc => exact hc.1
        | inr hc => exact hc.1
    rw [if_pos ⟨hentry, hn⟩, hpc, h.caller.keeps.addr, h.addr]

theorem schedule_onlySlot {out : Outcome} (hs : Sane s) (hi : OnlySlot s)
    (hg : ReadsAlone s ev) (he : enters s ev = some u)
    (h : updateScheduler ev.env.dyingParent ev.regs u = some out) : OnlySlot out.sched := by
  obtain ⟨cur, f, hent⟩ := enters_spec hs.listed he
  have hlu := hent.listed hs.listed
  obtain ⟨hround, hrest⟩ := updateScheduler_round hlu h
  have hslot : queued out.sched = queued u := congrArg (·.waitQueue.process) hrest.stdin
  intro q hq hb
  obtain ⟨p, hp, hm⟩ := round_asleep hlu hround hq
  obtain ⟨hpw, -, -, -, hreg⟩ := hm.asleep hb.1
  have hn := hb.2
  rw [hreg] at hn
  rw [hslot, hm.addr]
  exact hent.onlySlot hs hi hg hp hpw hn

theorem Quiet.onlySlot (hi : OnlySlot s) (h : Quiet s t) : OnlySlot t := by
  obtain ⟨f, hp, hf⟩ := h.procs
  refine hi.of_map (by rw [filter_all, hp]) fun p _ hb => ?_
  rw [hf p] at hb ⊢
  exact ⟨rfl, hb, fun _ => congrArg (·.process) h.slot⟩

theorem fork_onlySlot {child : Pcb} (hi : OnlySlot s) (hc : Child s ev child)
    (hp : t.procs = s.procs ++ [child]) (hst : t.stdin = s.stdin) : OnlySlot t := by
  rw [OnlySlot, hp, show queued t = queued s from congrArg (·.waitQueue.process) hst]
  intro p hpm hb
  cases List.mem_append.mp hpm with
  | inl h => exact hi p h hb
  | inr h =>
    have hw := hb.1
    rw [List.mem_singleton.mp h, hc.status] at hw
    cases hw

theorem kill_onlySlot {r : Removal} {pid : Nat} (hi : OnlySlot s) (h : Removed pid s r) :
    OnlySlot r.sched := by
  have hsame : ∀ {d : Nat} {p q : Pcb}, Handed d s.procs p q → blockedIn .read q →
      blockedIn .read p := by
    intro d p q h hb
    rwa [blockedIn, h.status, h.registers] at hb
  cases h with
  | refused => exact hi
  | self =>
    refine hi.of_map (by rw [filter_all]) fun p _ hb => ?_
    by_cases hpa : p.addr = s.current
    · rw [onAddr_of_eq hpa] at hb
      cases hb.1
    · rw [onAddr_of_ne hpa] at hb ⊢
      exact ⟨rfl, hb, fun _ => rfl⟩
  | absent _ _ _ _ _ hf =>
    exact hi.of_map (by rw [filter_all]) fun p hp hb =>
      ⟨(hf p hp).addr, hsame (hf p hp) hb, fun _ => rfl⟩
  | gone _ _ _ _ _ _ hf =>
    exact hi.of_map rfl fun p hp hb => ⟨(hf p hp).addr, hsame (hf p hp) hb, fun _ => rfl⟩

theorem Interrupted.onlySlot (hs : Sane s) (hd : Distinct s) (hi : OnlySlot s)
    (h : Interrupted s t) : OnlySlot t := by
  refine hi.of_map (by rw [filter_all, h.procs]) fun p hp hb => ?_
  have hnf : foreground s ≠ some p.addr := by
    intro hf
    rw [interrupted_of hf] at hb
    cases hb.1
  rw [interrupted_of_not hnf] at hb ⊢
  refine ⟨rfl, hb, fun hq => ?_⟩
  cases h.queued_iff hs hp hq with
  | inr hcl => exact hcl.1
  | inl hcl =>
    -- pids being distinct, the process found first is the one in the slot
    refine absurd ?_ hnf
    cases hf : s.procs.find? fun p => decide (p.pid = s.foregroundPid) with
    | none => exact absurd hcl.2 (by simpa using List.find?_eq_none.mp hf p hp)
    | some x =>
      have hxp : x.pid = s.foregroundPid := by simpa using List.find?_some hf
      have hxe := pid_inj hd (List.mem_of_find?_eq_some hf) hp (hxp.trans hcl.2.symm)
      rw [foreground, firstKey, hf, hxe]
      rfl

theorem Delivery.onlySlot {regs : Registers} {a : Nat} {w : Pcb} (hs : Sane s)
    (hi : OnlySlot s) (h : Delivery s regs a w t) : OnlySlot t := by
  refine hi.of_map (by rw [filter_all, h.procs]) fun p hp hb => ?_
  obtain ⟨hpa, he⟩ := delivered_asleep hs hp hb.1
  rw [he] at hb ⊢
  refine ⟨rfl, hb, fun hq => ?_⟩
  rw [queued, h.slot] at hq
  exact absurd (Option.some.inj hq).symm hpa

theorem step_onlySlot (hs : Sane s) (hd : Distinct s) (hi : OnlySlot s) (hg : ReadsAlone s ev)
    (h : step s ev = some t) : OnlySlot t := by
  obtain ⟨_, _, heff⟩ := step_effect hs.listed h
  cases heff with
  | quiet hq => exact hq.onlySlot hi
  | schedule he hu => exact schedule_onlySlot hs hi hg he hu
  | fork _ hc hp _ hst => exact fork_onlySlot hi hc hp hst
  | kill hc hr => exact kill_onlySlot hi hr
  | interrupt _ _ hint =>
    cases sigintForeground_cases hs.listed hint with
    | inl hq => exact hq.onlySlot hi
    | inr hint => exact hint.onlySlot hs hd hi
  | wake _ hq hw =>
    cases stdinWakeProcess_cases (hq.sane hs).listed hw with
    | inl he => exact he ▸ hq.onlySlot hi
    | inr hdel =>
      obtain ⟨a, p, hdel⟩ := hdel
      exact hdel.onlySlot (hq.sane hs) (hq.onlySlot hi)

end Step

structure SlotInv (s : Sched) : Prop where
  sane : Sane s
  distinct : Distinct s
  reads : SlotReads s

theorem boot_slotInv (c : BootConfig) : SlotInv (boot c) :=
  ⟨boot_sane c, boot_distinct c, boot_slotReads c⟩

theorem SlotInv.step {s t : Sched} {ev : Event} (hi : SlotInv s) (hg : SlotGuard s ev)
    (h : step s ev = some t) : SlotInv t where
  sane := step_sane hi.sane h
  distinct := step_distinct hi.sane hi.distinct hg.1 h
  reads := step_slotReads hi.sane hi.distinct hi.reads hg h

/-- Along every guarded run the slot holds exactly the process blocked in a read. -/
theorem stdin_queue_exact {c : BootConfig} {s : Sched} (h : Reach step ReadGuard (boot c) s) :
    SlotExact s := by
  obtain ⟨hi, ho⟩ := h.invariant (fun s => SlotInv s ∧ OnlySlot s)
    ⟨boot_slotInv c, boot_onlySlot c⟩ fun _ _ _ hi hg ht =>
      ⟨hi.1.step hg.1 ht, step_onlySlot hi.1.sane hi.1.distinct hi.2 hg.2 ht⟩
  exact slotExact_of hi.sane hi.reads ho

def readRun : List Event := [forkAt 0x200000, call 3 0 1]

theorem readRun_exact : ∃ s, run step readRun (boot sampleBoot) = some s ∧
    queued s = some 0x100000 ∧ SlotExact s := by
  have h : (run step readRun (boot sampleBoot)).any fun s =>
      decide (queued s = some 0x100000) := by decide +kernel
  obtain ⟨s, hs, hq⟩ := (Option.any_eq_true _ _).mp h
  exact ⟨s, hs, of_decide_eq_true hq,
    stdin_queue_exact (reach_of_run readRun (by decide +kernel) hs)⟩

/- main and its child read one after the other. -/
def secondReaderRun : List Event := readRun ++ quantum ++ [call 3 0 1]

/-- The second reader takes the slot and the first is blocked without it. -/
theorem secondReaderRun_forgets : ¬ ∀ c s, Reach step anyStep (boot c) s → SlotExact s := by
  intro h
  have hrun : ∃ s, Reach step anyStep (boot sampleBoot) s ∧
      ¬∀ p ∈ s.procs, blockedIn .read p ↔ queued s = some p.addr :=
    reach_of_test secondReaderRun (guarded_anyStep _ _) (by decide +kernel)
  obtain ⟨s, hs, hnot⟩ := hrun
  exact hnot (h _ s hs).blocked

end AdamOS.Lifecycle
