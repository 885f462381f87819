import AdamOS.Kernel.Waiting

/-! Who is RUNNING. The scheduler marks the process it resumes and never unmarks the one it takes
the processor from, so the mark is unique only while nobody is preempted. -/
namespace AdamOS.Lifecycle
open AdamOS.Process AdamOS.Scheduler AdamOS.ListUpdate AdamOS.Word AdamOS.Transition

def OthersRest (s : Sched) : Prop := ∀ p ∈ s.procs, p.status = .running → p.addr = s.current

structure OneRunning (s : Sched) : Prop where
  current : ∀ p ∈ s.procs, p.addr = s.current → p.status = .running ∨ p.status = .zombie
  others : OthersRest s

instance (s : Sched) : Decidable (OthersRest s) :=
  inferInstanceAs (Decidable (∀ p ∈ s.procs, _ → _))

instance (s : Sched) : Decidable (OneRunning s) :=
  decidable_of_iff ((∀ p ∈ s.procs, p.addr = s.current → p.status = .running ∨ p.status = .zombie) ∧
      OthersRest s)
    ⟨fun h => ⟨h.1, h.2⟩, fun h => ⟨h.current, h.others⟩⟩

/- update_scheduler entered with a RUNNING process returns to it, or finds all others WAITING. -/
def Unpreempted (u : Sched) : Prop :=
  ∀ cur ∈ u.procs, cur.addr = u.current → cur.status = .running →
    stays u cur ∨ ∀ p ∈ u.procs, p.addr ≠ u.current → (decrementWait p).status = .waiting

def WakesOther (s : Sched) (ev : Event) : Prop :=
  ∀ u ∈ wakeCall s ev, ∀ p ∈ u.procs, p.addr = u.current → p.status ≠ .zombie →
    u.stdin.waitQueue.process ≠ some u.current

def SwitchGuard (s : Sched) (ev : Event) : Prop := OnEntry Unpreempted s ev ∧ WakesOther s ev

instance (u : Sched) : Decidable (Unpreempted u) :=
  inferInstanceAs (Decidable (∀ cur ∈ u.procs, _ → _ → _))

instance (s : Sched) (ev : Event) : Decidable (WakesOther s ev) :=
  match h : wakeCall s ev with
  | none => .isTrue (by simp [WakesOther, h])
  | some u =>
    decidable_of_iff (∀ p ∈ u.procs, p.addr = u.current → p.status ≠ .zombie →
      u.stdin.waitQueue.process ≠ some u.current) (by simp [WakesOther, h])

instance (s : Sched) (ev : Event) : Decidable (SwitchGuard s ev) :=
  inferInstanceAs (Decidable (_ ∧ _))

theorem boot_oneRunning (c : BootConfig) : OneRunning (boot c) where
  current := by
    have := c.distinct
    simp [boot, bootMain, bootIdle, createProcessControlBlock, setStatus]
    exact fun h => absurd h.symm this
  others := by
    simp [OthersRest, boot, bootMain, bootIdle, createProcessControlBlock, setStatus]

section Step
variable {s t u : Sched} {ev : Event}

/-- A change in place that makes nobody RUNNING and takes the mark from the current process only
to make it a ZOMBIE. -/
theorem OneRunning.of_map {keep : Pcb → Bool} {F : Pcb → Pcb} (h : OneRunning s)
    (hp : t.procs = (s.procs.filter keep).map F) (hc : t.current = s.current)
    (ha : ∀ p ∈ s.procs, (F p).addr = p.addr)
    (hr : ∀ p ∈ s.procs, (F p).status = .running → p.status = .running)
    (hk : ∀ p ∈ s.procs, p.addr = s.current →
      (F p).status = p.status ∨ (F p).status = .zombie) : OneRunning t where
  current := by
    intro q hq hqc
    rw [hp] at hq
    obtain ⟨p, hpf, rfl⟩ := List.mem_map.mp hq
    have hpm := (List.mem_filter.mp hpf).1
    have hpc : p.addr = s.current := by rw [← ha p hpm, hqc, hc]
    rcases hk p hpm hpc with he | hz
    · rw [he]
      exact h.current p hpm hpc
    · exact .inr hz
  others := by
    intro q hq hqr
    rw [hp] at hq
    obtain ⟨p, hpf, rfl⟩ := List.mem_map.mp hq
    have hpm := (List.mem_filter.mp hpf).1
    rw [ha p hpm, hc]
    exact h.others p hpm (hr p hpm hqr)

theorem OneRunning.of_map_all {F : Pcb → Pcb} (h : OneRunning s) (hp : t.procs = s.procs.map F)
    (hc : t.current = s.current) (ha : ∀ p ∈ s.procs, (F p).addr = p.addr)
    (hr : ∀ p ∈ s.procs, (F p).status = .running → p.status = .running)
    (hk : ∀ p ∈ s.procs, p.addr = s.current →
      (F p).status = p.status ∨ (F p).status = .zombie) : OneRunning t :=
  @OneRunning.of_map s t (fun _ => true) F h (by rw [hp, List.filter_true]) hc ha hr hk

theorem Quiet.oneRunning (h : OneRunning s) (hq : Quiet s t) : OneRunning t := by
  obtain ⟨f, hp, hf⟩ := hq.procs
  have hst : ∀ p, (f p).status = p.status := fun p => by rw [hf p]
  exact h.of_map_all hp hq.current (fun p _ => by rw [hf p]) (fun p _ hr => hst p ▸ hr)
    fun p _ _ => .inl (hst p)

/-! ### update_scheduler -/

theorem resume_oneRunning {regs : Registers} (h : OthersRest s) (hr : resume s = some (t, regs)) :
    OneRunning t := by
  obtain ⟨hp, hc, -⟩ := resume_spec hr
  constructor
  · intro q hq hqc
    rw [hp] at hq
    obtain ⟨p, _, rfl⟩ := List.mem_map.mp hq
    rw [onAddr_setStatus_addr, hc] at hqc
    rw [onAddr_of_eq hqc]
    exact .inl rfl
  · intro q hq hqr
    rw [hp] at hq
    obtain ⟨p, hpm, rfl⟩ := List.mem_map.mp hq
    rw [onAddr_setStatus_addr, hc]
    by_cases hpc : p.addr = s.current
    · exact hpc
    · rw [onAddr_of_ne hpc] at hqr
      exact h p hpm hqr

theorem decrementWait_running {p : Pcb} (h : (decrementWait p).status = .running) :
    p.status = .running := by
  rw [decrementWait_status] at h
  split at h
  · cases h
  · exact h

theorem tick_othersRest (h : OthersRest s) : OthersRest (tick s) := by
  intro q hq hr
  obtain ⟨p, hp, rfl⟩ := List.mem_map.mp hq
  rw [decrementWait_addr]
  exact h p hp (decrementWait_running hr)

/-- Once a ZOMBIE is given up nobody is RUNNING until resume. -/
theorem switchAway_dead_rests {regs : Registers} {cur : Pcb} {g : Nat} {rel : Option Pcb}
    (hl : Listed s) (h : OthersRest s) (hc : cur ∈ s.procs) (ha : cur.addr = s.current)
    (hz : cur.status = .zombie) (hsw : switchAway g regs cur s = some (t, rel)) :
    OthersRest t := by
  obtain ⟨q, -, -, -, r, hr, rfl, -⟩ := switchAway_dead hl hz hsw
  have hnone : ∀ p ∈ (schedulerWake cur.pid s).procs, p.status ≠ .running := by
    intro p hp hpr
    rw [schedulerWake_procs hl.nodup] at hp
    obtain ⟨x, hx, rfl⟩ := List.mem_map.mp hp
    by_cases hf : firstWaiter cur.pid s.procs = some x.addr
    · rw [wakeFirst_of_first hf] at hpr
      cases hpr
    · rw [wakeFirst_of_not hf] at hpr
      have hxc := addr_inj hl.nodup hx hc ((h x hx hpr).trans ha.symm)
      rw [hxc, hz] at hpr
      cases hpr
  intro p hp hpr
  cases hr with
  | refused => exact absurd hpr (hnone p hp)
  | self =>
    obtain ⟨x, hx, rfl⟩ := List.mem_map.mp hp
    by_cases hxa : x.addr = q.addr
    · rw [onAddr_of_eq hxa] at hpr
      cases hpr
    · rw [onAddr_of_ne hxa] at hpr
      exact absurd hpr (hnone x hx)
  | absent _ _ _ _ _ hf =>
    obtain ⟨x, hx, rfl⟩ := List.mem_map.mp hp
    rw [(hf x hx).status] at hpr
    exact absurd hpr (hnone x hx)
  | gone _ _ _ _ _ _ hf =>
    obtain ⟨x, hx, rfl⟩ := List.mem_map.mp hp
    have hxm := (List.mem_filter.mp hx).1
    rw [(hf x hxm).status] at hpr
    exact absurd hpr (hnone x hxm)

/-- A live process is given up only when it is not RUNNING or nobody else can be chosen. -/
theorem switchAway_live_rests {regs : Registers} {cur : Pcb} {g : Nat} {rel : Option Pcb}
    (hl : Listed s) (h : OthersRest s) (hc : cur ∈ s.procs) (ha : cur.addr = s.current)
    (hz : cur.status ≠ .zombie)
    (halone : cur.status = .running → ∀ p ∈ s.procs, p.addr ≠ s.current → p.status = .waiting)
    (hsw : switchAway g regs cur s = some (t, rel)) : OthersRest t := by
  obtain ⟨nxt, hn, hw, -, rfl⟩ := switchAway_live hl.nodup hz hsw
  intro q hq hqr
  obtain ⟨p, hp, rfl⟩ := List.mem_map.mp hq
  rw [onAddr_setRegisters_status] at hqr
  rw [onAddr_setRegisters_addr]
  have hpc : p.addr = s.current := h p hp hqr
  have hpe := addr_inj hl.nodup hp hc (hpc.trans ha.symm)
  subst hpe
  by_contra hne
  exact hw (halone hqr nxt hn fun hnc => hne (hpc.trans hnc.symm))

theorem updateScheduler_oneRunning {regs : Registers} {g : Nat} {out : Outcome} (hl : Listed s)
    (h : OthersRest s) (hu : Unpreempted s)
    (hb : ∀ p ∈ s.procs, p.addr = s.current → p.status ≠ .ready)
    (ho : updateScheduler g regs s = some out) : OneRunning out.sched := by
  obtain ⟨cur, hc, ha, -⟩ := currentProcess_eq hl
  rw [updateScheduler_eq hl hc ha] at ho
  have ht := tick_othersRest h
  by_cases hstay : stays s cur = true
  · rw [if_pos hstay] at ho
    cases ho
    refine ⟨fun q hq hqc => .inl ?_, ht⟩
    obtain ⟨p, hp, rfl⟩ := List.mem_map.mp hq
    rw [decrementWait_addr] at hqc
    obtain rfl := addr_inj hl.nodup hp hc (hqc.trans ha.symm)
    simp only [stays, Bool.and_eq_true, Bool.not_eq_true', Bool.or_eq_true, decide_eq_true_eq] at hstay
    obtain ⟨⟨hnone, -⟩, hst⟩ := hstay
    have hnw : ¬(p.sleepTicks = 1 ∧ p.status = .waiting) := by
      have hw := List.any_eq_false.mp hnone p hp
      simpa [wakes] using hw
    rw [decrementWait_status, if_neg hnw] at hst ⊢
    exact hst.resolve_left (hb p hp ha)
  rw [if_neg hstay] at ho
  obtain ⟨⟨t, rel⟩, hsw, h1⟩ := Option.bind_eq_some_iff.mp ho
  obtain ⟨⟨v, regs'⟩, hres, h2⟩ := Option.bind_eq_some_iff.mp h1
  cases h2
  have hct := List.mem_map_of_mem (f := decrementWait) hc
  have hat : (decrementWait cur).addr = s.current := by rw [decrementWait_addr, ha]
  refine resume_oneRunning ?_ hres
  by_cases hz : (decrementWait cur).status = .zombie
  · exact switchAway_dead_rests (tick_listed hl) ht hct hat hz hsw
  · refine switchAway_live_rests (tick_listed hl) ht hct hat hz (fun hr q hq hqc => ?_) hsw
    obtain ⟨p, hp, rfl⟩ := List.mem_map.mp hq
    rw [decrementWait_addr] at hqc
    exact (hu cur hc ha (decrementWait_running hr)).resolve_left hstay p hp hqc

/-! ### Entries -/

theorem entered_rests {cur : Pcb} {f : Pcb → Pcb} (hl : Listed s) (h : OneRunning s)
    (he : Entered s ev cur f u) :
    OthersRest u ∧ ∀ p ∈ u.procs, p.addr = u.current → p.status ≠ .ready := by
  have hcur := h.current cur he.mem he.addr
  have hf : (f cur).addr = u.current := by rw [he.caller.keeps.addr, he.addr, he.current]
  constructor
  · intro p hp hr
    rcases (he.mem_iff hl).mp hp with rfl | ⟨hps, _⟩
    · exact hf
    · rw [he.current]
      exact h.others p hps hr
  · intro p hp hpc
    rcases (he.mem_iff hl).mp hp with rfl | ⟨_, hpa⟩
    · have hblock : ∀ q : Pcb, (blockStatus q).status ≠ .ready := fun q => by
        rw [blockStatus_status]
        split <;> decide
      cases he.caller with
      | timer | spared => rcases hcur with h | h <;> simp [h]
      | exit => simp
      | wait | sleep | read => exact hblock _
    · exact absurd (hpc.trans he.current) hpa

theorem removed_oneRunning {pid : Nat} {r : Removal} (h : OneRunning s) (hr : Removed pid s r) :
    OneRunning r.sched := by
  cases hr with
  | refused => exact h
  | self =>
    refine h.of_map_all rfl rfl (fun p _ => by simp) (fun p _ hr => ?_) fun p _ hpc => .inr ?_
    · by_cases hpc : p.addr = s.current
      · rw [onAddr_of_eq hpc] at hr
        cases hr
      · rwa [onAddr_of_ne hpc] at hr
    · rw [onAddr_of_eq hpc]
      rfl
  | absent _ _ _ _ _ hf =>
    exact h.of_map_all rfl rfl (fun p hp => (hf p hp).addr) (fun p hp hr => (hf p hp).status ▸ hr)
      fun p hp _ => .inl (hf p hp).status
  | gone _ _ _ _ _ _ hf =>
    exact h.of_map rfl rfl (fun p hp => (hf p hp).addr) (fun p hp hr => (hf p hp).status ▸ hr)
      fun p hp _ => .inl (hf p hp).status

theorem Interrupted.oneRunning (h : OneRunning s) (hi : Interrupted s t) : OneRunning t := by
  have hst : ∀ p, (interrupted s p).status = p.status ∨ (interrupted s p).status = .zombie := by
    intro p
    by_cases hf : foreground s = some p.addr
    · rw [interrupted_of hf]
      exact .inr rfl
    · rw [interrupted_of_not hf]
      exact .inl rfl
  refine h.of_map_all hi.procs hi.current (fun p _ => by simp) (fun p _ hr => ?_) fun p _ _ => hst p
  rcases hst p with he | he
  · rwa [he] at hr
  · rw [he] at hr
    cases hr

theorem Delivery.oneRunning {regs : Registers} {a : Nat} {p : Pcb} (h : OneRunning s)
    (hd : Delivery s regs a p t) (ha : a ≠ s.current) : OneRunning t := by
  have hst : ∀ q : Pcb, q.addr ≠ a →
      (delivered regs s.current a (deliveredCount s.stdin) q).status = q.status := by
    intro q hq
    rw [delivered, onAddr_of_ne (by simpa using hq), onAddr_setRegisters_status]
  refine h.of_map_all hd.procs hd.current (fun q _ => by simp) (fun q _ hr => ?_) fun q _ hqc =>
    .inl (hst q fun hqa => ha (hqa.symm.trans hqc))
  by_cases hq : q.addr = a
  · rw [delivered_at hq] at hr
    cases hr
  · rwa [hst q hq] at hr

theorem step_oneRunning (hs : Sane s) (h : OneRunning s) (hg : SwitchGuard s ev)
    (ht : step s ev = some t) : OneRunning t := by
  obtain ⟨_, _, heff⟩ := step_effect hs.listed ht
  cases heff with
  | quiet hq => exact hq.oneRunning h
  | schedule he hu =>
    obtain ⟨cur, f, hent⟩ := enters_spec hs.listed he
    obtain ⟨hrest, hready⟩ := entered_rests hs.listed h hent
    exact updateScheduler_oneRunning (hent.listed hs.listed) hrest (hg.1 _ he) hready hu
  | fork _ hc hp hcur =>
    constructor
    · intro p hpm hpc
      rw [hp] at hpm
      rcases List.mem_append.mp hpm with hpm | hpm
      · exact h.current p hpm (hpc.trans hcur)
      · obtain ⟨q, hq, hqa⟩ := hs.listed.current
        rw [List.mem_singleton.mp hpm] at hpc
        exact absurd (List.mem_map.mpr ⟨q, hq, hqa.trans (hpc.trans hcur).symm⟩) hc.fresh
    · intro p hpm hr
      rw [hp] at hpm
      rcases List.mem_append.mp hpm with hpm | hpm
      · exact (h.others p hpm hr).trans hcur.symm
      · rw [List.mem_singleton.mp hpm, hc.status] at hr
        cases hr
  | kill _ hr => exact removed_oneRunning h hr
  | interrupt _ _ hi =>
    rcases sigintForeground_cases hs.listed hi with hq | hi
    · exact hq.oneRunning h
    · exact hi.oneRunning h
  | wake _ hq hw hcall =>
    have hu := hq.sane hs
    rcases stdinWakeProcess_cases hu.listed hw with he | ⟨a, p, hd⟩
    · rw [he]
      exact hq.oneRunning h
    · refine hd.oneRunning (hq.oneRunning h) ?_
      rintro rfl
      obtain ⟨q, hqm, hqa⟩ := hu.listed.current
      exact hg.2 _ hcall q hqm hqa (hd.live q hqm hqa) hd.slot

end Step

/-- Along every run in which no RUNNING process is preempted, the mark is the current process's
alone. -/
theorem one_running {c : BootConfig} {s : Sched} (h : Reach step SwitchGuard (boot c) s) :
    OneRunning s := by
  have hinv : Sane s ∧ OneRunning s :=
    h.invariant (fun s => Sane s ∧ OneRunning s) ⟨boot_sane c, boot_oneRunning c⟩
      fun _ _ _ hi hg ht => ⟨step_sane hi.1 ht, step_oneRunning hi.1 hi.2 hg ht⟩
  exact hinv.2

def restRun : List Event := [call 16 100 0] ++ List.replicate 19 timerTick

theorem restRun_oneRunning : ∃ s, run step restRun (boot sampleBoot) = some s ∧ OneRunning s := by
  have h : (run step restRun (boot sampleBoot)).isSome := by decide +kernel
  obtain ⟨s, hs⟩ := Option.isSome_iff_exists.mp h
  exact ⟨s, hs, one_running (reach_of_run restRun (by decide +kernel) hs)⟩

/-- After the first quantum both main and idle are RUNNING. -/
theorem quantum_twoRunning : ¬ ∀ c s, Reach step anyStep (boot c) s → OneRunning s := by
  intro h
  have hrun : ∃ s, Reach step anyStep (boot sampleBoot) s ∧ ¬OneRunning s :=
    reach_of_test quantum (guarded_anyStep _ _) (by decide +kernel)
  obtain ⟨s, hs, htwo⟩ := hrun
  exact htwo (h _ s hs)

end AdamOS.Lifecycle
