import AdamOS.Kernel.Waiting

/-! waitpid over whole runs. scheduler_wake looks for the first process with a waiting_pid, and
only update_scheduler calls it: a wait is kept alive as long as the waiter is that first process,
nobody kills the process waited for and the pid named was in the list to begin with. -/
namespace AdamOS.Lifecycle
open AdamOS.Process AdamOS.Scheduler AdamOS.ListUpdate AdamOS.Word AdamOS.Transition

def NoLostWait (s : Sched) : Prop :=
  ∀ p ∈ s.procs, blockedIn .wait p → ∃ r ∈ s.procs, r.pid = p.waitingPid

/- Whoever was blocked in waitpid on a process that the step removes is no longer WAITING. -/
def WakesWaiters (s t : Sched) : Prop :=
  ∀ r ∈ s.procs, r.addr ∉ t.procs.map Pcb.addr → ∀ p ∈ s.procs, blockedIn .wait p →
    p.waitingPid = r.pid → ∀ q ∈ t.procs, q.addr = p.addr →
      q.status = .ready ∨ q.status = .running

/- waitpid names a listed process. A tick that is due anyway, or a ZOMBIE caller, never blocks. -/
def WaitsOnListed (s : Sched) (ev : Event) : Prop :=
  Calls ev .wait → ∀ p ∈ s.procs, p.addr = s.current → p.status ≠ .zombie → p.sleepTicks ≠ 1 →
    ∃ r ∈ s.procs, r.pid = ev.regs.ebx

def KillsUnawaited (s : Sched) (ev : Event) : Prop :=
  Calls ev .kill → ¬(ev.regs.ebx = 1 ∨ ev.regs.ebx = 2) →
    (∀ p ∈ s.procs, p.addr = s.current → p.pid ≠ ev.regs.ebx) →
    ∀ p ∈ s.procs, blockedIn .wait p → p.waitingPid ≠ ev.regs.ebx

/- Everyone blocked on the dying process is the one scheduler_wake finds, or due in this tick. -/
def WaitersFirst (u : Sched) (d : Pcb) : Prop :=
  ∀ p ∈ u.procs, blockedIn .wait p → p.waitingPid = d.pid →
    firstWaiter d.pid u.procs = some p.addr ∨ p.sleepTicks = 1

def WaitGuard (s : Sched) (ev : Event) : Prop :=
  WaitsOnListed s ev ∧ KillsUnawaited s ev ∧ WhenBurying WaitersFirst s ev

instance (s : Sched) : Decidable (NoLostWait s) :=
  inferInstanceAs (Decidable (∀ p ∈ s.procs, _ → _))

instance (s : Sched) (ev : Event) : Decidable (WaitsOnListed s ev) :=
  inferInstanceAs (Decidable (_ → _))

instance (s : Sched) (ev : Event) : Decidable (KillsUnawaited s ev) :=
  inferInstanceAs (Decidable (_ → _))

instance (u : Sched) (d : Pcb) : Decidable (WaitersFirst u d) :=
  inferInstanceAs (Decidable (∀ p ∈ u.procs, _ → _))

instance (s : Sched) (ev : Event) : Decidable (WaitGuard s ev) :=
  inferInstanceAs (Decidable (_ ∧ _))

theorem boot_noLostWait (c : BootConfig) : NoLostWait (boot c) :=
  fun p hp hb => absurd hb.1 (boot_awake c p hp).1

section Step
variable {s t u : Sched} {ev : Event}

/-- On entry to update_scheduler a process blocked in waitpid waits for a listed one. -/
theorem entered_noLostWait {cur p : Pcb} {f : Pcb → Pcb} (hs : Sane s) (hi : NoLostWait s)
    (hg : WaitsOnListed s ev) (h : Entered s ev cur f u) (hp : p ∈ u.procs)
    (hw : p.status = .waiting) (ht : p.sleepTicks ≠ 1)
    (hn : Syscall.ofNumber (frame u ev.regs p).eax = some .wait) :
    (blockedIn .wait p ∨ p.addr = u.current) ∧ ∃ r ∈ u.procs, r.pid = p.waitingPid := by
  have hlift : ∀ r ∈ s.procs, ∃ r' ∈ u.procs, r'.pid = r.pid := by
    intro r hr
    refine ⟨onAddr s.current f r, ?_, onAddr_field Pcb.pid f h.caller.keeps.pid ..⟩
    rw [h.procs]
    exact List.mem_map_of_mem hr
  cases h.reason hs hp hw with
  | inl hr =>
    obtain ⟨hps, _, hfr⟩ := hr
    rw [hfr] at hn
    obtain ⟨r, hr, hrp⟩ := hi p hps ⟨hw, hn⟩
    obtain ⟨r', hr', he⟩ := hlift r hr
    exact ⟨.inl ⟨hw, hn⟩, r', hr', he.trans hrp⟩
  | inr hr =>
    obtain ⟨hpc, hfr, hcall⟩ := hr
    rw [hfr] at hn
    have hc : Calls ev .wait := by
      cases hcall with
      | inl hc => exact hc
      | inr hc => cases hc with
        | inl hc => exact ⟨hc.1, hn⟩
        | inr hc => exact ⟨hc.1, hn⟩
    have hf : f = awaits ev.regs.ebx := h.caller.of_call.1 hc
    have hz : cur.status ≠ .zombie := h.caller.not_zombie (hpc ▸ hw)
    subst hf hpc
    obtain ⟨r, hr, hrp⟩ := hg hc cur h.mem h.addr hz ht
    obtain ⟨r', hr', he⟩ := hlift r hr
    exact ⟨.inr (h.addr.trans h.current.symm), r', hr', he.trans hrp⟩

theorem schedule_noLostWait {out : Outcome} (hs : Sane s) (hi : NoLostWait s)
    (hg : WaitGuard s ev) (he : enters s ev = some u)
    (h : updateScheduler ev.env.dyingParent ev.regs u = some out) : NoLostWait out.sched := by
  obtain ⟨cur, f, hent⟩ := enters_spec hs.listed he
  have hlu := hent.listed hs.listed
  obtain ⟨hround, -⟩ := updateScheduler_round hlu h
  obtain ⟨gone, F, hps, hF, hgone, -⟩ := round_moved hlu hround
  rw [NoLostWait, hps]
  intro q hq hb
  obtain ⟨p, hpf, rfl⟩ := List.mem_map.mp hq
  have hp := (List.mem_filter.mp hpf).1
  have hm := hF p hp
  obtain ⟨hpw, hpt, hnw, -, hreg⟩ := hm.asleep hb.1
  obtain ⟨hblocked, r, hr, hrp⟩ :=
    entered_noLostWait hs hi hg.1 hent hp hpw hpt (hreg ▸ hb.2)
  -- a process still WAITING is not one that waits for the ZOMBIE given up
  have hnot : ∀ d ∈ u.procs, d.addr = u.current → d.status = .zombie →
      ¬(d.pid = 1 ∨ d.pid = 2) → p.waitingPid ≠ d.pid := by
    intro d hd hda hdz hdk hpd
    have hblk : blockedIn .wait p := by
      refine hblocked.resolve_right fun hpa => ?_
      rw [addr_inj hlu.nodup hp hd (hpa.trans hda.symm), hdz] at hpw
      cases hpw
    cases hg.2.2 u he d hd hda hdz hdk p hp hblk hpd with
    | inl hf => exact hnw ⟨d, hd, hda, hdz, hf⟩
    | inr ht => exact hpt ht
  have hwait : (F p).waitingPid = p.waitingPid := by
    refine hm.waitingPid.resolve_right ?_
    rintro ⟨d, hd, hda, hdz, hdk, hpd, -⟩
    exact hnot d hd hda hdz hdk hpd
  have hkept : gone ≠ some r.addr := by
    intro hg
    obtain ⟨d, hd, hda, hdz, hdk, g, hgm, hga, hgd⟩ := hgone _ hg
    have hgr := addr_inj hlu.nodup hgm hr hga
    exact hnot d hd hda hdz hdk (by rw [← hrp, ← hgr, hgd])
  refine ⟨F r, List.mem_map_of_mem (List.mem_filter.mpr ⟨hr, by simpa using hkept⟩), ?_⟩
  rw [(hF r hr).pid, hwait, hrp]

/-- What only rewrites awake processes and keeps every pid loses no wait. -/
theorem NoLostWait.of_map {F : Pcb → Pcb} (hi : NoLostWait s) (hp : t.procs = s.procs.map F)
    (hpid : ∀ p ∈ s.procs, (F p).pid = p.pid)
    (hw : ∀ p ∈ s.procs, blockedIn .wait (F p) →
      blockedIn .wait p ∧ (F p).waitingPid = p.waitingPid) : NoLostWait t := by
  rw [NoLostWait, hp]
  intro q hq hb
  obtain ⟨p, hpm, rfl⟩ := List.mem_map.mp hq
  obtain ⟨hpb, he⟩ := hw p hpm hb
  obtain ⟨r, hr, hrp⟩ := hi p hpm hpb
  exact ⟨F r, List.mem_map_of_mem hr, by rw [hpid r hr, hrp, he]⟩

theorem Quiet.noLostWait (hi : NoLostWait s) (h : Quiet s t) : NoLostWait t := by
  obtain ⟨f, hp, hf⟩ := h.procs
  refine hi.of_map hp (fun p _ => by rw [hf p]) fun p _ hb => ?_
  rw [hf p] at hb
  exact ⟨hb, by rw [hf p]⟩

theorem fork_noLostWait {child : Pcb} (hi : NoLostWait s) (hc : Child s ev child)
    (hp : t.procs = s.procs ++ [child]) : NoLostWait t := by
  rw [NoLostWait, hp]
  intro p hpm hb
  cases List.mem_append.mp hpm with
  | inl h =>
    obtain ⟨r, hr, hrp⟩ := hi p h hb
    exact ⟨r, List.mem_append_left _ hr, hrp⟩
  | inr h =>
    rw [List.mem_singleton.mp h] at hb
    have := hb.1
    rw [hc.status] at this
    cases this

theorem kill_noLostWait {r : Removal} (hs : Sane s) (hi : NoLostWait s) (hg : WaitGuard s ev)
    (hc : Calls ev .kill) (h : Removed ev.regs.ebx s r) : NoLostWait r.sched := by
  cases h with
  | refused => exact hi
  | self hp hcm ha hpid =>
    refine hi.of_map rfl (fun p _ => by simp) fun p _ hb => ?_
    by_cases hpa : p.addr = s.current
    · rw [onAddr_of_eq hpa] at hb
      cases hb.1
    · rw [onAddr_of_ne hpa] at hb ⊢
      exact ⟨hb, rfl⟩
  | @absent cur f hp hcm ha hpid habs hf =>
    refine hi.of_map rfl (fun p hpm => (hf p hpm).pid) fun p hpm hb => ?_
    have hb' : blockedIn .wait p := by
      simpa only [blockedIn, (hf p hpm).status, (hf p hpm).registers] using hb
    refine ⟨hb', (hf p hpm).waiting.resolve_right ?_⟩
    rintro ⟨hpe, -⟩
    obtain ⟨r, hr, hrp⟩ := hi p hpm hb'
    exact habs r hr (hrp.trans hpe)
  | @gone cur g f hp hcm ha hpid hgm hgp hf =>
    intro q hq hb
    obtain ⟨p, hpf, rfl⟩ := List.mem_map.mp hq
    have hpm := (List.mem_filter.mp hpf).1
    have hb' : blockedIn .wait p := by
      simpa only [blockedIn, (hf p hpm).status, (hf p hpm).registers] using hb
    have hcur : ∀ c ∈ s.procs, c.addr = s.current → c.pid ≠ ev.regs.ebx :=
      hs.listed.current_of_mem hcm ha hpid
    have hne : p.waitingPid ≠ ev.regs.ebx := hg.2.1 hc hp hcur p hpm hb'
    have hwait : (f p).waitingPid = p.waitingPid :=
      (hf p hpm).waiting.resolve_right fun h => hne h.1
    obtain ⟨r, hr, hrp⟩ := hi p hpm hb'
    have hrg : r.addr ≠ g.addr := by
      intro he
      rw [addr_inj hs.listed.nodup hr hgm he] at hrp
      exact hne (hrp.symm.trans hgp)
    refine ⟨f r, List.mem_map_of_mem (List.mem_filter.mpr ⟨hr, by simpa using hrg⟩), ?_⟩
    rw [(hf r hr).pid, hwait, hrp]

theorem Interrupted.noLostWait (hi : NoLostWait s) (h : Interrupted s t) : NoLostWait t := by
  refine hi.of_map h.procs (fun p _ => by simp) fun p _ hb => ?_
  by_cases hf : foreground s = some p.addr
  · rw [interrupted_of hf] at hb
    cases hb.1
  · rw [interrupted_of_not hf] at hb ⊢
    exact ⟨hb, rfl⟩

theorem Delivery.noLostWait {regs : Registers} {a : Nat} {w : Pcb} (hs : Sane s)
    (hi : NoLostWait s) (h : Delivery s regs a w t) : NoLostWait t := by
  refine hi.of_map h.procs (fun p _ => by simp) fun p hp hb => ?_
  have he := (delivered_asleep hs hp hb.1).2
  rw [he] at hb ⊢
  exact ⟨hb, rfl⟩

theorem step_noLostWait (hs : Sane s) (hi : NoLostWait s) (hg : WaitGuard s ev)
    (h : step s ev = some t) : NoLostWait t := by
  obtain ⟨_, _, heff⟩ := step_effect hs.listed h
  cases heff with
  | quiet hq => exact hq.noLostWait hi
  | schedule he hu => exact schedule_noLostWait hs hi hg he hu
  | fork _ hc hp => exact fork_noLostWait hi hc hp
  | kill hc hr => exact kill_noLostWait hs hi hg hc hr
  | interrupt _ _ hint =>
    cases sigintForeground_cases hs.listed hint with
    | inl hq => exact hq.noLostWait hi
    | inr hint => exact hint.noLostWait hi
  | wake _ hq hw =>
    cases stdinWakeProcess_cases (hq.sane hs).listed hw with
    | inl he => exact he ▸ hq.noLostWait hi
    | inr hd =>
      obtain ⟨a, p, hd⟩ := hd
      exact hd.noLostWait (hq.sane hs) (hq.noLostWait hi)

/-- A removal by exit wakes everyone blocked on the process removed. -/
theorem schedule_wakes {out : Outcome} (hs : Sane s) (hg : WaitGuard s ev)
    (he : enters s ev = some u)
    (h : updateScheduler ev.env.dyingParent ev.regs u = some out) : WakesWaiters s out.sched := by
  obtain ⟨cur, f, hent⟩ := enters_spec hs.listed he
  have hlu := hent.listed hs.listed
  have haddr := onAddr_field Pcb.addr f hent.caller.keeps.addr s.current
  have hpid := onAddr_field Pcb.pid f hent.caller.keeps.pid s.current
  obtain ⟨hround, -⟩ := updateScheduler_round hlu h
  obtain ⟨gone, F, hps, hF, hgone, -⟩ := round_moved hlu hround
  intro r hr hrt p hp hb hpr q hq hqp
  have hru : onAddr s.current f r ∈ u.procs := hent.procs ▸ List.mem_map_of_mem hr
  have hg' : gone = some r.addr := by
    by_contra hne
    refine hrt (List.mem_map.mpr ⟨F (onAddr s.current f r), ?_, ?_⟩)
    · rw [hps]
      exact List.mem_map_of_mem (List.mem_filter.mpr ⟨hru, by simpa [haddr] using hne⟩)
    · rw [(hF _ hru).addr, haddr]
  obtain ⟨d, hd, hda, hdz, hdk, g, hgm, hga, hgd⟩ := hgone _ hg'
  have hgr := addr_inj hlu.nodup hgm hru (hga.trans (haddr r).symm)
  have hpne : p.addr ≠ s.current := fun hpa => hs.awake p hp hpa hb.1
  have hpu : p ∈ u.procs := (hent.mem_iff hs.listed).mpr (.inr ⟨hp, hpne⟩)
  have hpd : p.waitingPid = d.pid := by rw [hpr, ← hgd, hgr, hpid]
  rw [hps] at hq
  obtain ⟨p', hpf, rfl⟩ := List.mem_map.mp hq
  have hpm := (List.mem_filter.mp hpf).1
  have hm := hF p' hpm
  have hpp : p' = p := addr_inj hlu.nodup hpm hpu (hm.addr.symm.trans hqp)
  subst hpp
  refine (hm.roused hb.1 ?_).2
  intro hqw
  obtain ⟨-, hpt, hnw, -⟩ := hm.asleep hqw
  cases hg.2.2 u he d hd hda hdz hdk p' hpu hb hpd with
  | inl hf => exact hnw ⟨d, hd, hda, hdz, hf⟩
  | inr ht => exact hpt ht

/-- A step that keeps every process removes none that is waited for. -/
theorem WakesWaiters.of_map {F : Pcb → Pcb} (hp : t.procs = s.procs.map F)
    (ha : ∀ p ∈ s.procs, (F p).addr = p.addr) : WakesWaiters s t := by
  intro r hr hrt
  refine absurd (List.mem_map.mpr ⟨F r, ?_, ha r hr⟩) hrt
  rw [hp]
  exact List.mem_map_of_mem hr

theorem Quiet.wakes (h : Quiet s t) : WakesWaiters s t := by
  obtain ⟨f, hp, hf⟩ := h.procs
  exact .of_map hp fun p _ => by rw [hf p]

theorem step_wakes (hs : Sane s) (hg : WaitGuard s ev) (h : step s ev = some t) :
    WakesWaiters s t := by
  obtain ⟨_, _, heff⟩ := step_effect hs.listed h
  cases heff with
  | quiet hq => exact hq.wakes
  | schedule he hu => exact schedule_wakes hs hg he hu
  | fork _ hc hp =>
    intro r hr hrt
    refine absurd (List.mem_map.mpr ⟨r, ?_, rfl⟩) hrt
    rw [hp]
    exact List.mem_append_left _ hr
  | kill hc hr =>
    cases hr with
    | refused => exact .of_map (List.map_id _).symm fun _ _ => rfl
    | self => exact .of_map rfl fun p _ => by simp
    | absent _ _ _ _ _ hf => exact .of_map rfl fun p hp => (hf p hp).addr
    | @gone cur g f hp hcm ha hpid hgm hgp hf =>
      intro r hr hrt p hpm hb hpr
      have hrg : r = g := by
        refine addr_inj hs.listed.nodup hr hgm ?_
        by_contra hne
        refine hrt (List.mem_map.mpr ⟨f r, ?_, (hf r hr).addr⟩)
        exact List.mem_map_of_mem (List.mem_filter.mpr ⟨hr, by simpa using hne⟩)
      have hcur : ∀ c ∈ s.procs, c.addr = s.current → c.pid ≠ ev.regs.ebx :=
        hs.listed.current_of_mem hcm ha hpid
      exact absurd (hpr.trans (hrg ▸ hgp)) (hg.2.1 hc hp hcur p hpm hb)
  | interrupt _ _ hint =>
    cases sigintForeground_cases hs.listed hint with
    | inl hq => exact hq.wakes
    | inr hint => exact .of_map hint.procs fun p _ => by simp
  | wake _ hq hw =>
    obtain ⟨f, hp, hf⟩ := hq.procs
    cases stdinWakeProcess_cases (hq.sane hs).listed hw with
    | inl he => exact he ▸ hq.wakes
    | inr hd =>
      obtain ⟨a, p, hd⟩ := hd
      refine .of_map (hd.procs.trans (by rw [hp, List.map_map])) fun q _ => ?_
      simp only [Function.comp, delivered_addr]
      rw [hf q]

end Step

/-- Along every guarded run no wait is lost and every removal wakes its waiters. -/
theorem waitpid_not_lost {c : BootConfig} {s : Sched} (h : Reach step WaitGuard (boot c) s) :
    NoLostWait s ∧ ∀ ev t, WaitGuard s ev → step s ev = some t → WakesWaiters s t := by
  have hinv : Sane s ∧ NoLostWait s :=
    h.invariant (fun s => Sane s ∧ NoLostWait s) ⟨boot_sane c, boot_noLostWait c⟩ fun _ _ _ hi hg ht =>
      ⟨step_sane hi.1 ht, step_noLostWait hi.1 hi.2 hg ht⟩
  exact ⟨hinv.2, fun _ _ hg ht => step_wakes hinv.1 hg ht⟩

def waitRun : List Event := [forkAt 0x200000, call 13 3 0] ++ quantum ++ [call 1 0 0]

theorem waitRun_not_lost : ∃ s, run step waitRun (boot sampleBoot) = some s ∧ NoLostWait s := by
  have h : (run step waitRun (boot sampleBoot)).isSome := by decide +kernel
  obtain ⟨s, hs⟩ := Option.isSome_iff_exists.mp h
  exact ⟨s, hs, (waitpid_not_lost (reach_of_run waitRun (by decide +kernel) hs)).1⟩

/- main forks 3 and 4 and waits for 3; 4 gets the processor and kills 3. -/
def killRun : List Event :=
  [forkAt 0x200000, forkAt 0x210000, call 13 3 0] ++ quantum ++ quantum ++ [call 12 3 0]

/-- After the kill main is blocked for good on a pid that nobody has. -/
theorem killRun_lost : ¬ ∀ c s, Reach step anyStep (boot c) s → NoLostWait s := by
  intro h
  have hrun : ∃ s, Reach step anyStep (boot sampleBoot) s ∧ ¬NoLostWait s :=
    reach_of_test killRun (guarded_anyStep _ _) (by decide +kernel)
  obtain ⟨s, hs, hlost⟩ := hrun
  exact hlost (h _ s hs)

end AdamOS.Lifecycle
