import AdamOS.Kernel.Waiting

/-! ZOMBIE over whole runs. next_process passes over WAITING only, so a ZOMBIE is safe from being
resumed just as long as it is the current process and somebody else can run when it is given up. -/
namespace AdamOS.Lifecycle
open AdamOS.Process AdamOS.Scheduler AdamOS.ListUpdate AdamOS.Word AdamOS.Transition

def Killable (p : Pcb) : Prop := ¬(p.pid = 1 ∨ p.pid = 2)

instance (p : Pcb) : Decidable (Killable p) := inferInstanceAs (Decidable (¬_))

def OnlyCurrentZombie (s : Sched) : Prop :=
  ∀ p ∈ s.procs, p.status = .zombie → Killable p → p.addr = s.current

/- Ctrl+C finds the foreground process running, or finds none it can kill. -/
def InterruptsCurrent (s : Sched) (ev : Event) : Prop :=
  match ev.entry with
  | .keyboard scancode _ => isCtrlC scancode s → s.foregroundPid = 0 ∨
      (s.foregroundPid = 1 ∨ s.foregroundPid = 2) ∨
      ∀ p ∈ s.procs, p.pid = s.foregroundPid → p.addr = s.current
  | _ => True

def OtherAwake (u : Sched) (d : Pcb) : Prop :=
  ∃ p ∈ u.procs, p.addr ≠ u.current ∧
    (wakeFirst d.pid u.procs (decrementWait p)).status ≠ .waiting

def ZombieGuard (s : Sched) (ev : Event) : Prop :=
  FreshPid s ev ∧ InterruptsCurrent s ev ∧ WhenBurying OtherAwake s ev

instance (s : Sched) (ev : Event) : Decidable (InterruptsCurrent s ev) :=
  match h : ev.entry with
  | .keyboard scancode _ =>
    decidable_of_iff (isCtrlC scancode s → s.foregroundPid = 0 ∨
      (s.foregroundPid = 1 ∨ s.foregroundPid = 2) ∨
      ∀ p ∈ s.procs, p.pid = s.foregroundPid → p.addr = s.current) (by simp [InterruptsCurrent, h])
  | .timer => .isTrue (by simp [InterruptsCurrent, h])
  | .syscall => .isTrue (by simp [InterruptsCurrent, h])

instance (u : Sched) (d : Pcb) : Decidable (OtherAwake u d) :=
  inferInstanceAs (Decidable (∃ p ∈ u.procs, _ ∧ _))

instance (s : Sched) (ev : Event) : Decidable (ZombieGuard s ev) :=
  inferInstanceAs (Decidable (_ ∧ _))

section Round
variable {s t u : Sched} {ev : Event}

/-- Given up as a ZOMBIE while somebody else can run, a process is gone after the round. -/
theorem round_buries {regs : Registers} {ps : List Pcb} {n : Nat} {rel : Option Pcb} {d : Pcb}
    (hl : Listed u) (hd : Distinct u) (h : Round u regs ps n rel) (hm : d ∈ u.procs)
    (ha : d.addr = u.current) (hz : d.status = .zombie) (hk : Killable d)
    (ho : OtherAwake u d) : ∀ q ∈ ps, q.addr ≠ d.addr := by
  have hsame : ∀ cur ∈ u.procs, cur.addr = u.current → cur = d :=
    fun cur hc hca => addr_inj hl.nodup hc hm (hca.trans ha.symm)
  cases h with
  | stay hc hca hnz => exact absurd (hsame _ hc hca ▸ hz) hnz
  | switch hc hca hnz => exact absurd (hsame _ hc hca ▸ hz) hnz
  | @keep cur nxt hc hca hcz hn hw hothers hkeep =>
    have hcd := hsame cur hc hca
    subst hcd
    have hpid : nxt.pid = cur.pid := hkeep.resolve_left hk
    have hnxt : nxt = cur := pid_inj hd hn hm hpid
    obtain ⟨p, hp, hpa, hpw⟩ := ho
    exact absurd (hothers (hnxt ▸ ha) p hp hpa) hpw
  | @bury cur nxt gone f hc hca hcz hn hw hpk hne hg hgp hf =>
    have hcd := hsame cur hc hca
    subst hcd
    have hgone : gone = cur := pid_inj hd hg hm hgp
    subst hgone
    intro q hq
    obtain ⟨p, hpf, rfl⟩ := List.mem_map.mp hq
    obtain ⟨hpm, hpa⟩ := List.mem_filter.mp hpf
    rw [onAddr_setStatus_addr, (hf p hpm).addr, wakeFirst_addr, decrementWait_addr]
    simpa using hpa

/-- A round entered with a ZOMBIE that may be removed leaves no such ZOMBIE at all. -/
theorem schedule_onlyCurrent {out : Outcome} (hs : Sane s) (hd : Distinct s)
    (hi : OnlyCurrentZombie s) (hg : ZombieGuard s ev) (he : enters s ev = some u)
    (h : updateScheduler ev.env.dyingParent ev.regs u = some out) :
    (∀ q ∈ out.sched.procs, q.status = .zombie → ¬Killable q) ∧
    ∀ p ∈ s.procs, p.status = .zombie → Killable p →
      p.addr ∉ out.sched.procs.map Pcb.addr := by
  obtain ⟨cur, f, hent⟩ := enters_spec hs.listed he
  have hlu := hent.listed hs.listed
  have hdu := hent.distinct hd
  obtain ⟨hround, -⟩ := updateScheduler_round hlu h
  have hzu : ∀ p ∈ u.procs, p.status = .zombie → Killable p → p.addr = u.current := by
    intro p hp hz hk
    rw [hent.current]
    cases (hent.mem_iff hs.listed).mp hp with
    | inl hpc => rw [hpc, hent.caller.keeps.addr, hent.addr]
    | inr hps => exact hi p hps.1 hz hk
  have hburied : ∀ d ∈ u.procs, d.status = .zombie → Killable d →
      ∀ q ∈ out.sched.procs, q.addr ≠ d.addr := by
    intro d hdm hz hk
    have ha := hzu d hdm hz hk
    exact round_buries hlu hdu hround hdm ha hz hk (hg.2.2 u he d hdm ha hz hk)
  constructor
  · intro q hq hz hk
    obtain ⟨p, hp, hm⟩ := round_asleep hlu hround hq
    have hk' : Killable p := by
      rw [Killable, ← hm.pid]
      exact hk
    exact hburied p hp (hm.zombie hz) hk' q hq hm.addr
  · intro p hp hz hk hmem
    obtain ⟨q, hq, hqp⟩ := List.mem_map.mp hmem
    have hpc : p = cur := addr_inj hs.listed.nodup hp hent.mem ((hi p hp hz hk).trans hent.addr.symm)
    have hfp : f p ∈ u.procs := (hent.mem_iff hs.listed).mpr (.inl (hpc ▸ rfl))
    have hk' : Killable (f p) := by
      rw [Killable, hent.caller.keeps.pid]
      exact hk
    refine hburied (f p) hfp (hent.caller.keeps.zombie p hz) hk' q hq ?_
    rw [hqp, hent.caller.keeps.addr]

def Absorbs (s t : Sched) : Prop :=
  OnlyCurrentZombie t ∧ ∀ p ∈ s.procs, p.status = .zombie → Killable p →
    ∀ q ∈ t.procs, q.addr = p.addr → q.status = .zombie

theorem Absorbs.of_map {F : Pcb → Pcb} {keep : Pcb → Bool} (hl : Listed s)
    (hi : OnlyCurrentZombie s) (hp : t.procs = (s.procs.filter keep).map F)
    (hc : t.current = s.current)
    (ha : ∀ p ∈ s.procs, (F p).addr = p.addr ∧ (F p).pid = p.pid)
    (hst : ∀ p ∈ s.procs, Killable p → ((F p).status = .zombie ∧ p.addr = s.current) ∨
      (p.status ≠ .zombie → (F p).status ≠ .zombie) ∧
        (p.status = .zombie → (F p).status = .zombie)) : Absorbs s t := by
  have hmem : ∀ q ∈ t.procs, ∃ p ∈ s.procs, q = F p := by
    intro q hq
    rw [hp] at hq
    obtain ⟨p, hpm, rfl⟩ := List.mem_map.mp hq
    exact ⟨p, (List.mem_filter.mp hpm).1, rfl⟩
  constructor
  · intro q hq hz hk
    obtain ⟨p, hpm, rfl⟩ := hmem q hq
    rw [Killable, (ha p hpm).2] at hk
    rw [(ha p hpm).1, hc]
    cases hst p hpm hk with
    | inl h => exact h.2
    | inr h => exact hi p hpm (by_contra fun hne => h.1 hne hz) hk
  · intro p hpm hz hk q hq hqp
    obtain ⟨p', hpm', rfl⟩ := hmem q hq
    have hpp : p' = p := addr_inj hl.nodup hpm' hpm ((ha p' hpm').1.symm.trans hqp)
    subst hpp
    cases hst p' hpm hk with
    | inl h => exact h.1
    | inr h => exact h.2 hz

theorem Quiet.absorbs (hs : Sane s) (hi : OnlyCurrentZombie s) (h : Quiet s t) : Absorbs s t := by
  obtain ⟨f, hp, hf⟩ := h.procs
  refine .of_map hs.listed hi (by rw [filter_all, hp]) h.current
    (fun p _ => by rw [hf p]; exact ⟨rfl, rfl⟩) fun p _ _ => .inr ?_
  rw [hf p]
  exact ⟨id, id⟩

theorem Absorbs.trans_quiet (hq : Quiet s u) (h : Absorbs u t) : Absorbs s t := by
  obtain ⟨f, hp, hf⟩ := hq.procs
  refine ⟨h.1, fun p hpm hz hk q hqm hqp => ?_⟩
  have hfm : f p ∈ u.procs := hp ▸ List.mem_map_of_mem hpm
  refine h.2 (f p) hfm ?_ ?_ q hqm ?_
  · rw [hf p]
    exact hz
  · rw [hf p]
    exact hk
  · rw [hf p]
    exact hqp

theorem kill_absorbs {r : Removal} (hs : Sane s) (hi : OnlyCurrentZombie s)
    (h : Removed ev.regs.ebx s r) : Absorbs s r.sched := by
  cases h with
  | refused => exact (Quiet.refl s).absorbs hs hi
  | self =>
    refine .of_map hs.listed hi (by rw [filter_all]) rfl (fun p _ => by simp) fun p _ _ => ?_
    by_cases hpa : p.addr = s.current
    · rw [onAddr_of_eq hpa]
      exact .inl ⟨rfl, hpa⟩
    · rw [onAddr_of_ne hpa]
      exact .inr ⟨id, id⟩
  | absent _ _ _ _ _ hf =>
    refine .of_map hs.listed hi (by rw [filter_all]) rfl
      (fun p hp => ⟨(hf p hp).addr, (hf p hp).pid⟩) fun p hp _ => .inr ?_
    rw [(hf p hp).status]
    exact ⟨id, id⟩
  | gone _ _ _ _ _ _ hf =>
    refine .of_map hs.listed hi rfl rfl
      (fun p hp => ⟨(hf p hp).addr, (hf p hp).pid⟩) fun p hp _ => .inr ?_
    rw [(hf p hp).status]
    exact ⟨id, id⟩

theorem Interrupted.absorbs {scancode : Nat} {focused : Bool} (hs : Sane s)
    (hi : OnlyCurrentZombie s) (hg : InterruptsCurrent s ev)
    (he : ev.entry = .keyboard scancode focused) (hc : isCtrlC scancode s)
    (h : Interrupted s t) : Absorbs s t := by
  simp only [InterruptsCurrent, he] at hg
  refine .of_map hs.listed hi (by rw [filter_all, h.procs]) h.current (fun p _ => by simp)
    fun p hp hk => ?_
  by_cases hf : foreground s = some p.addr
  · rw [interrupted_of hf]
    obtain ⟨x, hx, hxa, hxp⟩ := firstKey_mem hf
    have hpid : p.pid = s.foregroundPid := by
      rw [← addr_inj hs.listed.nodup hx hp hxa]
      simpa using hxp
    have hnot : ¬(s.foregroundPid = 1 ∨ s.foregroundPid = 2) := hpid ▸ hk
    exact .inl ⟨rfl, (((hg hc).resolve_left h.nonzero).resolve_left hnot) p hp hpid⟩
  · rw [interrupted_of_not hf]
    exact .inr ⟨id, id⟩

theorem Delivery.absorbs {regs : Registers} {a : Nat} {w : Pcb} (hs : Sane s)
    (hi : OnlyCurrentZombie s) (h : Delivery s regs a w t) : Absorbs s t := by
  refine .of_map hs.listed hi (by rw [filter_all, h.procs]) h.current (fun p _ => by simp)
    fun p hp hk => .inr ?_
  have hnz : p.status ≠ .zombie := fun hz => h.live p hp (hi p hp hz hk) hz
  refine ⟨fun _ => ?_, fun hz => absurd hz hnz⟩
  by_cases hpa : p.addr = a
  · rw [delivered_at hpa]
    simp
  · rw [delivered, onAddr_of_ne (by simpa using hpa), onAddr_setRegisters_status]
    exact hnz

theorem step_absorbs (hs : Sane s) (hd : Distinct s) (hi : OnlyCurrentZombie s)
    (hg : ZombieGuard s ev) (h : step s ev = some t) : Absorbs s t := by
  obtain ⟨_, _, heff⟩ := step_effect hs.listed h
  cases heff with
  | quiet hq => exact hq.absorbs hs hi
  | schedule he hu =>
    obtain ⟨hnone, hgone⟩ := schedule_onlyCurrent hs hd hi hg he hu
    refine ⟨fun q hq hz hk => absurd hk (hnone q hq hz), fun p hp hz hk q hq hqp => ?_⟩
    exact absurd (List.mem_map.mpr ⟨q, hq, hqp⟩) (hgone p hp hz hk)
  | fork _ hc hp hcur =>
    constructor
    · intro q hq hz hk
      rw [hp] at hq
      rw [hcur]
      cases List.mem_append.mp hq with
      | inl hq => exact hi q hq hz hk
      | inr hq =>
        rw [List.mem_singleton.mp hq, hc.status] at hz
        cases hz
    · intro p hpm hz hk q hq hqp
      rw [hp] at hq
      cases List.mem_append.mp hq with
      | inl hq => exact addr_inj hs.listed.nodup hpm hq hqp.symm ▸ hz
      | inr hq =>
        rw [List.mem_singleton.mp hq] at hqp
        exact absurd (List.mem_map.mpr ⟨p, hpm, hqp.symm⟩) hc.fresh
  | kill _ hr => exact kill_absorbs hs hi hr
  | interrupt he hc hint =>
    cases sigintForeground_cases hs.listed hint with
    | inl hq => exact hq.absorbs hs hi
    | inr hint => exact hint.absorbs hs hi hg.2.1 he hc
  | wake _ hq hw =>
    have hab := hq.absorbs hs hi
    cases stdinWakeProcess_cases (hq.sane hs).listed hw with
    | inl he => exact he ▸ hab
    | inr hdel =>
      obtain ⟨a, p, hdel⟩ := hdel
      exact (hdel.absorbs (hq.sane hs) hab.1).trans_quiet hq

end Round

theorem boot_onlyCurrent (c : BootConfig) : OnlyCurrentZombie (boot c) :=
  fun p hp hz => absurd hz (boot_awake c p hp).2

def Survives (p : Pcb) (s : Sched) (ev : Event) : Prop :=
  ∀ t ∈ step s ev, p.addr ∈ t.procs.map Pcb.addr

instance (p : Pcb) (s : Sched) (ev : Event) : Decidable (Survives p s ev) :=
  match h : step s ev with
  | none => .isTrue (by simp [Survives, h])
  | some t => decidable_of_iff (p.addr ∈ t.procs.map Pcb.addr) (by simp [Survives, h])

structure ZombieInv (s : Sched) : Prop where
  sane : Sane s
  distinct : Distinct s
  only : OnlyCurrentZombie s

theorem ZombieInv.step {s t : Sched} {ev : Event} (hi : ZombieInv s) (hg : ZombieGuard s ev)
    (h : step s ev = some t) : ZombieInv t where
  sane := step_sane hi.sane h
  distinct := step_distinct hi.sane hi.distinct hg.1 h
  only := (step_absorbs hi.sane hi.distinct hi.only hg h).1

theorem reach_zombieInv {c : BootConfig} {s : Sched} (h : Reach step ZombieGuard (boot c) s) :
    ZombieInv s :=
  h.invariant ZombieInv ⟨boot_sane c, boot_distinct c, boot_onlyCurrent c⟩
    fun _ _ _ hi hg ht => hi.step hg ht

def StaysZombie (p : Pcb) (s : Sched) : Prop :=
  ∃ q ∈ s.procs, q.addr = p.addr ∧ q.pid = p.pid ∧ q.status = .zombie

instance (p : Pcb) (s : Sched) : Decidable (StaysZombie p s) :=
  inferInstanceAs (Decidable (∃ q ∈ s.procs, _ ∧ _))

theorem step_staysZombie {s t : Sched} {ev : Event} {p : Pcb} (hi : ZombieInv s)
    (hg : ZombieGuard s ev) (hk : Killable p) (hz : StaysZombie p s) (h : step s ev = some t)
    (hl : p.addr ∈ t.procs.map Pcb.addr) : StaysZombie p t := by
  obtain ⟨q, hq, hqa, hqp, hqz⟩ := hz
  obtain ⟨q', hq', ha⟩ := List.mem_map.mp hl
  have hk' : Killable q := by
    rw [Killable, hqp]
    exact hk
  have haq := ha.trans hqa.symm
  refine ⟨q', hq', ha, (step_pid hi.sane h hq hq' haq).trans hqp, ?_⟩
  exact (step_absorbs hi.sane hi.distinct hi.only hg h).2 q hq hqz hk' q' hq' haq

/-- Until it is removed a ZOMBIE stays one, and update_scheduler removes it without resuming it. -/
theorem zombie_absorbing {c : BootConfig} {s t : Sched} {p : Pcb}
    (h : Reach step ZombieGuard (boot c) s) (hp : p ∈ s.procs) (hz : p.status = .zombie)
    (hk : Killable p) (h' : Reach step (fun s ev => ZombieGuard s ev ∧ Survives p s ev) s t) :
    StaysZombie p t ∧ ∀ ev v, ZombieGuard t ev → (enters t ev).isSome → step t ev = some v →
      v.current ≠ p.addr ∧ p.addr ∉ v.procs.map Pcb.addr := by
  obtain ⟨hi, hzt⟩ := h'.invariant (fun t => ZombieInv t ∧ StaysZombie p t)
    ⟨reach_zombieInv h, p, hp, rfl, rfl, hz⟩ fun s ev t hi hg ht =>
      ⟨hi.1.step hg.1 ht, step_staysZombie hi.1 hg.1 hk hi.2 ht (hg.2 t ht)⟩
  refine ⟨hzt, fun ev v hg hent hv => ?_⟩
  obtain ⟨u, hu⟩ := Option.isSome_iff_exists.mp hent
  obtain ⟨q, hq, hqa, hqp, hqz⟩ := hzt
  have hk' : Killable q := by
    rw [Killable, hqp]
    exact hk
  obtain ⟨cur, _, _, hcur⟩ := currentProcess_eq hi.sane.listed
  obtain ⟨out, hout, rfl⟩ := Option.map_eq_some_iff.mp hv
  rw [handle_of_enters hcur hu] at hout
  have hgone := (schedule_onlyCurrent hi.sane hi.distinct hi.only hg hu hout).2 q hq hqz hk'
  rw [hqa] at hgone
  refine ⟨fun hc => hgone ?_, hgone⟩
  obtain ⟨n, hn, hna⟩ := (step_sane hi.sane hv).listed.current
  exact List.mem_map.mpr ⟨n, hn, hna.trans hc⟩

def selfKillRun : List Event := [forkAt 0x200000, call 13 3 0] ++ quantum ++ [call 12 3 0]

theorem selfKillRun_absorbed : ∃ s t p, Reach step ZombieGuard (boot sampleBoot) s ∧
    p ∈ s.procs ∧ p.pid = 3 ∧ run step [call 25 0 0] s = some t ∧ StaysZombie p t := by
  have hrun : ∃ s, Reach step ZombieGuard (boot sampleBoot) s ∧ ∃ p ∈ s.procs, p.pid = 3 ∧
      p.status = .zombie ∧ Killable p ∧ (run step [call 25 0 0] s).isSome ∧
      Guarded step (fun s ev => ZombieGuard s ev ∧ Survives p s ev) [call 25 0 0] s :=
    reach_of_test selfKillRun (by decide +kernel) (by decide +kernel)
  obtain ⟨s, hs, p, hp, hpid, hz, hk, hsome, hg⟩ := hrun
  obtain ⟨t, ht⟩ := Option.isSome_iff_exists.mp hsome
  exact ⟨s, t, p, hs, hp, hpid, ht, (zombie_absorbing hs hp hz hk (reach_of_run _ hg ht)).1⟩

/- main forks 3 and waits for it; Ctrl+C arrives while idle runs. -/
def interruptRun : List Event := [forkAt 0x200000, call 13 3 0, keyDown 0x1D, keyDown 0x2E]

/-- At the end of idle's quantum the interrupted process is selected and runs again. -/
theorem interruptRun_resumes : ¬ ∀ c s t p, Reach step anyStep (boot c) s → p ∈ s.procs →
    p.status = .zombie → Killable p →
    Reach step (fun s ev => anyStep s ev ∧ Survives p s ev) s t → StaysZombie p t := by
  intro h
  have hrun : ∃ s, Reach step anyStep (boot sampleBoot) s ∧ ∃ p ∈ s.procs,
      p.status = .zombie ∧ Killable p ∧
      Guarded step (fun s ev => anyStep s ev ∧ Survives p s ev) quantum s ∧
      (run step quantum s).any fun t => decide (¬StaysZombie p t) :=
    reach_of_test interruptRun (guarded_anyStep _ _) (by decide +kernel)
  obtain ⟨s, hs, p, hp, hz, hk, hg, hend⟩ := hrun
  obtain ⟨t, ht, hnot⟩ := reach_of_test quantum hg hend
  exact hnot (h _ s t p hs hp hz hk ht)

end AdamOS.Lifecycle
