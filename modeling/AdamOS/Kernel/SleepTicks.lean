import AdamOS.Kernel.RunQueue

/-! How long sleep lasts. sleep itself calls update_scheduler, and every call of it counts as a
tick, so a sleep of n ticks is over after n - 1 of the timer's. -/
namespace AdamOS.Lifecycle
open AdamOS.Process AdamOS.Scheduler AdamOS.ListUpdate AdamOS.Word AdamOS.Transition

def NoPidWrap (s : Sched) (ev : Event) : Prop := Calls ev .fork → s.pidStatic + 1 < 4294967296

instance (s : Sched) (ev : Event) : Decidable (NoPidWrap s ev) := inferInstanceAs (Decidable (_ → _))

structure Counted (s : Sched) : Prop where
  sane : Sane s
  distinct : Distinct s
  numbered : ∀ p ∈ s.procs, p.pid < s.pidStatic
  bounded : s.pidStatic < 4294967296
  size : s.processQueueSize = s.procs.length

theorem boot_counted (c : BootConfig) : Counted (boot c) where
  sane := boot_sane c
  distinct := boot_distinct c
  numbered := by simp [boot, bootMain, bootIdle, createProcessControlBlock, setStatus]
  bounded := by simp [boot]
  size := rfl

/-! ### The size counter -/

section Count
variable {s t u : Sched} {ev : Event} {out : Outcome}

theorem handle_counts (hs : Sane s) (hf : ¬Calls ev .fork) (h : handle s ev = some out) :
    out.sched.processQueueSize =
        (if out.released.isSome then sub32 s.processQueueSize 1 else s.processQueueSize) ∧
      out.sched.pidStatic = s.pidStatic := by
  have heff := handle_effect hs.listed h
  generalize out.sched = t at heff ⊢
  generalize out.released = released at heff ⊢
  generalize out.regs = regs at heff
  cases heff with
  | quiet hq => exact ⟨hq.queueSize, hq.pidStatic⟩
  | schedule he hu =>
    obtain ⟨cur, f, hent⟩ := enters_spec hs.listed he
    have hlu := hent.listed hs.listed
    obtain ⟨-, hrest⟩ := updateScheduler_round hlu hu
    exact ⟨by rw [updateScheduler_size hlu hu, enters_size he], hrest.pidStatic.trans hent.pidStatic⟩
  | fork hcall => exact absurd hcall hf
  | kill _ hr =>
    cases hr with
    | refused | self | absent => exact ⟨rfl, rfl⟩
    | gone => exact ⟨by rw [Option.isSome_some, if_pos rfl], rfl⟩
  | interrupt _ _ hi =>
    rcases sigintForeground_cases hs.listed hi with hq | hi
    · exact ⟨hq.queueSize, hq.pidStatic⟩
    · exact ⟨hi.queueSize, hi.pidStatic⟩
  | wake _ hq hw =>
    rcases stdinWakeProcess_cases (hq.sane hs).listed hw with he | ⟨a, p, hd⟩
    · rw [he]
      exact ⟨hq.queueSize, hq.pidStatic⟩
    · exact ⟨hd.queueSize.trans hq.queueSize, hd.pidStatic.trans hq.pidStatic⟩

theorem Rewritten.size {F : Pcb → Pcb} {gone : Option Nat} {rel : Option Pcb} (h : Counted s)
    (hr : Rewritten s ev t rel gone F)
    (hsize : t.processQueueSize =
      if rel.isSome then sub32 s.processQueueSize 1 else s.processQueueSize) :
    t.processQueueSize = t.procs.length := by
  rw [hsize, hr.procs, List.length_map]
  rcases hr.released with ⟨rfl, rfl⟩ | ⟨p, hp, g, rfl, rfl, -⟩
  · rw [List.filter_eq_self.mpr fun p _ => by simp]
    exact h.size
  · have hone := length_filter_key h.sane.listed.nodup hp
    have hlen := h.distinct.length_le h.numbered
    have hlt := h.bounded
    rw [Option.isSome_some, if_pos rfl, h.size, sub32_eq (by omega) (by omega)]
    omega

theorem step_counted (h : Counted s) (hg : NoPidWrap s ev) (ht : step s ev = some t) :
    Counted t := by
  have hs := step_sane h.sane ht
  have hd := step_distinct h.sane h.distinct (fun _ p hp => Nat.ne_of_lt (h.numbered p hp)) ht
  obtain ⟨out, hout, rfl⟩ := Option.map_eq_some_iff.mp ht
  by_cases hf : Calls ev .fork
  · have heff := handle_effect h.sane.listed hout
    generalize out.sched = t at heff hs hd ⊢
    generalize out.released = released at heff
    generalize out.regs = regs at heff
    have hlt := hg hf
    have hlen := h.distinct.length_le h.numbered
    cases heff with
    | fork _ hc hp _ _ _ hst _ hsize =>
      rw [wrap_eq hlt] at hst
      refine ⟨hs, hd, fun p hpm => ?_, hst ▸ hlt, ?_⟩
      · rw [hst]
        rw [hp] at hpm
        rcases List.mem_append.mp hpm with hpm | hpm
        · exact Nat.lt_succ_of_lt (h.numbered p hpm)
        · rw [List.mem_singleton.mp hpm, hc.pid]
          exact Nat.lt_succ_self _
      · rw [hsize, hp, h.size, List.length_append, List.length_singleton]
        exact wrap_eq (by omega)
    | quiet _ _ ha => exact absurd hf ha.1
    | schedule he =>
      obtain ⟨cur, _, _, hcur⟩ := currentProcess_eq h.sane.listed
      rw [enters_syscall hcur hf.1] at he
      simp only [hf.2] at he
      cases he
    | kill hk => exact absurd hf (not_calls hk (by decide))
    | interrupt he => exact absurd (hf.1.symm.trans he) (by simp)
    | wake he => exact absurd (hf.1.symm.trans he) (by simp)
  · obtain ⟨hsize, hst⟩ := handle_counts h.sane hf hout
    rcases handle_rewrites h.sane hout with hfork | ⟨gone, F, hr⟩
    · exact absurd hfork.1 hf
    · refine ⟨hs, hd, fun q hq => ?_, hst ▸ h.bounded, hr.size h hsize⟩
      rw [hr.procs] at hq
      obtain ⟨p, hpf, rfl⟩ := List.mem_map.mp hq
      have hp := (List.mem_filter.mp hpf).1
      rw [hr.pid p hp, hst]
      exact h.numbered p hp

end Count

/-! ### The clock -/

/-- Nothing in update_scheduler counts timer interrupts. -/
theorem updateScheduler_timerTicks {s : Sched} {g : Nat} {regs : Registers} {out : Outcome} (hl : Listed s)
    (h : updateScheduler g regs s = some out) : out.sched.timerTicks = s.timerTicks := by
  obtain ⟨cur, hc, ha, -⟩ := currentProcess_eq hl
  rcases updateScheduler_returns hl hc ha h with rfl | ⟨t, hsw, hres⟩
  · rfl
  have hlt := tick_listed hl
  have hrt : out.sched.timerTicks = t.timerTicks := by
    obtain ⟨p, _, h1⟩ := Option.bind_eq_some_iff.mp hres
    rw [← (Prod.mk.inj (Option.some.inj h1)).1]
    rfl
  rw [hrt]
  by_cases hz : (decrementWait cur).status = .zombie
  · obtain ⟨q, -, -, -, r, hr, rfl, -⟩ := switchAway_dead hlt hz hsw
    cases hr <;> rfl
  · obtain ⟨nxt, -, -, -, rfl⟩ := switchAway_live hlt.nodup hz hsw
    rfl

/-! ### A sleeping process under the ticks -/

section Sleep
variable {s t u : Sched} {ev : Event} {p : Pcb}

def Awake (p : Pcb) : Prop := p.status = .ready ∨ p.status = .running

instance (p : Pcb) : Decidable (Awake p) := inferInstanceAs (Decidable (_ ∨ _))

/-- One call of update_scheduler wakes a WAITING process or takes one tick from its sleep. -/
theorem updateScheduler_sleeper {g : Nat} {regs : Registers} {out : Outcome} (hl : Listed u)
    (hd : Distinct u) (hp : p ∈ u.procs) (hw : p.status = .waiting)
    (h : updateScheduler g regs u = some out) :
    ∃ q ∈ out.sched.procs, q.addr = p.addr ∧ q.pid = p.pid ∧
      (Awake q ∨ q.status = .waiting ∧ p.sleepTicks ≠ 1 ∧ q.sleepTicks = p.sleepTicks - 1) := by
  obtain ⟨hround, -⟩ := updateScheduler_round hl h
  obtain ⟨gone, F, hps, hF, hgone, -⟩ := round_moved hl hround
  have hm := hF p hp
  have hkept : gone ≠ some p.addr := by
    intro hg
    obtain ⟨d, hdm, -, hdz, -, x, hx, hxa, hxd⟩ := hgone _ hg
    have hxp := addr_inj hl.nodup hx hp hxa
    rw [hxp] at hxd
    rw [pid_inj hd hp hdm hxd, hdz] at hw
    cases hw
  refine ⟨F p, ?_, hm.addr, hm.pid, ?_⟩
  · rw [hps]
    exact List.mem_map_of_mem (List.mem_filter.mpr ⟨hp, by simpa using hkept⟩)
  · by_cases hq : (F p).status = .waiting
    · exact .inr ⟨hq, (hm.asleep hq).2.1, hm.sleepTicks⟩
    · exact .inl (hm.roused hw hq).2

theorem timer_step (h : Counted s) : ∃ t, step s timerTick = some t ∧
    t.timerTicks ≤ s.timerTicks + 1 ∧ Counted t ∧
    ∀ p ∈ s.procs, p.status = .waiting → ∃ q ∈ t.procs, q.addr = p.addr ∧ q.pid = p.pid ∧
      (Awake q ∨ q.status = .waiting ∧ p.sleepTicks ≠ 1 ∧ q.sleepTicks = p.sleepTicks - 1) := by
  let u : Sched := { s with timerTicks := wrap (s.timerTicks + 1) }
  have hl := h.sane.listed
  have hlu : Listed u := ⟨hl.nodup, hl.current, hl.enabled⟩
  obtain ⟨cur, hc, ha⟩ := hl.current
  have hcw : (decrementWait cur).status ≠ .waiting := fun hw =>
    h.sane.awake cur hc ha (decrementWait_waiting.mp hw).1
  have hone : OneAwake u := ⟨hlu, h.size, cur, hc, hcw⟩
  obtain ⟨out, hout⟩ := hone.returns timerTick.env.dyingParent default
  have hstep : step s timerTick = some out.sched := by
    change (updateScheduler timerTick.env.dyingParent default u).map Outcome.sched = _
    rw [hout]
    rfl
  refine ⟨out.sched, hstep, ?_, ?_, fun p hp hw => updateScheduler_sleeper hlu h.distinct hp hw hout⟩
  · rw [updateScheduler_timerTicks hlu hout]
    exact Nat.mod_le _ _
  · exact step_counted h (fun hc => absurd hc (by decide)) hstep

/-- Left to the timer, a sleeper is awake after as many ticks as it has left, or before. -/
theorem ticks_wake (m : Nat) (h : Counted s) (hp : p ∈ s.procs) (hw : p.status = .waiting)
    (hm : p.sleepTicks = m) (h0 : 0 < m) :
    ∃ k ≤ m, ∃ t, run step (List.replicate k timerTick) s = some t ∧
      t.timerTicks ≤ s.timerTicks + k ∧
      ∃ q ∈ t.procs, q.addr = p.addr ∧ q.pid = p.pid ∧ Awake q := by
  induction m generalizing s p with
  | zero => exact absurd h0 (Nat.lt_irrefl 0)
  | succ m ih =>
    obtain ⟨t, ht, hticks, hct, hall⟩ := timer_step h
    obtain ⟨q, hq, hqa, hqp, hst⟩ := hall p hp hw
    rcases hst with hst | ⟨hqw, hne, hqt⟩
    · exact ⟨1, by omega, t, by simp [run, ht], hticks, q, hq, hqa, hqp, hst⟩
    · obtain ⟨k, hk, v, hv, hvt, r, hr, hra, hrp, hrs⟩ := ih hct hq hqw (by omega) (by omega)
      refine ⟨k + 1, by omega, v, ?_, by omega, r, hr, hra.trans hqa, hrp.trans hqp, hrs⟩
      rw [List.replicate_succ, run, ht, Option.bind_some, hv]

/- From the call on, the process is neither READY nor RUNNING before its time. -/
def SleepLasts (s : Sched) (ev : Event) (p : Pcb) : Prop :=
  ∀ es v, run step (ev :: es) s = some v → v.timerTicks < s.timerTicks + ev.regs.ebx →
    ∀ q ∈ v.procs, q.addr = p.addr → q.pid = p.pid → ¬Awake q

/- A sleep of n ticks that finds everyone else WAITING and nobody due: next_process halts. -/
def NobodyElse (s : Sched) (n : Nat) : Prop :=
  n ≠ 1 ∧ ∀ q ∈ s.procs, q.addr ≠ s.current → q.status = .waiting ∧ q.sleepTicks ≠ 1

theorem sleep_enters (hl : Listed s) (hc : Calls ev .sleep) (hn : 0 < ev.regs.ebx) (hp : p ∈ s.procs)
    (ha : p.addr = s.current) (h1 : p.pid ≠ 1) :
    enters s ev = some (s.modify s.current (sleeps ev.regs.ebx)) := by
  obtain ⟨cur, hcm, hca, hcur⟩ := currentProcess_eq hl
  obtain rfl := addr_inj hl.nodup hcm hp (hca.trans ha.symm)
  rw [enters_syscall hcur hc.1]
  simp only [hc.2]
  rw [if_neg]
  rintro (h0 | h)
  · omega
  · exact h1 h

theorem sleeps_waiting {n : Nat} (hz : p.status ≠ .zombie) : (sleeps n p).status = .waiting :=
  if_neg hz

/-- After the call the process is awake at once or has one tick less than it asked for. -/
theorem sleep_starts (h : Counted s) (hc : Calls ev .sleep) (hn : 0 < ev.regs.ebx)
    (hp : p ∈ s.procs) (ha : p.addr = s.current) (h1 : p.pid ≠ 1) (hz : p.status ≠ .zombie)
    (hother : ¬NobodyElse s ev.regs.ebx) :
    ∃ t, step s ev = some t ∧ t.timerTicks = s.timerTicks ∧ Counted t ∧
      ∃ q ∈ t.procs, q.addr = p.addr ∧ q.pid = p.pid ∧ (Awake q ∨
        q.status = .waiting ∧ ev.regs.ebx ≠ 1 ∧ q.sleepTicks = ev.regs.ebx - 1) := by
  have hl := h.sane.listed
  have he := sleep_enters hl hc hn hp ha h1
  obtain ⟨cur, f, hent⟩ := enters_spec hl he
  have hlu := hent.listed hl
  have hpu : sleeps ev.regs.ebx p ∈ (s.modify s.current (sleeps ev.regs.ebx)).procs := by
    rw [modify_procs]
    exact List.mem_map.mpr ⟨p, hp, onAddr_of_eq ha⟩
  have hsize : (s.modify s.current (sleeps ev.regs.ebx)).processQueueSize =
      (s.modify s.current (sleeps ev.regs.ebx)).procs.length := by
    rw [modify_procs, List.length_map]
    exact h.size
  have hawake : ∃ x ∈ (s.modify s.current (sleeps ev.regs.ebx)).procs,
      (decrementWait x).status ≠ .waiting := by
    by_cases hone : ev.regs.ebx = 1
    · exact ⟨_, hpu, fun hw => (decrementWait_waiting.mp hw).2 hone⟩
    · have hex : ∃ q ∈ s.procs, q.addr ≠ s.current ∧ ¬(q.status = .waiting ∧ q.sleepTicks ≠ 1) := by
        by_contra hno
        refine hother ⟨hone, fun q hq hqc => ?_⟩
        by_contra hq'
        exact hno ⟨q, hq, hqc, hq'⟩
      obtain ⟨q, hq, hqc, hqw⟩ := hex
      refine ⟨q, ?_, fun hw => hqw (decrementWait_waiting.mp hw)⟩
      rw [modify_procs]
      exact List.mem_map.mpr ⟨q, hq, onAddr_of_ne hqc⟩
  have hone : OneAwake (s.modify s.current (sleeps ev.regs.ebx)) := ⟨hlu, hsize, hawake⟩
  obtain ⟨out, hout⟩ := hone.returns ev.env.dyingParent ev.regs
  obtain ⟨c, _, _, hcur⟩ := currentProcess_eq hl
  have hstep : step s ev = some out.sched := by
    rw [step, handle_of_enters hcur he, hout]
    rfl
  have hticks := updateScheduler_timerTicks hlu hout
  refine ⟨out.sched, hstep, hticks, ?_, ?_⟩
  · exact step_counted h (fun hf => absurd hf (not_calls hc (by decide))) hstep
  · exact updateScheduler_sleeper hlu (hent.distinct h.distinct) hpu (sleeps_waiting hz) hout

theorem sleep_halts (hl : Listed s) (hc : Calls ev .sleep) (hn : 0 < ev.regs.ebx)
    (hp : p ∈ s.procs) (ha : p.addr = s.current) (h1 : p.pid ≠ 1) (hz : p.status ≠ .zombie)
    (hnone : NobodyElse s ev.regs.ebx) : step s ev = none := by
  have he := sleep_enters hl hc hn hp ha h1
  obtain ⟨cur, f, hent⟩ := enters_spec hl he
  have hlu := hent.listed hl
  obtain ⟨c, _, _, hcur⟩ := currentProcess_eq hl
  have hall : ∀ x ∈ (s.modify s.current (sleeps ev.regs.ebx)).procs,
      x.status = .waiting ∧ (decrementWait x).status = .waiting := by
    intro x hx
    obtain ⟨q, hq, rfl⟩ := List.mem_map.mp hx
    by_cases hqc : q.addr = s.current
    · obtain rfl := addr_inj hl.nodup hq hp (hqc.trans ha.symm)
      rw [onAddr_of_eq hqc]
      exact ⟨sleeps_waiting hz, decrementWait_waiting.mpr ⟨sleeps_waiting hz, hnone.1⟩⟩
    · rw [onAddr_of_ne hqc]
      exact ⟨(hnone.2 q hq hqc).1, decrementWait_waiting.mpr (hnone.2 q hq hqc)⟩
  rw [step, handle_of_enters hcur he]
  cases hout : updateScheduler ev.env.dyingParent ev.regs
      (s.modify s.current (sleeps ev.regs.ebx)) with
  | none => rfl
  | some out =>
    obtain ⟨hround, -⟩ := updateScheduler_round hlu hout
    generalize out.sched.procs = ps at hround
    generalize out.sched.current = a at hround
    generalize out.released = rel at hround
    cases hround with
    | stay hx _ _ hw => exact absurd (hall _ hx).2 hw
    | switch _ _ _ hx hw => exact absurd (hall _ hx).2 hw
    | keep hx _ hxz =>
      rw [(hall _ hx).1] at hxz
      cases hxz
    | bury hx _ hxz =>
      rw [(hall _ hx).1] at hxz
      cases hxz

end Sleep

/-- A sleep lasts its n ticks only when nobody is left to see it end. -/
theorem sleep_cut_short {c : BootConfig} {s : Sched} (h : Reach step NoPidWrap (boot c) s)
    {ev : Event} (hc : Calls ev .sleep) (hn : 0 < ev.regs.ebx) {p : Pcb} (hp : p ∈ s.procs)
    (ha : p.addr = s.current) (h1 : p.pid ≠ 1) (hz : p.status ≠ .zombie) :
    SleepLasts s ev p ↔ NobodyElse s ev.regs.ebx := by
  have hcount : Counted s :=
    h.invariant Counted (boot_counted c) fun _ _ _ hi hg ht => step_counted hi hg ht
  constructor
  · intro hlasts
    by_contra hother
    obtain ⟨t, ht, hticks, hct, q, hq, hqa, hqp, hst⟩ :=
      sleep_starts hcount hc hn hp ha h1 hz hother
    rcases hst with hst | ⟨hqw, hne, hqt⟩
    · exact hlasts [] t (by simp [run, ht]) (by omega) q hq hqa hqp hst
    · obtain ⟨k, hk, v, hv, hvt, r, hr, hra, hrp, hrs⟩ := ticks_wake _ hct hq hqw hqt (by omega)
      refine hlasts (List.replicate k timerTick) v ?_ (by omega) r hr (hra.trans hqa)
        (hrp.trans hqp) hrs
      rw [run, ht, Option.bind_some, hv]
  · intro hnone es v hv
    rw [run, sleep_halts hcount.sane.listed hc hn hp ha h1 hz hnone] at hv
    cases hv

def nap : Event := call 16 2 0

def napper : Pcb := setStatus .running (bootMain sampleBoot)

theorem nap_cut_short : SleepLasts (boot sampleBoot) nap napper ↔ NobodyElse (boot sampleBoot) 2 :=
  sleep_cut_short .refl (by decide) (by decide) List.mem_cons_self rfl (by decide) (by decide)

/-- After one tick it is awake again. -/
theorem nap_wakes_early : ¬ ∀ c s ev p, Reach step NoPidWrap (boot c) s → Calls ev .sleep →
    0 < ev.regs.ebx → p ∈ s.procs → p.addr = s.current → p.pid ≠ 1 → p.status ≠ .zombie →
    SleepLasts s ev p := by
  intro h
  have hrun : (run step [nap, timerTick] (boot sampleBoot)).any fun v =>
      decide (v.timerTicks < 2 ∧ ∃ q ∈ v.procs, q.addr = napper.addr ∧ q.pid = napper.pid ∧
        Awake q) := by decide +kernel
  obtain ⟨v, hv, hp⟩ := (Option.any_eq_true _ _).mp hrun
  obtain ⟨hticks, q, hq, hqa, hqp, hawake⟩ := of_decide_eq_true hp
  have hlasts := h sampleBoot _ nap napper .refl (by decide) (by decide) List.mem_cons_self rfl
    (by decide) (by decide)
  exact hlasts [timerTick] v hv hticks q hq hqa hqp hawake

end AdamOS.Lifecycle
