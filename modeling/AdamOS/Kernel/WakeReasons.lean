import AdamOS.Kernel.StdinQueue
import AdamOS.Kernel.Zombie

/-! Why a process leaves WAITING. One status stands for three waits; sleep_ticks and waiting_pid
outlive theirs. A wake-up has its proper reason as long as neither field is stale in a process
that is WAITING for something else when update_scheduler looks at it. -/
namespace AdamOS.Lifecycle
open AdamOS.Process AdamOS.Scheduler AdamOS.ListUpdate AdamOS.Word AdamOS.Transition

/- WAITING in the call `sc`, the caller of the entry included. -/
def blockedAs (w : Sched) (regs : Registers) (sc : Syscall) (p : Pcb) : Prop :=
  p.status = .waiting ∧ Syscall.ofNumber (frame w regs p).eax = some sc

instance (w : Sched) (regs : Registers) (sc : Syscall) (p : Pcb) :
    Decidable (blockedAs w regs sc p) := inferInstanceAs (Decidable (_ ∧ _))

/- The state from which processes are woken: the one update_scheduler is entered with, if it is. -/
def onEntry (s : Sched) (ev : Event) : Sched := (enters s ev).getD s

/- The reasons for which `p`, WAITING in `w`, may be awake as `q` in `t`. -/
inductive WakeReason (w : Sched) (ev : Event) (t : Sched) (p q : Pcb) : Prop
  | slept : blockedAs w ev.regs .sleep p → p.sleepTicks = 1 → q.sleepTicks = 0 →
      WakeReason w ev t p q
  | reaped {r : Pcb} : blockedAs w ev.regs .wait p → r ∈ w.procs → r.pid = p.waitingPid →
      r.addr ∉ t.procs.map Pcb.addr → WakeReason w ev t p q
  | delivered {scancode : Nat} {focused : Bool} : blockedAs w ev.regs .read p →
      ev.entry = .keyboard scancode focused → queued w = some p.addr → q.status = .ready →
      q.registers.eax = deliveredCount (handleInput scancode focused w).stdin →
      WakeReason w ev t p q

def WakesForReason (s : Sched) (ev : Event) (t : Sched) : Prop :=
  ∀ p ∈ (onEntry s ev).procs, p.status = .waiting → ∀ q ∈ t.procs, q.addr = p.addr →
    q.status = .ready ∨ q.status = .running → WakeReason (onEntry s ev) ev t p q

def HandsWaitOn (s : Sched) (ev : Event) (t : Sched) : Prop :=
  ∀ p ∈ (onEntry s ev).procs, p.status = .waiting → ∀ q ∈ t.procs, q.addr = p.addr →
    q.status = .waiting → q.waitingPid = p.waitingPid ∨
      ∃ child ∈ (onEntry s ev).procs, child.parentPid = p.waitingPid ∧ q.waitingPid = child.pid

def TickEndsSleep (regs : Registers) (u : Sched) : Prop :=
  ∀ p ∈ u.procs, p.status = .waiting → p.sleepTicks = 1 → blockedAs u regs .sleep p

/- scheduler_wake finds a process that is blocked in waitpid, if it finds a WAITING one, and the
process it wakes for is going to be removed. -/
def WakeEndsWait (regs : Registers) (u : Sched) : Prop :=
  ∀ p ∈ u.procs, p.status = .waiting → ∀ d ∈ u.procs, d.addr = u.current → d.status = .zombie →
    firstWaiter d.pid u.procs = some p.addr →
    blockedAs u regs .wait p ∧ ¬(d.pid = 1 ∨ d.pid = 2)

def WakeGuard (s : Sched) (ev : Event) : Prop :=
  FreshPid s ev ∧ ReadsLive s ev ∧ KillsNoReader s ev ∧
    OnEntry (fun u => TickEndsSleep ev.regs u ∧ WakeEndsWait ev.regs u) s ev

instance (regs : Registers) (u : Sched) : Decidable (TickEndsSleep regs u) :=
  inferInstanceAs (Decidable (∀ p ∈ u.procs, _ → _))

instance (regs : Registers) (u : Sched) : Decidable (WakeEndsWait regs u) :=
  inferInstanceAs (Decidable (∀ p ∈ u.procs, _ → _))

instance (s : Sched) (ev : Event) : Decidable (WakeGuard s ev) :=
  inferInstanceAs (Decidable (_ ∧ _))

section Step
variable {s t u : Sched} {ev : Event}

theorem blockedAs_unique {w : Sched} {regs : Registers} {sc sc' : Syscall} {p : Pcb}
    (h : blockedAs w regs sc p) (h' : blockedAs w regs sc' p) : sc = sc' :=
  Option.some.inj (h.2.symm.trans h'.2)

/-- The guard of the wake-ups leaves the process in the slot alone. -/
theorem WakeGuard.slotGuard (hs : Sane s) (hi : SlotReads s) (hg : WakeGuard s ev) :
    SlotGuard s ev := by
  refine ⟨hg.1, hg.2.1, hg.2.2.1, fun u he p hp hq => ?_⟩
  obtain ⟨cur, f, hent⟩ := enters_spec hs.listed he
  have hlu := hent.listed hs.listed
  obtain ⟨r, hr, hra, hrb⟩ := entered_slotReads hs hi hg.2.1 hent hq
  have hread : blockedAs u ev.regs .read p := by
    rw [← addr_inj hlu.nodup hr hp hra]
    exact hrb
  obtain ⟨htick, hwake⟩ := hg.2.2.2 u he
  constructor
  · intro ht
    cases blockedAs_unique hread (htick p hp hread.1 ht)
  · rintro ⟨d, hd, hda, hdz, hf⟩
    cases blockedAs_unique hread (hwake p hp hread.1 d hd hda hdz hf).1

/-- Woken for a ZOMBIE that may be removed, a process sees it removed in the same round. -/
theorem round_reaps {regs : Registers} {ps : List Pcb} {n : Nat} {rel : Option Pcb} {d p : Pcb}
    (hl : Listed u) (hd : Distinct u) (h : Round u regs ps n rel) (hm : d ∈ u.procs)
    (ha : d.addr = u.current) (hz : d.status = .zombie) (hk : ¬(d.pid = 1 ∨ d.pid = 2))
    (hp : p ∈ u.procs) (hw : p.status = .waiting) (hf : firstWaiter d.pid u.procs = some p.addr) :
    d.addr ∉ ps.map Pcb.addr := by
  have hne : p.addr ≠ u.current := by
    intro he
    rw [addr_inj hl.nodup hp hm (he.trans ha.symm), hz] at hw
    cases hw
  have hother : OtherAwake u d := by
    refine ⟨p, hp, hne, ?_⟩
    rw [wakeFirst_of_first (by simpa using hf)]
    simp
  intro hmem
  obtain ⟨q, hq, hqd⟩ := List.mem_map.mp hmem
  exact round_buries hl hd h hm ha hz hk hother q hq hqd

theorem schedule_wakeReason {out : Outcome} (hs : Sane s) (hd : Distinct s) (hg : WakeGuard s ev)
    (he : enters s ev = some u)
    (h : updateScheduler ev.env.dyingParent ev.regs u = some out) :
    WakesForReason s ev out.sched := by
  obtain ⟨cur, f, hent⟩ := enters_spec hs.listed he
  have hlu := hent.listed hs.listed
  obtain ⟨hround, -⟩ := updateScheduler_round hlu h
  obtain ⟨htick, hwake⟩ := hg.2.2.2 u he
  rw [WakesForReason, onEntry, he, Option.getD_some]
  intro p hp hw q hq hqp hawake
  obtain ⟨p', hp', hm⟩ := round_asleep hlu hround hq
  have hpp : p' = p := addr_inj hlu.nodup hp' hp (hm.addr.symm.trans hqp)
  subst hpp
  have hnw : q.status ≠ .waiting := by
    cases hawake with
    | inl h => simp [h]
    | inr h => simp [h]
  cases (hm.roused hw hnw).1 with
  | inl ht => exact .slept (htick p' hp hw ht) ht (by rw [hm.sleepTicks, ht])
  | inr hwoken =>
    obtain ⟨d, hdm, hda, hdz, hf⟩ := hwoken
    obtain ⟨hblk, hk⟩ := hwake p' hp hw d hdm hda hdz hf
    obtain ⟨x, hx, hxa, hxw⟩ := firstKey_mem hf
    have hpd : p'.waitingPid = d.pid := by
      rw [← addr_inj hlu.nodup hx hp hxa]
      simpa [waitsFor] using hxw
    exact .reaped hblk hdm hpd.symm
      (round_reaps hlu (hent.distinct hd) hround hdm hda hdz hk hp hw hf)

theorem schedule_handsWaitOn {out : Outcome} (hs : Sane s) (he : enters s ev = some u)
    (h : updateScheduler ev.env.dyingParent ev.regs u = some out) :
    HandsWaitOn s ev out.sched := by
  obtain ⟨cur, f, hent⟩ := enters_spec hs.listed he
  have hlu := hent.listed hs.listed
  obtain ⟨hround, -⟩ := updateScheduler_round hlu h
  rw [HandsWaitOn, onEntry, he, Option.getD_some]
  intro p hp hw q hq hqp _
  obtain ⟨p', hp', hm⟩ := round_asleep hlu hround hq
  have hpp : p' = p := addr_inj hlu.nodup hp' hp (hm.addr.symm.trans hqp)
  subst hpp
  cases hm.waitingPid with
  | inl h => exact .inl h
  | inr h =>
    obtain ⟨d, _, _, _, _, hpd, child, hc, hcd, hcq⟩ := h
    exact .inr ⟨child, hc, hcd.trans hpd.symm, hcq⟩

/- A step without update_scheduler in which every WAITING process stays as it is, ends as a
ZOMBIE or has its wait handed on. -/
def Undisturbed (s t : Sched) : Prop :=
  ∀ p ∈ s.procs, p.status = .waiting → ∀ q ∈ t.procs, q.addr = p.addr →
    (q.status = .waiting ∨ q.status = .zombie) ∧ (q.waitingPid = p.waitingPid ∨
      ∃ child ∈ s.procs, child.parentPid = p.waitingPid ∧ q.waitingPid = child.pid)

theorem Undisturbed.reasons (h : Undisturbed s t) (hno : enters s ev = none) :
    WakesForReason s ev t ∧ HandsWaitOn s ev t := by
  rw [WakesForReason, HandsWaitOn, onEntry, hno, Option.getD_none]
  constructor
  · intro p hp hw q hq hqp hawake
    exfalso
    cases (h p hp hw q hq hqp).1 with
    | inl hst => simp [hst] at hawake
    | inr hst => simp [hst] at hawake
  · intro p hp hw q hq hqp _
    exact (h p hp hw q hq hqp).2

theorem Undisturbed.of_map {F : Pcb → Pcb} {keep : Pcb → Bool} (hs : Sane s)
    (hp : t.procs = (s.procs.filter keep).map F) (ha : ∀ p ∈ s.procs, (F p).addr = p.addr)
    (hst : ∀ p ∈ s.procs, p.status = .waiting →
      ((F p).status = .waiting ∨ (F p).status = .zombie) ∧ ((F p).waitingPid = p.waitingPid ∨
        ∃ child ∈ s.procs, child.parentPid = p.waitingPid ∧ (F p).waitingPid = child.pid)) :
    Undisturbed s t := by
  intro p hpm hw q hq hqp
  rw [hp] at hq
  obtain ⟨p', hpf, rfl⟩ := List.mem_map.mp hq
  have hpm' := (List.mem_filter.mp hpf).1
  have hpp : p' = p := addr_inj hs.listed.nodup hpm' hpm ((ha p' hpm').symm.trans hqp)
  exact hpp ▸ hst p' hpm' (hpp ▸ hw)

theorem Quiet.undisturbed (hs : Sane s) (h : Quiet s t) : Undisturbed s t := by
  obtain ⟨f, hp, hf⟩ := h.procs
  refine .of_map hs (by rw [filter_all, hp]) (fun p _ => by rw [hf p]) fun p _ hw => ?_
  rw [hf p]
  exact ⟨.inl hw, .inl rfl⟩

theorem fork_undisturbed {child : Pcb} (hs : Sane s) (hc : Child s ev child)
    (hp : t.procs = s.procs ++ [child]) : Undisturbed s t := by
  intro p hpm hw q hq hqp
  rw [hp] at hq
  cases List.mem_append.mp hq with
  | inl hq =>
    rw [addr_inj hs.listed.nodup hq hpm hqp]
    exact ⟨.inl hw, .inl rfl⟩
  | inr hq =>
    rw [List.mem_singleton.mp hq] at hqp
    exact absurd (List.mem_map.mpr ⟨p, hpm, hqp.symm⟩) hc.fresh

theorem kill_undisturbed {r : Removal} {pid : Nat} (hs : Sane s) (h : Removed pid s r) :
    Undisturbed s r.sched := by
  have hhand : ∀ {p q : Pcb}, Handed pid s.procs p q → p.status = .waiting →
      (q.status = .waiting ∨ q.status = .zombie) ∧ (q.waitingPid = p.waitingPid ∨
        ∃ child ∈ s.procs, child.parentPid = p.waitingPid ∧ q.waitingPid = child.pid) := by
    intro p q h hw
    refine ⟨.inl (h.status.trans hw), ?_⟩
    cases h.waiting with
    | inl he => exact .inl he
    | inr he =>
      obtain ⟨hpe, child, hc, hcp, hq⟩ := he
      exact .inr ⟨child, hc, hcp.trans hpe.symm, hq⟩
  cases h with
  | refused => exact (Quiet.refl s).undisturbed hs
  | self =>
    refine .of_map hs (by rw [filter_all]) (fun p _ => by simp) fun p hp hw => ?_
    rw [onAddr_of_ne fun hpa => hs.awake p hp hpa hw]
    exact ⟨.inl hw, .inl rfl⟩
  | absent _ _ _ _ _ hf =>
    exact .of_map hs (by rw [filter_all]) (fun p hp => (hf p hp).addr)
      fun p hp hw => hhand (hf p hp) hw
  | gone _ _ _ _ _ _ hf =>
    exact .of_map hs rfl (fun p hp => (hf p hp).addr) fun p hp hw => hhand (hf p hp) hw

theorem Interrupted.undisturbed (hs : Sane s) (h : Interrupted s t) : Undisturbed s t := by
  refine .of_map hs (by rw [filter_all, h.procs]) (fun p _ => by simp) fun p _ hw => ?_
  by_cases hf : foreground s = some p.addr
  · rw [interrupted_of hf]
    exact ⟨.inr rfl, .inl rfl⟩
  · rw [interrupted_of_not hf]
    exact ⟨.inl hw, .inl rfl⟩

/-- A key press wakes the process in the slot, with its count in eax, and nobody else. -/
theorem delivery_reasons {scancode : Nat} {focused : Bool} {a : Nat} {w : Pcb} (hs : Sane s)
    (hi : SlotReads s) (hno : enters s ev = none) (he : ev.entry = .keyboard scancode focused)
    (hq : Quiet s (handleInput scancode focused s))
    (h : Delivery (handleInput scancode focused s) ev.regs a w t) :
    WakesForReason s ev t ∧ HandsWaitOn s ev t := by
  obtain ⟨f, hp, hf⟩ := hq.procs
  have hu := hq.sane hs
  have hmem : ∀ p ∈ s.procs, ∀ q ∈ t.procs, q.addr = p.addr →
      q = delivered ev.regs (handleInput scancode focused s).current a
        (deliveredCount (handleInput scancode focused s).stdin) (f p) := by
    intro p hpm q hqm hqp
    rw [h.procs, hp, List.map_map] at hqm
    obtain ⟨p', hpm', rfl⟩ := List.mem_map.mp hqm
    have hpp : p' = p := by
      refine addr_inj hs.listed.nodup hpm' hpm ?_
      rw [Function.comp, delivered_addr] at hqp
      rwa [hf p'] at hqp
    rw [hpp]
    rfl
  have hne : ∀ p ∈ s.procs, p.status = .waiting →
      (f p).addr ≠ (handleInput scancode focused s).current := by
    intro p hpm hw hpa
    refine hu.awake (f p) (hp ▸ List.mem_map_of_mem hpm) hpa ?_
    rw [hf p]
    exact hw
  rw [WakesForReason, HandsWaitOn, onEntry, hno, Option.getD_none]
  constructor
  · intro p hpm hw q hqm hqp hawake
    have hqe := hmem p hpm q hqm hqp
    by_cases hpa : (f p).addr = a
    · rw [delivered_at hpa, onAddr_of_ne (hne p hpm hw)] at hqe
      have hsa : queued s = some a := by
        rw [← h.slot]
        exact congrArg (·.process) hq.slot.symm
      obtain ⟨r, hr, hra, hb⟩ := hi a hsa
      have hpr : p.addr = a := by
        rw [hf p] at hpa
        exact hpa
      have hrp := addr_inj hs.listed.nodup hr hpm (hra.trans hpr.symm)
      have hpc : p.addr ≠ s.current := fun hpc => hs.awake p hpm hpc hw
      refine .delivered ⟨hw, ?_⟩ he (hpr ▸ hsa) ?_ ?_
      · rw [frame, if_neg hpc]
        exact (hrp ▸ hb).2
      · rw [hqe]
        rfl
      · rw [hqe]
        rfl
    · rw [delivered_ne hpa (hne p hpm hw)] at hqe
      have hst : q.status = .waiting := by
        rw [hqe, hf p]
        exact hw
      simp [hst] at hawake
  · intro p hpm hw q hqm hqp hqw
    left
    have hqe := hmem p hpm q hqm hqp
    by_cases hpa : (f p).addr = a
    · rw [delivered_at hpa] at hqe
      rw [hqe] at hqw
      cases hqw
    · rw [delivered_ne hpa (hne p hpm hw)] at hqe
      rw [hqe, hf p]

theorem step_reasons (hi : SlotInv s) (hg : WakeGuard s ev) (h : step s ev = some t) :
    WakesForReason s ev t ∧ HandsWaitOn s ev t := by
  have hs := hi.sane
  cases he : enters s ev with
  | some u =>
    obtain ⟨cur, _, _, hcur⟩ := currentProcess_eq hs.listed
    obtain ⟨out, hout, rfl⟩ := Option.map_eq_some_iff.mp h
    rw [handle_of_enters hcur he] at hout
    exact ⟨schedule_wakeReason hs hi.distinct hg he hout, schedule_handsWaitOn hs he hout⟩
  | none =>
    obtain ⟨_, _, heff⟩ := step_effect hs.listed h
    cases heff with
    | quiet hq => exact (hq.undisturbed hs).reasons he
    | schedule hu => simp [he] at hu
    | fork _ hc hp => exact (fork_undisturbed hs hc hp).reasons he
    | kill _ hr => exact (kill_undisturbed hs hr).reasons he
    | interrupt _ _ hint =>
      cases sigintForeground_cases hs.listed hint with
      | inl hq => exact (hq.undisturbed hs).reasons he
      | inr hint => exact (hint.undisturbed hs).reasons he
    | wake hkey hq hw =>
      cases stdinWakeProcess_cases (hq.sane hs).listed hw with
      | inl heq => exact heq ▸ (hq.undisturbed hs).reasons he
      | inr hdel =>
        obtain ⟨a, p, hdel⟩ := hdel
        exact delivery_reasons hs hi.reads he hkey hq hdel

end Step

/-- In a guarded run every process leaves WAITING for the reason it waits. -/
theorem wakes_for_reason {c : BootConfig} {s t : Sched} {ev : Event}
    (h : Reach step WakeGuard (boot c) s) (hg : WakeGuard s ev) (ht : step s ev = some t) :
    WakesForReason s ev t ∧ HandsWaitOn s ev t := by
  have hi := h.invariant SlotInv (boot_slotInv c) fun _ _ _ hi hg ht =>
    hi.step (hg.slotGuard hi.sane hi.reads) ht
  exact step_reasons hi hg ht

def awaitedRun : List Event := [forkAt 0x200000, call 13 3 0] ++ quantum

theorem awaitedRun_reason : ∃ s t, run step awaitedRun (boot sampleBoot) = some s ∧
    step s (call 1 0 0) = some t ∧ WakesForReason s (call 1 0 0) t := by
  have h : (run step awaitedRun (boot sampleBoot)).any fun s =>
      decide (WakeGuard s (call 1 0 0)) && (step s (call 1 0 0)).isSome := by decide +kernel
  obtain ⟨s, hs, hand⟩ := (Option.any_eq_true _ _).mp h
  obtain ⟨hg, hsome⟩ := (Bool.and_eq_true ..).mp hand
  obtain ⟨t, ht⟩ := Option.isSome_iff_exists.mp hsome
  exact ⟨s, t, hs, ht,
    (wakes_for_reason (reach_of_run awaitedRun (by decide +kernel) hs) (of_decide_eq_true hg) ht).1⟩

/- main waits for 3; 3 forks 4 and exits, so main wakes with its waiting_pid handed on to 4; main
sleeps and 4 is about to exit. -/
def staleRun : List Event :=
  awaitedRun ++ [forkAt 0x210000, call 1 0 0] ++ quantum ++ [call 16 1000 0] ++ quantum

/-- The exit of 4 ends main's sleep long before its time. -/
theorem staleRun_wakes : ¬ ∀ c s ev t, Reach step anyStep (boot c) s → step s ev = some t →
    WakesForReason s ev t := by
  intro h
  have hrun : ∃ s, Reach step anyStep (boot sampleBoot) s ∧ (step s (call 1 0 0)).any fun t =>
      decide (∃ p ∈ (onEntry s (call 1 0 0)).procs,
        blockedAs (onEntry s (call 1 0 0)) (call 1 0 0).regs .sleep p ∧ p.sleepTicks ≠ 1 ∧
          ∃ q ∈ t.procs, q.addr = p.addr ∧ (q.status = .ready ∨ q.status = .running)) :=
    reach_of_test staleRun (guarded_anyStep _ _) (by decide +kernel)
  obtain ⟨s, hs, hend⟩ := hrun
  obtain ⟨t, ht, htest⟩ := (Option.any_eq_true _ _).mp hend
  obtain ⟨p, hp, hsleep, hticks, q, hq, hqp, hawake⟩ := of_decide_eq_true htest
  cases h _ s _ t hs ht p hp hsleep.1 q hq hqp hawake with
  | slept _ h1 => exact hticks h1
  | reaped hwait => cases blockedAs_unique hsleep hwait
  | delivered hread => cases blockedAs_unique hsleep hread

end AdamOS.Lifecycle
