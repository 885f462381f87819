import AdamOS.Kernel.Entries
import Mathlib.Data.List.Perm.Subperm

/-! WAITING processes across one entry. The saved frame of a blocked process still holds the
number of the call it blocked in, so its reason can be read off the state. Every reachable state
is `Sane`: the current process is awake and every WAITING one has a reason. -/
namespace AdamOS.Lifecycle
open AdamOS.Process AdamOS.Scheduler AdamOS.ListUpdate AdamOS.Word AdamOS.Transition

def blockedIn (sc : Syscall) (p : Pcb) : Prop :=
  p.status = .waiting ∧ Syscall.ofNumber p.registers.eax = some sc

instance (sc : Syscall) (p : Pcb) : Decidable (blockedIn sc p) :=
  inferInstanceAs (Decidable (_ ∧ _))

/- The frame a process would be resumed with if the entry gave it up now. -/
def frame (s : Sched) (regs : Registers) (p : Pcb) : Registers :=
  if p.addr = s.current then regs else p.registers

def WokenFor (s : Sched) (p : Pcb) : Prop :=
  ∃ d ∈ s.procs, d.addr = s.current ∧ d.status = .zombie ∧
    firstWaiter d.pid s.procs = some p.addr

/- One process before and after a round of update_scheduler that leaves `c` current. -/
structure Moved (s : Sched) (regs : Registers) (c : Nat) (p q : Pcb) : Prop where
  addr : q.addr = p.addr
  pid : q.pid = p.pid
  assets : assets q = assets p
  sleepTicks : q.sleepTicks = p.sleepTicks - 1
  registers : p.addr ≠ s.current → q.registers = p.registers
  saved : p.addr = s.current → p.status ≠ .zombie → c ≠ s.current → q.registers = regs
  asleep : q.status = .waiting → p.status = .waiting ∧ p.sleepTicks ≠ 1 ∧ ¬WokenFor s p ∧
    q.addr ≠ c ∧ q.registers = frame s regs p
  roused : p.status = .waiting → q.status ≠ .waiting →
    (p.sleepTicks = 1 ∨ WokenFor s p) ∧ (q.status = .ready ∨ q.status = .running)
  zombie : q.status = .zombie → p.status = .zombie
  waitingPid : q.waitingPid = p.waitingPid ∨ ∃ d ∈ s.procs, d.addr = s.current ∧
    d.status = .zombie ∧ ¬(d.pid = 1 ∨ d.pid = 2) ∧ p.waitingPid = d.pid ∧
    ∃ child ∈ s.procs, child.parentPid = d.pid ∧ q.waitingPid = child.pid

def Unlinked (s : Sched) (a : Nat) : Prop :=
  ∃ d ∈ s.procs, d.addr = s.current ∧ d.status = .zombie ∧ ¬(d.pid = 1 ∨ d.pid = 2) ∧
    ∃ gone ∈ s.procs, gone.addr = a ∧ gone.pid = d.pid

theorem decrementWait_waiting {p : Pcb} :
    (decrementWait p).status = .waiting ↔ p.status = .waiting ∧ p.sleepTicks ≠ 1 := by
  rw [decrementWait_status]
  by_cases h : p.sleepTicks = 1 <;> by_cases hw : p.status = .waiting <;> simp [h, hw]

theorem decrementWait_roused {p : Pcb} (hw : p.status = .waiting)
    (h : (decrementWait p).status ≠ .waiting) : p.sleepTicks = 1 ∧
      (decrementWait p).status = .ready := by
  by_cases ht : p.sleepTicks = 1
  · exact ⟨ht, by rw [decrementWait_status, if_pos ⟨ht, hw⟩]⟩
  · exact absurd (decrementWait_waiting.mpr ⟨hw, ht⟩) h

theorem moved_tick {s : Sched} {regs : Registers} {cur p : Pcb} (hl : Listed s)
    (hc : cur ∈ s.procs) (ha : cur.addr = s.current) (hz : cur.status ≠ .zombie)
    (hw : (decrementWait cur).status ≠ .waiting) (hp : p ∈ s.procs) :
    Moved s regs s.current p (decrementWait p) where
  addr := decrementWait_addr p
  pid := decrementWait_pid p
  assets := decrementWait_assets p
  sleepTicks := decrementWait_sleepTicks p
  registers := fun _ => decrementWait_registers p
  saved := fun _ _ h => absurd rfl h
  asleep := by
    intro h
    obtain ⟨h1, h2⟩ := decrementWait_waiting.mp h
    have hne : p.addr ≠ s.current := by
      intro he
      rw [addr_inj hl.nodup hp hc (he.trans ha.symm)] at h
      exact hw h
    refine ⟨h1, h2, ?_, by simpa using hne, by simp [frame, hne]⟩
    rintro ⟨d, hd, hda, hdz, -⟩
    rw [addr_inj hl.nodup hd hc (hda.trans ha.symm)] at hdz
    exact hz hdz
  roused := fun h1 h2 => ⟨.inl (decrementWait_roused h1 h2).1, .inl (decrementWait_roused h1 h2).2⟩
  zombie := decrementWait_zombie.mp
  waitingPid := .inl (decrementWait_waitingPid p)

theorem moved_switch {s : Sched} {regs : Registers} {cur nxt p : Pcb} (hl : Listed s)
    (hc : cur ∈ s.procs) (ha : cur.addr = s.current) (hz : cur.status ≠ .zombie)
    (hn : nxt ∈ s.procs) (hw : (decrementWait nxt).status ≠ .waiting) (hp : p ∈ s.procs) :
    Moved s regs nxt.addr p (onAddr nxt.addr (setStatus .running)
      (onAddr s.current (setRegisters regs) (decrementWait p))) where
  addr := by simp
  pid := by simp
  assets := by simp
  sleepTicks := by simp
  registers := by
    intro hp
    rw [onAddr_setStatus_registers, onAddr_of_ne (by simpa using hp), decrementWait_registers]
  saved := by
    intro hp _ _
    rw [onAddr_setStatus_registers, onAddr_of_eq (by simpa using hp)]
    rfl
  asleep := by
    intro h
    by_cases he : p.addr = nxt.addr
    · rw [onAddr_of_eq (by simpa using he)] at h
      cases h
    rw [onAddr_of_ne (by simpa using he)] at h ⊢
    obtain ⟨h1, h2⟩ := decrementWait_waiting.mp (by simpa using h)
    refine ⟨h1, h2, ?_, by simpa using he, ?_⟩
    · rintro ⟨d, hd, hda, hdz, -⟩
      rw [addr_inj hl.nodup hd hc (hda.trans ha.symm)] at hdz
      exact hz hdz
    · by_cases hpc : p.addr = s.current <;> simp [frame, onAddr, hpc]
  roused := by
    intro h1 h2
    by_cases he : p.addr = nxt.addr
    · have hpn := addr_inj hl.nodup hp hn he
      rw [onAddr_of_eq (by simpa using he)]
      exact ⟨.inl (decrementWait_roused h1 (hpn ▸ hw)).1, .inr rfl⟩
    · rw [onAddr_of_ne (by simpa using he)] at h2 ⊢
      have h3 := decrementWait_roused h1 (by simpa using h2)
      exact ⟨.inl h3.1, .inl (by simpa using h3.2)⟩
  zombie := by
    intro h
    by_cases he : p.addr = nxt.addr
    · rw [onAddr_of_eq (by simpa using he)] at h
      cases h
    · rw [onAddr_of_ne (by simpa using he)] at h
      exact decrementWait_zombie.mp (by simpa using h)
  waitingPid := .inl (by simp)

theorem wakeFirst_of_first {d : Nat} {ps : List Pcb} {p : Pcb}
    (h : firstWaiter d ps = some p.addr) : wakeFirst d ps p = setStatus .ready p := if_pos h

theorem wakeFirst_of_not {d : Nat} {ps : List Pcb} {p : Pcb}
    (h : firstWaiter d ps ≠ some p.addr) : wakeFirst d ps p = p := if_neg h

theorem wokenFor_iff {s : Sched} {cur p : Pcb} (hl : Listed s) (hc : cur ∈ s.procs)
    (ha : cur.addr = s.current) (hz : cur.status = .zombie) :
    WokenFor s p ↔ firstWaiter cur.pid s.procs = some p.addr := by
  constructor
  · rintro ⟨d, hd, hda, -, hf⟩
    rwa [addr_inj hl.nodup hd hc (hda.trans ha.symm)] at hf
  · exact fun h => ⟨cur, hc, ha, hz, h⟩

theorem moved_burial {s : Sched} {regs : Registers} {cur nxt p q : Pcb} (hl : Listed s)
    (hc : cur ∈ s.procs) (ha : cur.addr = s.current) (hz : cur.status = .zombie)
    (hn : nxt ∈ s.procs)
    (hw : (wakeFirst cur.pid s.procs (decrementWait nxt)).status ≠ .waiting) (hp : p ∈ s.procs)
    (hf : Handed cur.pid s.procs (wakeFirst cur.pid s.procs (decrementWait p)) q)
    (hk : q.waitingPid = p.waitingPid ∨ ¬(cur.pid = 1 ∨ cur.pid = 2)) :
    Moved s regs nxt.addr p (onAddr nxt.addr (setStatus .running) q) := by
  have hqa : q.addr = p.addr := by simpa using hf.addr
  have hwoken := wokenFor_iff (p := p) hl hc ha hz
  have hwake : firstWaiter cur.pid s.procs = some p.addr ∨ q.status = (decrementWait p).status := by
    by_cases hfirst : firstWaiter cur.pid s.procs = some p.addr
    · exact .inl hfirst
    · right
      rw [hf.status, wakeFirst_of_not (by simpa using hfirst)]
  have hready : firstWaiter cur.pid s.procs = some p.addr → q.status = .ready := by
    intro hfirst
    rw [hf.status, wakeFirst_of_first (by simpa using hfirst)]
    rfl
  refine ⟨by simpa using hqa, by simpa using hf.pid, by simpa using hf.assets,
    by simpa using hf.sleepTicks, fun _ => by simpa using hf.registers, ?_, ?_, ?_, ?_, ?_⟩
  · intro hpa hpz
    rw [addr_inj hl.nodup hp hc (hpa.trans ha.symm)] at hpz
    exact absurd hz hpz
  · intro h
    by_cases he : q.addr = nxt.addr
    · rw [onAddr_of_eq he] at h
      cases h
    rw [onAddr_of_ne he] at h ⊢
    have hnf : firstWaiter cur.pid s.procs ≠ some p.addr := by
      intro hfirst
      rw [hready hfirst] at h
      cases h
    obtain ⟨h1, h2⟩ := decrementWait_waiting.mp ((hwake.resolve_left hnf) ▸ h)
    have hpc : p.addr ≠ s.current := by
      intro hpc
      rw [addr_inj hl.nodup hp hc (hpc.trans ha.symm), hz] at h1
      cases h1
    refine ⟨h1, h2, mt hwoken.mp hnf, he, ?_⟩
    simp [frame, hpc, hf.registers]
  · intro h1 h2
    by_cases hfirst : firstWaiter cur.pid s.procs = some p.addr
    · refine ⟨.inr (hwoken.mpr hfirst), ?_⟩
      by_cases he : q.addr = nxt.addr
      · exact .inr (by rw [onAddr_of_eq he]; rfl)
      · exact .inl (by rw [onAddr_of_ne he, hready hfirst])
    · have hst := hwake.resolve_left hfirst
      by_cases he : q.addr = nxt.addr
      · have hpn := addr_inj hl.nodup hp hn (hqa.symm.trans he)
        subst hpn
        rw [wakeFirst_of_not (by simpa using hfirst)] at hw
        exact ⟨.inl (decrementWait_roused h1 hw).1, .inr (by rw [onAddr_of_eq he]; rfl)⟩
      · rw [onAddr_of_ne he, hst] at h2 ⊢
        exact ⟨.inl (decrementWait_roused h1 h2).1, .inl (decrementWait_roused h1 h2).2⟩
  · intro h
    by_cases he : q.addr = nxt.addr
    · rw [onAddr_of_eq he] at h
      cases h
    rw [onAddr_of_ne he] at h
    cases hwake with
    | inl hfirst =>
      rw [hready hfirst] at h
      cases h
    | inr hst => exact decrementWait_zombie.mp (hst ▸ h)
  · have hqw : (onAddr nxt.addr (setStatus .running) q).waitingPid = q.waitingPid := by simp
    rw [hqw]
    cases hk with
    | inl h => exact .inl h
    | inr hk =>
      cases hf.waiting with
      | inl h => exact .inl (by simpa using h)
      | inr h => exact .inr ⟨cur, hc, ha, hz, hk, by simpa using h.1, h.2⟩

def Releases (procs : List Pcb) (released : Option Pcb) (gone : Option Nat) : Prop :=
  released = none ∧ gone = none ∨ ∃ p ∈ procs, ∃ g, released = some g ∧ gone = some p.addr ∧
    g.addr = p.addr ∧ assets g = assets p

/-- A round rewrites the list process by process and unlinks at most one block. -/
theorem round_moved {s : Sched} {regs : Registers} {ps : List Pcb} {c : Nat} {rel : Option Pcb}
    (hl : Listed s) (h : Round s regs ps c rel) : ∃ (gone : Option Nat) (F : Pcb → Pcb),
      ps = (s.procs.filter fun p => decide (gone ≠ some p.addr)).map F ∧
      (∀ p ∈ s.procs, Moved s regs c p (F p)) ∧ (∀ a, gone = some a → Unlinked s a) ∧
      Releases s.procs rel gone ∧ ∃ nxt ∈ s.procs, nxt.addr = c ∧ gone ≠ some nxt.addr := by
  have hall : (s.procs.filter fun p => decide ((none : Option Nat) ≠ some p.addr)) = s.procs :=
    List.filter_eq_self.mpr fun _ _ => by simp
  cases h with
  | @stay cur hc ha hz hw =>
    refine ⟨none, _, by rw [hall], fun p hp => moved_tick hl hc ha hz hw hp, by simp, .inl ⟨rfl, rfl⟩,
      cur, hc, ha, by simp⟩
  | @switch cur nxt hc ha hz hn hw =>
    exact ⟨none, _, by rw [hall], fun p hp => moved_switch hl hc ha hz hn hw hp, by simp,
      .inl ⟨rfl, rfl⟩, nxt, hn, rfl, by simp⟩
  | @keep cur nxt hc ha hz hn hw _ _ =>
    exact ⟨none, _, by rw [hall], fun p hp => moved_burial hl hc ha hz hn hw hp (Handed.refl _ _ _)
      (.inl (by simp)), by simp, .inl ⟨rfl, rfl⟩, nxt, hn, rfl, by simp⟩
  | @bury cur nxt gone f hc ha hz hn hw hp hnp hg hgp hf =>
    refine ⟨some gone.addr, _, ?_, fun p hp' => moved_burial hl hc ha hz hn hw hp' (hf p hp') (.inr hp), ?_,
      .inr ⟨gone, hg, f gone, rfl, rfl, by simpa using (hf gone hg).addr,
        by simpa using (hf gone hg).assets⟩, nxt, hn, rfl, ?_⟩
    · congr 1
      exact List.filter_congr fun q _ => by simp [eq_comm]
    · rintro a ⟨⟩
      exact ⟨cur, hc, ha, hz, hp, gone, hg, rfl, hgp⟩
    · intro he
      have := addr_inj hl.nodup hg hn (Option.some.inj he)
      exact hnp (this ▸ hgp)

/-! ### Entering update_scheduler -/

/- What the caller of update_scheduler did to the current process first. -/
inductive Caller (s : Sched) (ev : Event) (cur : Pcb) : (Pcb → Pcb) → Prop
  | timer : ev.entry = .timer → Caller s ev cur id
  | spared : Calls ev .exit → cur.pid = 1 ∨ cur.pid = 2 → Caller s ev cur id
  | exit : Calls ev .exit → ¬(cur.pid = 1 ∨ cur.pid = 2) → Caller s ev cur (setStatus .zombie)
  | wait : Calls ev .wait → Caller s ev cur (awaits ev.regs.ebx)
  | sleep : Calls ev .sleep → ev.regs.ebx ≠ 0 → cur.pid ≠ 1 → Caller s ev cur (sleeps ev.regs.ebx)
  | read : Calls ev .read → blocksOnStdin ev.regs s cur → Caller s ev cur blockStatus

structure Entered (s : Sched) (ev : Event) (cur : Pcb) (f : Pcb → Pcb) (u : Sched) : Prop where
  mem : cur ∈ s.procs
  addr : cur.addr = s.current
  caller : Caller s ev cur f
  procs : u.procs = s.procs.map (onAddr s.current f)
  current : u.current = s.current
  enabled : u.enableScheduler = s.enableScheduler
  pidStatic : u.pidStatic = s.pidStatic
  slot : u.stdin.waitQueue.process =
    if Calls ev .read then some s.current else s.stdin.waitQueue.process

theorem enters_spec {s u : Sched} {ev : Event} (hl : Listed s) (h : enters s ev = some u) :
    ∃ cur f, Entered s ev cur f u := by
  obtain ⟨cur, hc, ha, hcur⟩ := currentProcess_eq hl
  have hid : s.procs = s.procs.map (onAddr s.current id) :=
    (map_of_forall fun p _ => by by_cases h : p.addr = s.current <;> simp [onAddr, h]).symm
  cases he : ev.entry with
  | timer =>
    simp only [enters, hcur, he, Option.bind_eq_bind, Option.bind_some] at h
    cases h
    exact ⟨cur, id, hc, ha, .timer he, hid, rfl, rfl, rfl, by simp [Calls, he]⟩
  | keyboard k b =>
    simp only [enters, hcur, he, Option.bind_eq_bind, Option.bind_some] at h
    cases h
  | syscall =>
    rw [enters_syscall hcur he] at h
    cases hn : Syscall.ofNumber ev.regs.eax with
    | none => simp [hn] at h
    | some sc =>
      have hcall : Calls ev sc := ⟨he, hn⟩
      simp only [hn] at h
      cases sc with
      | exit =>
        have hr : ¬Calls ev .read := not_calls hcall (by decide)
        by_cases hp : cur.pid = 1 ∨ cur.pid = 2
        · rw [if_pos hp] at h
          cases h
          exact ⟨cur, id, hc, ha, .spared hcall hp, hid, rfl, rfl, rfl, (if_neg hr).symm⟩
        · rw [if_neg hp] at h
          cases h
          exact ⟨cur, _, hc, ha, .exit hcall hp, rfl, rfl, rfl, rfl, (if_neg hr).symm⟩
      | wait =>
        have hr : ¬Calls ev .read := not_calls hcall (by decide)
        cases h
        exact ⟨cur, _, hc, ha, .wait hcall, rfl, rfl, rfl, rfl, (if_neg hr).symm⟩
      | sleep =>
        have hr : ¬Calls ev .read := not_calls hcall (by decide)
        by_cases hz : ev.regs.ebx = 0 ∨ cur.pid = 1
        · rw [if_pos hz] at h
          cases h
        · rw [if_neg hz] at h
          cases h
          have hne : ev.regs.ebx ≠ 0 := fun h0 => hz (.inl h0)
          exact ⟨cur, _, hc, ha, .sleep hcall hne fun h1 => hz (.inr h1), rfl, rfl, rfl, rfl, (if_neg hr).symm⟩
      | read =>
        by_cases hb : blocksOnStdin ev.regs s cur
        · rw [if_pos hb] at h
          cases h
          exact ⟨cur, _, hc, ha, .read hcall hb, rfl, rfl, rfl, rfl, (if_pos hcall).symm⟩
        · rw [if_neg hb] at h
          cases h
      | _ => cases h

structure Keeps (f : Pcb → Pcb) : Prop where
  addr : ∀ p, (f p).addr = p.addr
  pid : ∀ p, (f p).pid = p.pid
  parentPid : ∀ p, (f p).parentPid = p.parentPid
  assets : ∀ p, assets (f p) = assets p
  zombie : ∀ p, p.status = .zombie → (f p).status = .zombie

theorem blockStatus_status (p : Pcb) :
    (blockStatus p).status = if p.status = .zombie then .zombie else .waiting := rfl

theorem Caller.keeps {s : Sched} {ev : Event} {cur : Pcb} {f : Pcb → Pcb}
    (h : Caller s ev cur f) : Keeps f := by
  have hblock : ∀ p : Pcb, p.status = .zombie → (blockStatus p).status = .zombie :=
    fun p hp => by rw [blockStatus_status, if_pos hp]
  cases h with
  | timer | spared => exact ⟨fun _ => rfl, fun _ => rfl, fun _ => rfl, fun _ => rfl, fun _ h => h⟩
  | exit => exact ⟨fun _ => rfl, fun _ => rfl, fun _ => rfl, fun _ => rfl, fun _ _ => rfl⟩
  | wait => exact ⟨fun _ => rfl, fun _ => rfl, fun _ => rfl, fun _ => rfl, fun p h => hblock _ h⟩
  | sleep => exact ⟨fun _ => rfl, fun _ => rfl, fun _ => rfl, fun _ => rfl, fun p h => hblock _ h⟩
  | read => exact ⟨fun _ => rfl, fun _ => rfl, fun _ => rfl, fun _ => rfl, hblock⟩

theorem Caller.waiting {s : Sched} {ev : Event} {cur : Pcb} {f : Pcb → Pcb}
    (h : Caller s ev cur f) (ha : cur.status ≠ .waiting) (hw : (f cur).status = .waiting) :
    Calls ev .wait ∨ Calls ev .sleep ∨ Calls ev .read := by
  cases h with
  | timer | spared => exact absurd hw ha
  | exit => cases hw
  | wait hc => exact .inl hc
  | sleep hc => exact .inr (.inl hc)
  | read hc => exact .inr (.inr hc)

theorem Caller.of_call {s : Sched} {ev : Event} {cur : Pcb} {f : Pcb → Pcb}
    (h : Caller s ev cur f) :
    (Calls ev .wait → f = awaits ev.regs.ebx) ∧ (Calls ev .sleep → f = sleeps ev.regs.ebx) ∧
      (Calls ev .read → f = blockStatus) := by
  cases h with
  | timer he =>
    have hno : ∀ sc, ¬Calls ev sc := fun sc hc => by simp [Calls, he] at hc
    exact ⟨fun h => absurd h (hno _), fun h => absurd h (hno _), fun h => absurd h (hno _)⟩
  | spared hc | exit hc =>
    exact ⟨fun h => absurd h (not_calls hc (by decide)),
      fun h => absurd h (not_calls hc (by decide)), fun h => absurd h (not_calls hc (by decide))⟩
  | wait hc =>
    exact ⟨fun _ => rfl, fun h => absurd h (not_calls hc (by decide)),
      fun h => absurd h (not_calls hc (by decide))⟩
  | sleep hc =>
    exact ⟨fun h => absurd h (not_calls hc (by decide)), fun _ => rfl,
      fun h => absurd h (not_calls hc (by decide))⟩
  | read hc =>
    exact ⟨fun h => absurd h (not_calls hc (by decide)),
      fun h => absurd h (not_calls hc (by decide)), fun _ => rfl⟩

theorem Caller.blocks {s : Sched} {ev : Event} {cur : Pcb} {f : Pcb → Pcb}
    (h : Caller s ev cur f) (hc : Calls ev .read) : blocksOnStdin ev.regs s cur := by
  cases h with
  | timer he => simp [Calls, he] at hc
  | spared h' | exit h' | wait h' | sleep h' => exact absurd hc (not_calls h' (by decide))
  | read _ hb => exact hb

theorem Caller.not_zombie {s : Sched} {ev : Event} {cur : Pcb} {f : Pcb → Pcb}
    (h : Caller s ev cur f) (hw : (f cur).status = .waiting) : cur.status ≠ .zombie := by
  intro hz
  rw [h.keeps.zombie cur hz] at hw
  cases hw

section Entered
variable {s u : Sched} {ev : Event} {cur : Pcb} {f : Pcb → Pcb}

theorem Entered.listed (hl : Listed s) (h : Entered s ev cur f u) : Listed u where
  nodup := by
    rw [h.procs]
    exact nodup_map (onAddr_field Pcb.addr f h.caller.keeps.addr s.current) hl.nodup
  current := by
    refine ⟨onAddr s.current f cur, ?_, ?_⟩
    · rw [h.procs]
      exact List.mem_map_of_mem h.mem
    · rw [onAddr_field Pcb.addr f h.caller.keeps.addr, h.addr, h.current]
  enabled := h.enabled.trans hl.enabled

/-- The members on entry: the caller as it was left, and every other process untouched. -/
theorem Entered.mem_iff (hl : Listed s) (h : Entered s ev cur f u) {p : Pcb} :
    p ∈ u.procs ↔ p = f cur ∨ p ∈ s.procs ∧ p.addr ≠ s.current := by
  rw [h.procs]
  constructor
  · intro hp
    obtain ⟨q, hq, rfl⟩ := List.mem_map.mp hp
    by_cases hqa : q.addr = s.current
    · rw [onAddr_of_eq hqa, addr_inj hl.nodup hq h.mem (hqa.trans h.addr.symm)]
      exact .inl rfl
    · rw [onAddr_of_ne hqa]
      exact .inr ⟨hq, hqa⟩
  · intro hp
    cases hp with
    | inl hp => exact List.mem_map.mpr ⟨cur, h.mem, by rw [onAddr_of_eq h.addr, hp]⟩
    | inr hp => exact List.mem_map.mpr ⟨p, hp.1, onAddr_of_ne hp.2⟩

end Entered

/-! ### stdin_wake_process -/

/- What stdin_wake_process does to a process: the waiter at `a` gets its count and is READY, the
current one has its frame saved. -/
def delivered (regs : Registers) (cur a n : Nat) (p : Pcb) : Pcb :=
  onAddr a (fun p => setStatus .ready (setEax n p)) (onAddr cur (setRegisters regs) p)

def deliveredCount (b : StdinBuffer) : Nat :=
  (stdinRead (min b.count b.waitQueue.requestedLen) b).1.length

@[simp] theorem delivered_addr (regs : Registers) (cur a n : Nat) (p : Pcb) :
    (delivered regs cur a n p).addr = p.addr := by
  rw [delivered, onAddr_field Pcb.addr (fun p => setStatus .ready (setEax n p)) fun _ => rfl,
    onAddr_setRegisters_addr]

@[simp] theorem delivered_pid (regs : Registers) (cur a n : Nat) (p : Pcb) :
    (delivered regs cur a n p).pid = p.pid := by
  rw [delivered, onAddr_field Pcb.pid (fun p => setStatus .ready (setEax n p)) fun _ => rfl,
    onAddr_setRegisters_pid]

@[simp] theorem delivered_assets (regs : Registers) (cur a n : Nat) (p : Pcb) :
    assets (delivered regs cur a n p) = assets p := by
  rw [delivered, onAddr_field assets (fun p => setStatus .ready (setEax n p)) fun _ => rfl,
    onAddr_setRegisters_assets]

theorem delivered_at {p : Pcb} {a : Nat} (h : p.addr = a) (regs : Registers) (cur n : Nat) :
    delivered regs cur a n p = setStatus .ready (setEax n (onAddr cur (setRegisters regs) p)) :=
  onAddr_of_eq (by simpa using h)

theorem delivered_ne {p : Pcb} {a cur : Nat} (h : p.addr ≠ a) (hc : p.addr ≠ cur)
    (regs : Registers) (n : Nat) : delivered regs cur a n p = p := by
  rw [delivered, onAddr_of_ne hc, onAddr_of_ne h]

theorem delivered_eq (regs : Registers) (cur a n : Nat) (q : Pcb) :
    onAddr a (setStatus .ready) (onAddr a (setEax n) (onAddr cur (setRegisters regs)
      (onAddr a (setStatus .running) q))) = delivered regs cur a n q := by
  by_cases h1 : q.addr = a
  · subst h1
    by_cases h2 : q.addr = cur <;> simp [delivered, onAddr, setStatus, setEax, setRegisters, h2]
  · by_cases h2 : q.addr = cur
    · subst h2
      simp [delivered, onAddr, setRegisters, h1]
    · simp [delivered, onAddr, h1, h2]

/- A delivery, from the state in which stdin_wake_process is called. -/
structure Delivery (s : Sched) (regs : Registers) (a : Nat) (p : Pcb) (t : Sched) : Prop where
  slot : s.stdin.waitQueue.process = some a
  mem : p ∈ s.procs
  addr : p.addr = a
  live : ∀ cur ∈ s.procs, cur.addr = s.current → cur.status ≠ .zombie
  procs : t.procs = s.procs.map (delivered regs s.current a (deliveredCount s.stdin))
  cleared : t.stdin.waitQueue = ⟨none, -1⟩
  current : t.current = s.current
  foregroundPid : t.foregroundPid = s.foregroundPid
  pidStatic : t.pidStatic = s.pidStatic
  enabled : t.enableScheduler = s.enableScheduler
  queueSize : t.processQueueSize = s.processQueueSize

theorem stdinWakeProcess_cases {s : Sched} {regs : Registers} {out : Outcome} (hl : Listed s)
    (h : stdinWakeProcess regs s = some out) :
    out.sched = s ∨ ∃ a p, Delivery s regs a p out.sched := by
  obtain ⟨cur, hc, ha, hcur⟩ := currentProcess_eq hl
  simp only [stdinWakeProcess, hcur, Option.bind_eq_bind, Option.bind_some] at h
  by_cases hz : cur.status = .zombie
  · rw [if_pos hz] at h
    cases h
    exact .inl rfl
  rw [if_neg hz] at h
  obtain ⟨a, hslot, h1⟩ := Option.bind_eq_some_iff.mp h
  obtain ⟨p, hp, h2⟩ := Option.bind_eq_some_iff.mp h1
  obtain ⟨hpm, hpa⟩ := Sched.deref_mem hp
  obtain ⟨cur', hcur', h3⟩ := Option.bind_eq_some_iff.mp h2
  cases h3
  have hlive : ∀ c ∈ s.procs, c.addr = s.current → c.status ≠ .zombie := hl.current_of_mem hc ha hz
  refine .inr ⟨a, p, hslot, hpm, hpa, hlive, ?_, rfl, rfl, rfl, rfl, rfl, rfl⟩
  simp only [Sched.modify, List.map_map]
  exact List.map_congr_left fun q _ => delivered_eq ..

/-! ### Ctrl+C -/

def foreground (s : Sched) : Option Nat :=
  firstKey Pcb.addr (fun p => decide (p.pid = s.foregroundPid)) s.procs

def interrupted (s : Sched) (p : Pcb) : Pcb :=
  if foreground s = some p.addr then setStatus .zombie p else p

theorem interrupted_of {s : Sched} {p : Pcb} (h : foreground s = some p.addr) :
    interrupted s p = setStatus .zombie p := if_pos h

theorem interrupted_of_not {s : Sched} {p : Pcb} (h : foreground s ≠ some p.addr) :
    interrupted s p = p := if_neg h

@[simp] theorem interrupted_addr (s : Sched) (p : Pcb) : (interrupted s p).addr = p.addr := by
  by_cases h : foreground s = some p.addr <;> simp [interrupted, h]

@[simp] theorem interrupted_pid (s : Sched) (p : Pcb) : (interrupted s p).pid = p.pid := by
  by_cases h : foreground s = some p.addr <;> simp [interrupted, h]

@[simp] theorem interrupted_assets (s : Sched) (p : Pcb) : assets (interrupted s p) = assets p := by
  by_cases h : foreground s = some p.addr <;> simp [interrupted, h]

structure Interrupted (s t : Sched) : Prop where
  nonzero : s.foregroundPid ≠ 0
  procs : t.procs = s.procs.map (interrupted s)
  slot : t.stdin.waitQueue.process = none ∧ slotIsForeground s = some true ∨
    t.stdin.waitQueue.process = s.stdin.waitQueue.process ∧ slotIsForeground s = some false
  current : t.current = s.current
  foregroundPid : t.foregroundPid = 0
  pidStatic : t.pidStatic = s.pidStatic
  enabled : t.enableScheduler = s.enableScheduler
  queueSize : t.processQueueSize = s.processQueueSize
  esp0 : t.esp0 = s.esp0
  cr3 : t.cr3 = s.cr3

theorem sigintForeground_idle {s t : Sched} (h0 : s.foregroundPid = 0)
    (h : sigintForeground s = some t) : t.procs = s.procs ∧ Quiet s t := by
  simp only [sigintForeground, h0, if_true] at h
  cases h
  exact ⟨rfl, .of_procs rfl rfl rfl h0.symm rfl rfl rfl rfl rfl⟩

theorem sigintForeground_kills {s t : Sched} (hl : Listed s) (h0 : s.foregroundPid ≠ 0)
    (h : sigintForeground s = some t) : Interrupted s t := by
  simp only [sigintForeground, if_neg h0] at h
  obtain ⟨own, hown, h1⟩ := Option.bind_eq_some_iff.mp h
  cases h1
  refine ⟨h0, updateFirst_eq_map hl.nodup, ?_, rfl, rfl, rfl, rfl, rfl, rfl, rfl⟩
  cases own with
  | true => exact .inl ⟨rfl, hown⟩
  | false => exact .inr ⟨rfl, hown⟩

theorem sigintForeground_cases {s t : Sched} (hl : Listed s)
    (h : sigintForeground s = some t) : Quiet s t ∨ Interrupted s t := by
  by_cases h0 : s.foregroundPid = 0
  · exact .inl (sigintForeground_idle h0 h).2
  · exact .inr (sigintForeground_kills hl h0 h)

/-! ### Every reachable state is sane -/

structure Sane (s : Sched) : Prop where
  listed : Listed s
  awake : ∀ p ∈ s.procs, p.addr = s.current → p.status ≠ .waiting
  reason : ∀ p ∈ s.procs, p.status = .waiting →
    blockedIn .wait p ∨ blockedIn .sleep p ∨ blockedIn .read p

theorem boot_awake (c : BootConfig) :
    ∀ p ∈ (boot c).procs, p.status ≠ .waiting ∧ p.status ≠ .zombie := by
  simp [boot, bootMain, bootIdle, createProcessControlBlock]

theorem boot_sane (c : BootConfig) : Sane (boot c) where
  listed := by
    refine ⟨?_, ⟨_, List.mem_cons_self, rfl⟩, rfl⟩
    simpa [boot, bootMain, bootIdle, createProcessControlBlock] using c.distinct
  awake := fun p hp _ => (boot_awake c p hp).1
  reason := fun p hp hw => absurd hw (boot_awake c p hp).1

/-- A change that keeps the current process and makes none WAITING keeps a state sane. -/
theorem Sane.of_map {s t : Sched} {keep : Pcb → Bool} {F : Pcb → Pcb} (hs : Sane s)
    (hp : t.procs = (s.procs.filter keep).map F) (hc : t.current = s.current)
    (he : t.enableScheduler = s.enableScheduler)
    (ha : ∀ p ∈ s.procs, (F p).addr = p.addr)
    (hk : ∀ p ∈ s.procs, p.addr = s.current → keep p)
    (hw : ∀ p ∈ s.procs, (F p).status = .waiting →
      p.status = .waiting ∧ (p.addr ≠ s.current → (F p).registers = p.registers)) : Sane t := by
  have hmem : ∀ q ∈ t.procs, ∃ p ∈ s.procs, q = F p := by
    intro q hq
    rw [hp] at hq
    obtain ⟨p, hpm, rfl⟩ := List.mem_map.mp hq
    exact ⟨p, (List.mem_filter.mp hpm).1, rfl⟩
  refine ⟨⟨?_, ?_, he.trans hs.listed.enabled⟩, ?_, ?_⟩
  · have : (s.procs.filter keep).map (Pcb.addr ∘ F) = (s.procs.filter keep).map Pcb.addr :=
      List.map_congr_left fun p hpm => ha p (List.mem_filter.mp hpm).1
    rw [hp, List.map_map, this]
    exact hs.listed.nodup.sublist (List.filter_sublist.map _)
  · obtain ⟨p, hpm, hpa⟩ := hs.listed.current
    refine ⟨F p, ?_, by rw [ha p hpm, hpa, hc]⟩
    rw [hp]
    exact List.mem_map_of_mem (List.mem_filter.mpr ⟨hpm, hk p hpm hpa⟩)
  · intro q hq hqa hqw
    obtain ⟨p, hpm, rfl⟩ := hmem q hq
    rw [ha p hpm, hc] at hqa
    exact hs.awake p hpm hqa (hw p hpm hqw).1
  · intro q hq hqw
    obtain ⟨p, hpm, rfl⟩ := hmem q hq
    obtain ⟨hpw, hreg⟩ := hw p hpm hqw
    have hne : p.addr ≠ s.current := fun hpa => hs.awake p hpm hpa hpw
    simpa only [blockedIn, hqw, hpw, hreg hne, true_and] using hs.reason p hpm hpw

theorem filter_all (ps : List Pcb) : ps.filter (fun _ => true) = ps := by simp

theorem Quiet.sane {s t : Sched} (hs : Sane s) (h : Quiet s t) : Sane t := by
  obtain ⟨f, hp, hf⟩ := h.procs
  have hst : ∀ p, (f p).status = p.status := fun p => by rw [hf p]
  have hr : ∀ p, (f p).registers = p.registers := fun p => by rw [hf p]
  refine hs.of_map (by rw [filter_all, hp]) h.current h.enabled (fun p _ => by rw [hf p])
    (fun _ _ _ => rfl) ?_
  intro p _ hw
  exact ⟨hst p ▸ hw, fun _ => hr p⟩

/-- A round of update_scheduler leaves a list with the current process in it. -/
theorem round_listed {s t : Sched} {regs : Registers} {rel : Option Pcb} (hl : Listed s)
    (h : Round s regs t.procs t.current rel) (he : t.enableScheduler = s.enableScheduler) :
    Listed t := by
  obtain ⟨gone, F, hps, hF, -, -, nxt, hn, hna, hng⟩ := round_moved hl h
  refine ⟨?_, ⟨F nxt, ?_, by rw [(hF nxt hn).addr, hna]⟩, he.trans hl.enabled⟩
  · rw [hps, List.map_map]
    have : (s.procs.filter fun p => decide (gone ≠ some p.addr)).map (Pcb.addr ∘ F) =
        (s.procs.filter fun p => decide (gone ≠ some p.addr)).map Pcb.addr :=
      List.map_congr_left fun p hp => (hF p (List.mem_filter.mp hp).1).addr
    rw [this]
    exact hl.nodup.sublist (List.filter_sublist.map _)
  · rw [hps]
    exact List.mem_map_of_mem (List.mem_filter.mpr ⟨hn, by simpa using hng⟩)

/-- A process WAITING after a round was WAITING on entry, with the frame it now has saved. -/
theorem round_asleep {s : Sched} {regs : Registers} {ps : List Pcb} {c : Nat} {rel : Option Pcb}
    (hl : Listed s) (h : Round s regs ps c rel) {q : Pcb} (hq : q ∈ ps) :
    ∃ p ∈ s.procs, Moved s regs c p q := by
  obtain ⟨gone, F, hps, hF, -⟩ := round_moved hl h
  rw [hps] at hq
  obtain ⟨p, hp, rfl⟩ := List.mem_map.mp hq
  exact ⟨p, (List.mem_filter.mp hp).1, hF p (List.mem_filter.mp hp).1⟩

/-- The frame an awake caller blocks with holds the number of its call. -/
theorem Entered.reason {s u : Sched} {ev : Event} {cur p : Pcb} {f : Pcb → Pcb} (hs : Sane s)
    (h : Entered s ev cur f u) (hp : p ∈ u.procs) (hw : p.status = .waiting) :
    p ∈ s.procs ∧ p.addr ≠ s.current ∧ frame u ev.regs p = p.registers ∨
      p = f cur ∧ frame u ev.regs p = ev.regs ∧
        (Calls ev .wait ∨ Calls ev .sleep ∨ Calls ev .read) := by
  cases (h.mem_iff hs.listed).mp hp with
  | inl hpc =>
    have hpa : p.addr = u.current := by rw [hpc, h.caller.keeps.addr, h.addr, h.current]
    refine .inr ⟨hpc, if_pos hpa, h.caller.waiting (hs.awake cur h.mem h.addr) (hpc ▸ hw)⟩
  | inr hps =>
    have hne : p.addr ≠ u.current := by
      rw [h.current]
      exact hps.2
    exact .inl ⟨hps.1, hps.2, if_neg hne⟩

theorem schedule_sane {s u : Sched} {ev : Event} {out : Outcome} (hs : Sane s)
    (he : enters s ev = some u)
    (h : updateScheduler ev.env.dyingParent ev.regs u = some out) : Sane out.sched := by
  obtain ⟨cur, f, hent⟩ := enters_spec hs.listed he
  have hlu := hent.listed hs.listed
  obtain ⟨hround, hrest⟩ := updateScheduler_round hlu h
  refine ⟨round_listed hlu hround hrest.enabled, ?_, ?_⟩
  · intro q hq hqa hw
    obtain ⟨p, _, hm⟩ := round_asleep hlu hround hq
    exact (hm.asleep hw).2.2.2.1 hqa
  · intro q hq hw
    obtain ⟨p, hp, hm⟩ := round_asleep hlu hround hq
    obtain ⟨hpw, -, -, -, hreg⟩ := hm.asleep hw
    cases hent.reason hs hp hpw with
    | inl h =>
      obtain ⟨hps, _, hfr⟩ := h
      have := hs.reason p hps hpw
      simp only [blockedIn, hw, hreg, hfr, true_and] at this ⊢
      simpa [hpw] using this
    | inr h =>
      obtain ⟨-, hfr, hcall⟩ := h
      simp only [blockedIn, hw, hreg, hfr, true_and]
      cases hcall with
      | inl hc => exact .inl hc.2
      | inr hc => cases hc with
        | inl hc => exact .inr (.inl hc.2)
        | inr hc => exact .inr (.inr hc.2)

theorem removed_sane {s : Sched} {pid : Nat} {r : Removal} (hs : Sane s) (h : Removed pid s r) :
    Sane r.sched := by
  have hn := hs.listed.nodup
  cases h with
  | refused => exact hs
  | self hp hc ha hpid =>
    refine hs.of_map (by rw [filter_all]) rfl rfl (fun p _ => by simp) (fun _ _ _ => rfl) ?_
    intro p _ hw
    by_cases hpa : p.addr = s.current
    · rw [onAddr_of_eq hpa] at hw
      cases hw
    · rw [onAddr_of_ne hpa] at hw ⊢
      exact ⟨hw, fun _ => rfl⟩
  | absent hp hc ha hpid habs hf =>
    refine hs.of_map (by rw [filter_all]) rfl rfl (fun p hpm => (hf p hpm).addr)
      (fun _ _ _ => rfl) ?_
    intro p hpm hw
    exact ⟨(hf p hpm).status ▸ hw, fun _ => (hf p hpm).registers⟩
  | @gone cur p f hp hc ha hpid hg hgp hf =>
    refine hs.of_map rfl rfl rfl (fun p hpm => (hf p hpm).addr) ?_ ?_
    · intro q hq hqa
      have hne : q.addr ≠ p.addr := by
        intro he
        have hcp := addr_inj hn hc hg (ha.trans (hqa.symm.trans he))
        exact hpid (hcp ▸ hgp)
      simpa using hne
    · intro p hpm hw
      exact ⟨(hf p hpm).status ▸ hw, fun _ => (hf p hpm).registers⟩

theorem interrupted_sane {s t : Sched} (hs : Sane s) (h : Interrupted s t) : Sane t := by
  refine hs.of_map (by rw [filter_all, h.procs]) h.current h.enabled (fun p _ => by simp)
    (fun _ _ _ => rfl) ?_
  intro p _ hw
  by_cases hf : foreground s = some p.addr
  · rw [interrupted_of hf] at hw
    cases hw
  · rw [interrupted_of_not hf] at hw ⊢
    exact ⟨hw, fun _ => rfl⟩

/-- A process WAITING after a delivery is not the one delivered to and was not touched. -/
theorem delivered_asleep {s : Sched} {regs : Registers} {a n : Nat} {p : Pcb} (hs : Sane s)
    (hp : p ∈ s.procs) (hw : (delivered regs s.current a n p).status = .waiting) :
    p.addr ≠ a ∧ delivered regs s.current a n p = p := by
  have hpa : p.addr ≠ a := by
    intro he
    rw [delivered_at he] at hw
    cases hw
  have hpc : p.addr ≠ s.current := by
    intro he
    rw [delivered, onAddr_of_ne (by simpa using hpa), onAddr_setRegisters_status] at hw
    exact hs.awake p hp he hw
  exact ⟨hpa, delivered_ne hpa hpc regs n⟩

theorem delivery_sane {s t : Sched} {regs : Registers} {a : Nat} {p : Pcb} (hs : Sane s)
    (h : Delivery s regs a p t) : Sane t := by
  refine hs.of_map (by rw [filter_all, h.procs]) h.current h.enabled (fun p _ => by simp)
    (fun _ _ _ => rfl) ?_
  intro q hq hw
  have he := (delivered_asleep hs hq hw).2
  rw [he] at hw ⊢
  exact ⟨hw, fun _ => rfl⟩

theorem fork_sane {s t : Sched} {ev : Event} {child : Pcb} (hs : Sane s) (hc : Child s ev child)
    (hp : t.procs = s.procs ++ [child]) (hcur : t.current = s.current)
    (he : t.enableScheduler = s.enableScheduler) : Sane t := by
  have hmem : ∀ p ∈ t.procs, p ∈ s.procs ∨ p = child := by
    intro p hpm
    rw [hp] at hpm
    simpa using hpm
  obtain ⟨cur, hcm, hca⟩ := hs.listed.current
  refine ⟨⟨?_, ⟨cur, by rw [hp]; exact List.mem_append_left _ hcm, hca.trans hcur.symm⟩,
    he.trans hs.listed.enabled⟩, ?_, ?_⟩
  · rw [hp, List.map_append, List.map_singleton]
    refine List.nodup_append.mpr ⟨hs.listed.nodup, List.nodup_singleton _, ?_⟩
    rintro a ha b hb rfl
    rw [List.mem_singleton.mp hb] at ha
    exact hc.fresh ha
  · intro p hpm hpa
    cases hmem p hpm with
    | inl h => exact hs.awake p h (hpa.trans hcur)
    | inr h => simp [h, hc.status]
  · intro p hpm hw
    cases hmem p hpm with
    | inl h => exact hs.reason p h hw
    | inr h => simp [h, hc.status] at hw

theorem step_sane {s t : Sched} {ev : Event} (hs : Sane s) (h : step s ev = some t) : Sane t := by
  obtain ⟨_, _, heff⟩ := step_effect hs.listed h
  cases heff with
  | quiet hq => exact hq.sane hs
  | schedule he hu => exact schedule_sane hs he hu
  | fork _ hc hp hcur _ _ _ he => exact fork_sane hs hc hp hcur he
  | kill _ hr => exact removed_sane hs hr
  | interrupt _ _ hi =>
    cases sigintForeground_cases hs.listed hi with
    | inl hq => exact hq.sane hs
    | inr hi => exact interrupted_sane hs hi
  | wake _ hq hw =>
    have hu := hq.sane hs
    cases stdinWakeProcess_cases hu.listed hw with
    | inl he => exact he ▸ hu
    | inr hd =>
      obtain ⟨a, p, hd⟩ := hd
      exact delivery_sane hu hd

/-- Whatever the interleaving, the current process is awake and every sleeper has a reason. -/
theorem reach_sane {c : BootConfig} {guard : Sched → Event → Prop} {s : Sched}
    (h : Reach step guard (boot c) s) : Sane s :=
  h.invariant Sane (boot_sane c) fun _ _ _ hs _ ht => step_sane hs ht

/-! ### Events for concrete runs -/

def sampleBoot : BootConfig where
  mainAddr := 0x100000
  idleAddr := 0x110000
  mainStack := 0x101000
  idleStack := 0x111000
  mainDirectory := 0x401000
  idleDirectory := 0x400000
  eflags := 0x202
  timerTicks := 0
  distinct := by decide

def timerTick : Event := { entry := .timer, regs := default }

/- A system call with its first and third argument. -/
def call (eax ebx edx : Nat) : Event :=
  { entry := .syscall, regs := { (default : Registers) with eax := eax, ebx := ebx, edx := edx } }

def forkAt (a : Nat) : Event :=
  { entry := .syscall, regs := { (default : Registers) with eax := 2 }
    env := { pcbAddr := a, stackMem := a + 0x1000, directory := a + 0x400000 } }

def keyDown (scancode : Nat) : Event := { entry := .keyboard scancode true, regs := default }

def quantum : List Event := List.replicate 20 timerTick

/-! ### Identities along a run -/

/- An entry that rewrites the listed processes in place, but for one that it may release. -/
structure Rewritten (s : Sched) (ev : Event) (t : Sched) (released : Option Pcb)
    (gone : Option Nat) (F : Pcb → Pcb) : Prop where
  procs : t.procs = (s.procs.filter fun p => decide (gone ≠ some p.addr)).map F
  addr : ∀ p ∈ s.procs, (F p).addr = p.addr
  pid : ∀ p ∈ s.procs, (F p).pid = p.pid
  directory : ∀ p ∈ s.procs, (F p).pageDirectory = p.pageDirectory
  assets : ¬editsAssets ev → ∀ p ∈ s.procs, assets (F p) = assets p
  heap : ¬Calls ev .sbrk → ∀ p ∈ s.procs, (F p).heapBreak = p.heapBreak
  released : Releases s.procs released gone

theorem assets_directory {p q : Pcb} (h : assets p = assets q) : p.pageDirectory = q.pageDirectory :=
  congrArg Assets.pageDirectory h

theorem assets_heapBreak {p q : Pcb} (h : assets p = assets q) : p.heapBreak = q.heapBreak :=
  congrArg Assets.heapBreak h

/-- A map that keeps identities and assets releases nobody. -/
theorem Rewritten.of_map {s t : Sched} {ev : Event} {F : Pcb → Pcb} (hp : t.procs = s.procs.map F)
    (hF : ∀ p ∈ s.procs, (F p).addr = p.addr ∧ (F p).pid = p.pid ∧ Scheduler.assets (F p) = Scheduler.assets p) :
    Rewritten s ev t none none F where
  procs := by
    rw [hp, List.filter_eq_self.mpr]
    simp
  addr := fun p h => (hF p h).1
  pid := fun p h => (hF p h).2.1
  directory := fun p h => assets_directory (hF p h).2.2
  assets := fun _ p h => (hF p h).2.2
  heap := fun _ p h => assets_heapBreak (hF p h).2.2
  released := .inl ⟨rfl, rfl⟩

theorem Quiet.rewritten {s t : Sched} {ev : Event} (hq : Quiet s t) (ha : Retains s ev t) :
    ∃ F, Rewritten s ev t none none F := by
  obtain ⟨f, hp, hf⟩ := hq.procs
  refine ⟨f, ?_, fun p _ => by rw [hf p], fun p _ => by rw [hf p], fun p _ => by rw [hf p], ?_, ?_,
    .inl ⟨rfl, rfl⟩⟩
  · rw [hp, List.filter_eq_self.mpr]
    simp
  · intro hne
    have := ha.assets hne
    rw [hp, List.map_map] at this
    exact fun p hpm => List.map_inj_left.mp this p hpm
  · intro hne
    have := ha.heap hne
    rw [hp, List.map_map] at this
    exact fun p hpm => List.map_inj_left.mp this p hpm

/-- A round takes no asset away, whatever the entry is. -/
theorem schedule_rewritten {s u : Sched} {ev : Event} {out : Outcome} (hs : Sane s)
    (he : enters s ev = some u) (h : updateScheduler ev.env.dyingParent ev.regs u = some out) :
    ∃ gone F, Rewritten s ev out.sched out.released gone F ∧
      ∀ p ∈ s.procs, assets (F p) = assets p := by
  obtain ⟨cur, f, hent⟩ := enters_spec hs.listed he
  have hlu := hent.listed hs.listed
  obtain ⟨hround, -⟩ := updateScheduler_round hlu h
  obtain ⟨gone, F, hps, hF, -, hrel, -⟩ := round_moved hlu hround
  have hk := hent.caller.keeps
  have hin : ∀ p ∈ s.procs, onAddr s.current f p ∈ u.procs :=
    fun p hp => hent.procs ▸ List.mem_map_of_mem hp
  have haddr : ∀ p, (onAddr s.current f p).addr = p.addr :=
    onAddr_field Pcb.addr f hk.addr s.current
  have hassets : ∀ p, assets (onAddr s.current f p) = assets p :=
    onAddr_field assets f hk.assets s.current
  have hkept : ∀ p ∈ s.procs, assets (F (onAddr s.current f p)) = assets p :=
    fun p hp => (hF _ (hin p hp)).assets.trans (hassets p)
  refine ⟨gone, F ∘ onAddr s.current f, ⟨?_, ?_, ?_, ?_, fun _ => hkept, ?_, ?_⟩, hkept⟩
  · rw [hps, hent.procs, List.filter_map, List.map_map]
    congr 1
    exact List.filter_congr fun p _ => by simp [haddr p]
  · exact fun p hp => (hF _ (hin p hp)).addr.trans (haddr p)
  · exact fun p hp => (hF _ (hin p hp)).pid.trans (onAddr_field Pcb.pid f hk.pid ..)
  · exact fun p hp => assets_directory (hkept p hp)
  · exact fun _ p hp => assets_heapBreak (hkept p hp)
  · cases hrel with
    | inl h => exact .inl h
    | inr h =>
      obtain ⟨q, hq, g, hg, hgone, hga, hgs⟩ := h
      rw [hent.procs] at hq
      obtain ⟨p, hp, rfl⟩ := List.mem_map.mp hq
      rw [haddr] at hgone hga
      exact .inr ⟨p, hp, g, hg, hgone, hga, hgs.trans (hassets p)⟩

theorem removed_rewritten {s : Sched} {ev : Event} {pid : Nat} {r : Removal}
    (h : Removed pid s r) : ∃ gone F, Rewritten s ev r.sched r.released gone F := by
  cases h with
  | refused => exact ⟨none, id, .of_map (List.map_id _).symm fun _ _ => ⟨rfl, rfl, rfl⟩⟩
  | self => exact ⟨none, _, .of_map rfl fun p _ => by simp⟩
  | absent _ _ _ _ _ hf =>
    exact ⟨none, _, .of_map rfl fun p hp => ⟨(hf p hp).addr, (hf p hp).pid, (hf p hp).assets⟩⟩
  | @gone cur p f _ _ _ _ hg _ hf =>
    refine ⟨some p.addr, f, ?_, fun q hq => (hf q hq).addr, fun q hq => (hf q hq).pid,
      fun q hq => assets_directory (hf q hq).assets, fun _ q hq => (hf q hq).assets,
      fun _ q hq => assets_heapBreak (hf q hq).assets,
      .inr ⟨p, hg, f p, rfl, rfl, (hf p hg).addr, (hf p hg).assets⟩⟩
    exact congrArg (List.map f) (List.filter_congr fun q _ => by simp [eq_comm])

/-- Apart from fork, an entry releases at most one process and rewrites the others in place. -/
theorem handle_rewrites {s : Sched} {ev : Event} {out : Outcome} (hs : Sane s)
    (h : handle s ev = some out) :
    (Calls ev .fork ∧ out.released = none ∧
      ∃ child, Child s ev child ∧ out.sched.procs = s.procs ++ [child]) ∨
    ∃ gone F, Rewritten s ev out.sched out.released gone F := by
  have heff := handle_effect hs.listed h
  generalize out.sched = t at heff ⊢
  generalize out.released = released at heff ⊢
  generalize out.regs = regs at heff
  cases heff with
  | quiet hq ha =>
    obtain ⟨F, hF⟩ := hq.rewritten ha
    exact .inr ⟨none, F, hF⟩
  | schedule he hu =>
    obtain ⟨gone, F, hF, -⟩ := schedule_rewritten hs he hu
    exact .inr ⟨gone, F, hF⟩
  | fork hcall hc hp => exact .inl ⟨hcall, rfl, _, hc, hp⟩
  | kill _ hr => exact .inr (removed_rewritten hr)
  | interrupt _ _ hi =>
    by_cases h0 : s.foregroundPid = 0
    · obtain ⟨hp, -⟩ := sigintForeground_idle h0 hi
      exact .inr ⟨none, id, .of_map (hp.trans (List.map_id _).symm) fun _ _ => ⟨rfl, rfl, rfl⟩⟩
    · have hi := sigintForeground_kills hs.listed h0 hi
      exact .inr ⟨none, _, .of_map hi.procs fun p _ => by simp⟩
  | wake _ hq hw =>
    cases stdinWakeProcess_cases (hq.sane hs).listed hw with
    | inl he =>
      rw [he]
      exact .inr ⟨none, id, .of_map ((handleInput_procs ..).trans (List.map_id _).symm)
        fun _ _ => ⟨rfl, rfl, rfl⟩⟩
    | inr hd =>
      obtain ⟨a, p, hd⟩ := hd
      refine .inr ⟨none, _, .of_map (hd.procs.trans (by rw [handleInput_procs])) fun q _ => ?_⟩
      simp

theorem step_rewrites {s t : Sched} {ev : Event} (hs : Sane s) (h : step s ev = some t) :
    (Calls ev .fork ∧ ∃ child, Child s ev child ∧ t.procs = s.procs ++ [child]) ∨
    ∃ (keep : Pcb → Bool) (F : Pcb → Pcb), t.procs = (s.procs.filter keep).map F ∧
      ∀ p ∈ s.procs, (F p).addr = p.addr ∧ (F p).pid = p.pid := by
  obtain ⟨out, hout, rfl⟩ := Option.map_eq_some_iff.mp h
  cases handle_rewrites hs hout with
  | inl hf => exact .inl ⟨hf.1, hf.2.2⟩
  | inr hr =>
    obtain ⟨gone, F, hF⟩ := hr
    exact .inr ⟨_, F, hF.procs, fun p hp => ⟨hF.addr p hp, hF.pid p hp⟩⟩

/-- A block listed before and after a step holds the same process. -/
theorem step_pid {s t : Sched} {ev : Event} (hs : Sane s) (h : step s ev = some t) {p q : Pcb}
    (hp : p ∈ s.procs) (hq : q ∈ t.procs) (ha : q.addr = p.addr) : q.pid = p.pid := by
  cases step_rewrites hs h with
  | inl hf =>
    obtain ⟨-, child, hc, hpr⟩ := hf
    rw [hpr] at hq
    cases List.mem_append.mp hq with
    | inl hq => rw [addr_inj hs.listed.nodup hq hp ha]
    | inr hq =>
      rw [List.mem_singleton.mp hq] at ha
      exact absurd (List.mem_map.mpr ⟨p, hp, ha.symm⟩) hc.fresh
  | inr hr =>
    obtain ⟨keep, F, hpr, hF⟩ := hr
    rw [hpr] at hq
    obtain ⟨p', hpf, rfl⟩ := List.mem_map.mp hq
    have hpm := (List.mem_filter.mp hpf).1
    rw [(hF p' hpm).2, addr_inj hs.listed.nodup hpm hp ((hF p' hpm).1.symm.trans ha)]

/- A new child's pid is not that of a listed process: pid_static has not wrapped onto one. -/
def FreshPid (s : Sched) (ev : Event) : Prop :=
  Calls ev .fork → ∀ p ∈ s.procs, p.pid ≠ s.pidStatic

instance (s : Sched) (ev : Event) : Decidable (FreshPid s ev) :=
  inferInstanceAs (Decidable (_ → _))

def Distinct (s : Sched) : Prop := (s.procs.map Pcb.pid).Nodup

theorem boot_distinct (c : BootConfig) : Distinct (boot c) := by
  simp [Distinct, boot, bootMain, bootIdle, createProcessControlBlock, setStatus]

theorem step_distinct {s t : Sched} {ev : Event} (hs : Sane s) (hd : Distinct s)
    (hg : FreshPid s ev) (h : step s ev = some t) : Distinct t := by
  cases step_rewrites hs h with
  | inl hf =>
    obtain ⟨hcall, child, hc, hp⟩ := hf
    rw [Distinct, hp, List.map_append, List.map_singleton]
    refine List.nodup_append.mpr ⟨hd, List.nodup_singleton _, ?_⟩
    rintro a ha b hb rfl
    obtain ⟨p, hpm, hpa⟩ := List.mem_map.mp ha
    rw [List.mem_singleton.mp hb, hc.pid] at hpa
    exact hg hcall p hpm hpa
  | inr hr =>
    obtain ⟨keep, F, hp, hF⟩ := hr
    have : (s.procs.filter keep).map (Pcb.pid ∘ F) = (s.procs.filter keep).map Pcb.pid :=
      List.map_congr_left fun p hpm => (hF p (List.mem_filter.mp hpm).1).2
    rw [Distinct, hp, List.map_map, this]
    exact List.Nodup.sublist (List.filter_sublist.map _) hd

theorem Distinct.length_le {s : Sched} {n : Nat} (h : Distinct s) (hn : ∀ p ∈ s.procs, p.pid < n) :
    s.procs.length ≤ n := by
  have hsub : s.procs.map Pcb.pid ⊆ List.range n := by
    intro i hi
    obtain ⟨p, hp, rfl⟩ := List.mem_map.mp hi
    exact List.mem_range.mpr (hn p hp)
  have hlen := (List.Nodup.subperm h hsub).length_le
  simpa using hlen

theorem pid_inj {s : Sched} (hd : Distinct s) {p q : Pcb} (hp : p ∈ s.procs) (hq : q ∈ s.procs)
    (h : p.pid = q.pid) : p = q := List.inj_on_of_nodup_map hd hp hq h

theorem Entered.distinct {s u : Sched} {ev : Event} {cur : Pcb} {f : Pcb → Pcb}
    (hd : Distinct s) (h : Entered s ev cur f u) : Distinct u := by
  have hpid : ∀ p, (onAddr s.current f p).pid = p.pid :=
    onAddr_field Pcb.pid f h.caller.keeps.pid s.current
  rw [Distinct, h.procs, List.map_map, show Pcb.pid ∘ onAddr s.current f = Pcb.pid from funext hpid]
  exact hd

def OnEntry (P : Sched → Prop) (s : Sched) (ev : Event) : Prop := ∀ u ∈ enters s ev, P u

instance (P : Sched → Prop) [DecidablePred P] (s : Sched) (ev : Event) :
    Decidable (OnEntry P s ev) :=
  match h : enters s ev with
  | none => .isTrue (by simp [OnEntry, h])
  | some u => decidable_of_iff (P u) (by simp [OnEntry, h])

/- A condition on the moments when update_scheduler is entered with a ZOMBIE it may remove. -/
def WhenBurying (P : Sched → Pcb → Prop) : Sched → Event → Prop :=
  OnEntry fun u => ∀ d ∈ u.procs, d.addr = u.current → d.status = .zombie →
    ¬(d.pid = 1 ∨ d.pid = 2) → P u d

instance (P : Sched → Pcb → Prop) [∀ u d, Decidable (P u d)] (s : Sched) (ev : Event) :
    Decidable (WhenBurying P s ev) :=
  inferInstanceAs (Decidable (OnEntry _ s ev))

instance (s : Sched) (p : Pcb) : Decidable (WokenFor s p) :=
  inferInstanceAs (Decidable (∃ d ∈ s.procs, _ ∧ _))

end AdamOS.Lifecycle
