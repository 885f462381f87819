import AdamOS.Kernel.Scheduler
import Mathlib.Data.List.Chain

/-! The process list seen process by process. A list of blocks with distinct addresses is
rewritten by maps on its members, and one round of update_scheduler is one of four of them. -/
namespace AdamOS.Scheduler
open AdamOS.Process AdamOS.ListUpdate AdamOS.Word

structure Assets where
  pageDirectory : Nat
  kernelStack : Nat
  heapBreak : Nat
  fds : List FileDescriptor

def assets (p : Pcb) : Assets := ⟨p.pageDirectory, p.kernelStack, p.heapBreak, p.fds⟩

@[simp] theorem setStatus_addr (st : ProcessStatus) (p : Pcb) :
    (setStatus st p).addr = p.addr := rfl
@[simp] theorem setStatus_pid (st : ProcessStatus) (p : Pcb) :
    (setStatus st p).pid = p.pid := rfl
@[simp] theorem setStatus_parentPid (st : ProcessStatus) (p : Pcb) :
    (setStatus st p).parentPid = p.parentPid := rfl
@[simp] theorem setStatus_registers (st : ProcessStatus) (p : Pcb) :
    (setStatus st p).registers = p.registers := rfl
@[simp] theorem setStatus_waitingPid (st : ProcessStatus) (p : Pcb) :
    (setStatus st p).waitingPid = p.waitingPid := rfl
@[simp] theorem setStatus_sleepTicks (st : ProcessStatus) (p : Pcb) :
    (setStatus st p).sleepTicks = p.sleepTicks := rfl
@[simp] theorem setStatus_status (st : ProcessStatus) (p : Pcb) : (setStatus st p).status = st := rfl
@[simp] theorem setStatus_assets (st : ProcessStatus) (p : Pcb) :
    assets (setStatus st p) = assets p := rfl
@[simp] theorem setRegisters_assets (regs : Registers) (p : Pcb) :
    assets (setRegisters regs p) = assets p := rfl
@[simp] theorem setRegisters_addr (regs : Registers) (p : Pcb) :
    (setRegisters regs p).addr = p.addr := rfl
@[simp] theorem setRegisters_pid (regs : Registers) (p : Pcb) :
    (setRegisters regs p).pid = p.pid := rfl
@[simp] theorem setRegisters_parentPid (regs : Registers) (p : Pcb) :
    (setRegisters regs p).parentPid = p.parentPid := rfl
@[simp] theorem setRegisters_waitingPid (regs : Registers) (p : Pcb) :
    (setRegisters regs p).waitingPid = p.waitingPid := rfl
@[simp] theorem setRegisters_sleepTicks (regs : Registers) (p : Pcb) :
    (setRegisters regs p).sleepTicks = p.sleepTicks := rfl
@[simp] theorem setRegisters_status (regs : Registers) (p : Pcb) :
    (setRegisters regs p).status = p.status := rfl
@[simp] theorem setRegisters_registers (regs : Registers) (p : Pcb) :
    (setRegisters regs p).registers = regs := rfl

theorem onAddr_of_eq {a : Nat} {f : Pcb → Pcb} {p : Pcb} (h : p.addr = a) :
    onAddr a f p = f p := if_pos h

theorem onAddr_of_ne {a : Nat} {f : Pcb → Pcb} {p : Pcb} (h : p.addr ≠ a) :
    onAddr a f p = p := if_neg h

/-- A field that the update keeps is kept at every address. -/
theorem onAddr_field {β : Type*} (g : Pcb → β) (f : Pcb → Pcb) (hf : ∀ p, g (f p) = g p)
    (a : Nat) (p : Pcb) : g (onAddr a f p) = g p := by
  by_cases h : p.addr = a <;> simp [onAddr, h, hf]

section OnAddr
variable (a : Nat) (st : ProcessStatus) (regs : Registers) (p : Pcb)

@[simp] theorem onAddr_setStatus_addr :
    (onAddr a (setStatus st) p).addr = p.addr :=
  onAddr_field Pcb.addr (setStatus st) (fun _ => rfl) a p
@[simp] theorem onAddr_setStatus_pid :
    (onAddr a (setStatus st) p).pid = p.pid :=
  onAddr_field Pcb.pid (setStatus st) (fun _ => rfl) a p
@[simp] theorem onAddr_setStatus_parentPid :
    (onAddr a (setStatus st) p).parentPid = p.parentPid :=
  onAddr_field Pcb.parentPid (setStatus st) (fun _ => rfl) a p
@[simp] theorem onAddr_setStatus_registers :
    (onAddr a (setStatus st) p).registers = p.registers :=
  onAddr_field Pcb.registers (setStatus st) (fun _ => rfl) a p
@[simp] theorem onAddr_setStatus_waitingPid :
    (onAddr a (setStatus st) p).waitingPid = p.waitingPid :=
  onAddr_field Pcb.waitingPid (setStatus st) (fun _ => rfl) a p
@[simp] theorem onAddr_setStatus_sleepTicks :
    (onAddr a (setStatus st) p).sleepTicks = p.sleepTicks :=
  onAddr_field Pcb.sleepTicks (setStatus st) (fun _ => rfl) a p
@[simp] theorem onAddr_setStatus_assets :
    assets (onAddr a (setStatus st) p) = assets p :=
  onAddr_field assets (setStatus st) (fun _ => rfl) a p
@[simp] theorem onAddr_setRegisters_assets :
    assets (onAddr a (setRegisters regs) p) = assets p :=
  onAddr_field assets (setRegisters regs) (fun _ => rfl) a p
@[simp] theorem onAddr_setRegisters_addr :
    (onAddr a (setRegisters regs) p).addr = p.addr :=
  onAddr_field Pcb.addr (setRegisters regs) (fun _ => rfl) a p
@[simp] theorem onAddr_setRegisters_pid :
    (onAddr a (setRegisters regs) p).pid = p.pid :=
  onAddr_field Pcb.pid (setRegisters regs) (fun _ => rfl) a p
@[simp] theorem onAddr_setRegisters_parentPid :
    (onAddr a (setRegisters regs) p).parentPid = p.parentPid :=
  onAddr_field Pcb.parentPid (setRegisters regs) (fun _ => rfl) a p
@[simp] theorem onAddr_setRegisters_status :
    (onAddr a (setRegisters regs) p).status = p.status :=
  onAddr_field Pcb.status (setRegisters regs) (fun _ => rfl) a p
@[simp] theorem onAddr_setRegisters_waitingPid :
    (onAddr a (setRegisters regs) p).waitingPid = p.waitingPid :=
  onAddr_field Pcb.waitingPid (setRegisters regs) (fun _ => rfl) a p
@[simp] theorem onAddr_setRegisters_sleepTicks :
    (onAddr a (setRegisters regs) p).sleepTicks = p.sleepTicks :=
  onAddr_field Pcb.sleepTicks (setRegisters regs) (fun _ => rfl) a p

end OnAddr

theorem onAddr_setStatus_twice (a : Nat) (st st' : ProcessStatus) (p : Pcb) :
    onAddr a (setStatus st) (onAddr a (setStatus st') p) = onAddr a (setStatus st) p := by
  by_cases h : p.addr = a <;> simp [onAddr, h, setStatus]

structure Listed (s : Sched) : Prop where
  nodup : (s.procs.map Pcb.addr).Nodup
  current : ∃ p ∈ s.procs, p.addr = s.current
  enabled : s.enableScheduler = true

theorem Sched.deref_mem {s : Sched} {a : Nat} {p : Pcb} (h : s.deref a = some p) :
    p ∈ s.procs ∧ p.addr = a :=
  ⟨List.mem_of_find?_eq_some h, by simpa using List.find?_some h⟩

theorem Sched.deref_of_mem {s : Sched} (hn : (s.procs.map Pcb.addr).Nodup) {p : Pcb}
    (hp : p ∈ s.procs) : s.deref p.addr = some p := find?_key hn hp

theorem addr_inj {ps : List Pcb} (hn : (ps.map Pcb.addr).Nodup) {p q : Pcb} (hp : p ∈ ps)
    (hq : q ∈ ps) (h : p.addr = q.addr) : p = q := List.inj_on_of_nodup_map hn hp hq h

/-- There is one process at the current address, so what holds of it holds of every one there. -/
theorem Listed.current_of_mem {s : Sched} (h : Listed s) {P : Pcb → Prop} {cur : Pcb} (hm : cur ∈ s.procs)
    (ha : cur.addr = s.current) (hcur : P cur) : ∀ c ∈ s.procs, c.addr = s.current → P c := by
  intro c hc hca
  rw [addr_inj h.nodup hc hm (hca.trans ha.symm)]
  exact hcur

theorem map_addr {f : Pcb → Pcb} (hf : ∀ p, (f p).addr = p.addr) (ps : List Pcb) :
    (ps.map f).map Pcb.addr = ps.map Pcb.addr := by
  simp [Function.comp_def, hf]

/-! ### decrement_wait_process and scheduler_wake -/

@[simp] theorem decrementWait_addr (p : Pcb) : (decrementWait p).addr = p.addr := by
  unfold decrementWait; split
  · split <;> rfl
  · rfl

@[simp] theorem decrementWait_pid (p : Pcb) : (decrementWait p).pid = p.pid := by
  unfold decrementWait; split
  · split <;> rfl
  · rfl

@[simp] theorem decrementWait_assets (p : Pcb) : assets (decrementWait p) = assets p := by
  unfold decrementWait; split
  · split <;> rfl
  · rfl

@[simp] theorem decrementWait_parentPid (p : Pcb) :
    (decrementWait p).parentPid = p.parentPid := by
  unfold decrementWait; split
  · split <;> rfl
  · rfl

@[simp] theorem decrementWait_waitingPid (p : Pcb) :
    (decrementWait p).waitingPid = p.waitingPid := by
  unfold decrementWait; split
  · split <;> rfl
  · rfl

@[simp] theorem decrementWait_registers (p : Pcb) :
    (decrementWait p).registers = p.registers := by
  unfold decrementWait; split
  · split <;> rfl
  · rfl

@[simp] theorem decrementWait_sleepTicks (p : Pcb) :
    (decrementWait p).sleepTicks = p.sleepTicks - 1 := by
  unfold decrementWait; split
  · split <;> rfl
  · omega

/-- The tick changes a status only where it ends a sleep. -/
theorem decrementWait_status (p : Pcb) : (decrementWait p).status =
    if p.sleepTicks = 1 ∧ p.status = .waiting then .ready else p.status := by
  unfold decrementWait
  by_cases h0 : p.sleepTicks > 0
  · by_cases h1 : p.sleepTicks - 1 = 0 ∧ p.status = .waiting
    · simp [h1, show p.sleepTicks = 1 by omega]
    · have : ¬(p.sleepTicks = 1 ∧ p.status = .waiting) := fun h => h1 ⟨by omega, h.2⟩
      simp [h0, h1, this]
  · simp [h0, show p.sleepTicks ≠ 1 by omega]

def firstWaiter (pid : Nat) (procs : List Pcb) : Option Nat :=
  firstKey Pcb.addr (waitsFor pid) procs

def wakeFirst (pid : Nat) (procs : List Pcb) (p : Pcb) : Pcb :=
  if firstWaiter pid procs = some p.addr then setStatus .ready p else p

theorem schedulerWake_procs {s : Sched} (hn : (s.procs.map Pcb.addr).Nodup) (pid : Nat) :
    (schedulerWake pid s).procs = s.procs.map (wakeFirst pid s.procs) := updateFirst_eq_map hn

theorem firstWaiter_map {f : Pcb → Pcb} (ha : ∀ p, (f p).addr = p.addr)
    (hw : ∀ p, (f p).waitingPid = p.waitingPid) (pid : Nat) (ps : List Pcb) :
    firstWaiter pid (ps.map f) = firstWaiter pid ps :=
  firstKey_map fun p _ => ⟨ha p, by simp [waitsFor, hw]⟩

theorem wakeFirst_field {β : Type*} {g : Pcb → β} (hg : ∀ p, g (setStatus .ready p) = g p)
    (pid : Nat) (ps : List Pcb) (p : Pcb) : g (wakeFirst pid ps p) = g p := by
  by_cases h : firstWaiter pid ps = some p.addr <;> simp [wakeFirst, h, hg]

@[simp] theorem wakeFirst_addr (pid : Nat) (ps : List Pcb) (p : Pcb) :
    (wakeFirst pid ps p).addr = p.addr := wakeFirst_field (fun _ => rfl) pid ps p
@[simp] theorem wakeFirst_pid (pid : Nat) (ps : List Pcb) (p : Pcb) :
    (wakeFirst pid ps p).pid = p.pid := wakeFirst_field (fun _ => rfl) pid ps p
@[simp] theorem wakeFirst_assets (pid : Nat) (ps : List Pcb) (p : Pcb) :
    assets (wakeFirst pid ps p) = assets p := wakeFirst_field (fun _ => rfl) pid ps p
@[simp] theorem wakeFirst_parentPid (pid : Nat) (ps : List Pcb) (p : Pcb) :
    (wakeFirst pid ps p).parentPid = p.parentPid := wakeFirst_field (fun _ => rfl) pid ps p
@[simp] theorem wakeFirst_registers (pid : Nat) (ps : List Pcb) (p : Pcb) :
    (wakeFirst pid ps p).registers = p.registers := wakeFirst_field (fun _ => rfl) pid ps p
@[simp] theorem wakeFirst_waitingPid (pid : Nat) (ps : List Pcb) (p : Pcb) :
    (wakeFirst pid ps p).waitingPid = p.waitingPid := wakeFirst_field (fun _ => rfl) pid ps p
@[simp] theorem wakeFirst_sleepTicks (pid : Nat) (ps : List Pcb) (p : Pcb) :
    (wakeFirst pid ps p).sleepTicks = p.sleepTicks := wakeFirst_field (fun _ => rfl) pid ps p

/-! ### next_process -/

theorem nextOf_get {ps : List Pcb} (hn : (ps.map Pcb.addr).Nodup) {i : Nat}
    (hi : i < ps.length) : nextOf ps[i].addr ps = ps[i + 1]? := by
  induction ps generalizing i with
  | nil => cases hi
  | cons p ps ih =>
    have htail := (List.nodup_cons.mp hn).2
    cases ps with
    | nil => cases i with
      | zero => rfl
      | succ i => simp at hi
    | cons q qs => cases i with
      | zero => simp [nextOf]
      | succ i =>
        have hlt : i < (q :: qs).length := by simpa using hi
        have hmem : (q :: qs)[i].addr ∈ (q :: qs).map Pcb.addr :=
          List.mem_map_of_mem (List.getElem_mem hlt)
        have hne : p.addr ≠ (q :: qs)[i].addr := fun he =>
          (List.nodup_cons.mp hn).1 (he ▸ hmem)
        have := ih htail hlt
        simp only [List.getElem_cons_succ, nextOf, if_neg hne, this, List.getElem?_cons_succ]

/-- The links and the return to the head make the list a cycle. -/
theorem follow_get {ps : List Pcb} (hn : (ps.map Pcb.addr).Nodup) {i : Nat}
    (hi : i < ps.length) : follow ps ps[i] = ps[(i + 1) % ps.length]? := by
  rw [follow, nextOf_get hn hi]
  by_cases hl : i + 1 < ps.length
  · simp [Nat.mod_eq_of_lt hl, hl]
  · have he : i + 1 = ps.length := by omega
    simp [he, List.head?_eq_getElem?]

/-- Every place the loop passes over holds a WAITING process. -/
theorem skipWaiting_get {ps : List Pcb} (hn : (ps.map Pcb.addr).Nodup) (n : Nat) {i : Nat}
    {q : Pcb} (hi : i < ps.length) (h : skipWaiting ps n ps[i] = some q) :
    ∃ k, ps[(i + k) % ps.length]? = some q ∧
      ∀ j < k, ∀ p, ps[(i + j) % ps.length]? = some p → p.status = .waiting := by
  induction n generalizing i with
  | zero =>
    cases h
    exact ⟨0, by simp [Nat.mod_eq_of_lt hi, hi], by simp⟩
  | succ n ih =>
    by_cases hw : ps[i].status = .waiting
    · have hlt : (i + 1) % ps.length < ps.length := Nat.mod_lt _ (by omega)
      have hstep : skipWaiting ps n ps[(i + 1) % ps.length] = some q := by
        simpa [skipWaiting, hw, follow_get hn hi, hlt] using h
      obtain ⟨k, hk, hall⟩ := ih hlt hstep
      have hshift : ∀ j, ((i + 1) % ps.length + j) % ps.length = (i + (j + 1)) % ps.length := by
        intro j
        rw [Nat.mod_add_mod, Nat.add_assoc, Nat.add_comm 1 j]
      refine ⟨k + 1, by rw [← hshift, hk], ?_⟩
      intro j hj p hp
      cases j with
      | zero =>
        have : p = ps[i] := by simpa [Nat.mod_eq_of_lt hi, hi] using hp.symm
        exact this ▸ hw
      | succ j => exact hall j (by omega) p (by rw [hshift, hp])
    · have : ps[i] = q := by simpa [skipWaiting, hw] using h
      exact ⟨0, by simp [Nat.mod_eq_of_lt hi, hi, this], by simp⟩

theorem cycle_passes {L i k m : Nat} (hi : i < L) (hm : m < L) (hmi : m ≠ i)
    (h : (i + 1 + k) % L = i) : ∃ j < k, (i + 1 + j) % L = m := by
  have hk : L ≤ k + 1 := by
    by_contra hk
    by_cases hlt : i + 1 + k < L
    · rw [Nat.mod_eq_of_lt hlt] at h
      omega
    · rw [Nat.mod_eq_sub_mod (by omega), Nat.mod_eq_of_lt (by omega)] at h
      omega
  by_cases hlt : i < m
  · refine ⟨m - i - 1, by omega, ?_⟩
    rw [show i + 1 + (m - i - 1) = m by omega, Nat.mod_eq_of_lt hm]
  · refine ⟨m + L - i - 1, by omega, ?_⟩
    rw [show i + 1 + (m + L - i - 1) = m + L by omega, Nat.add_mod_right, Nat.mod_eq_of_lt hm]

/-- next_process settles on a listed process that is not WAITING, and on the current one again
only if every other is WAITING. -/
theorem nextProcess_spec {s t : Sched} (hn : (s.procs.map Pcb.addr).Nodup)
    (h : nextProcess s = some t) : ∃ q ∈ s.procs, q.status ≠ .waiting ∧
      t = { s with current := q.addr } ∧
      (q.addr = s.current → ∀ p ∈ s.procs, p.addr ≠ s.current → p.status = .waiting) := by
  obtain ⟨cur, hcur, h1⟩ := Option.bind_eq_some_iff.mp h
  obtain ⟨first, hfirst, h2⟩ := Option.bind_eq_some_iff.mp h1
  obtain ⟨q, hq, h3⟩ := Option.bind_eq_some_iff.mp h2
  obtain ⟨hmem, haddr⟩ := Sched.deref_mem hcur
  obtain ⟨i, hi, hget⟩ := List.mem_iff_getElem.mp hmem
  subst hget
  have hlt : (i + 1) % s.procs.length < s.procs.length := Nat.mod_lt _ (by omega)
  have hf : s.procs[(i + 1) % s.procs.length] = first := by
    simpa [follow_get hn hi, hlt] using hfirst
  obtain ⟨k, hk, hall⟩ := skipWaiting_get hn _ hlt (hf ▸ hq)
  have hqw : q.status ≠ .waiting := by
    intro hw
    simp [hw] at h3
  have ht : t = { s with current := q.addr } := by simpa [hqw] using h3.symm
  refine ⟨q, List.mem_of_getElem? hk, hqw, ht, ?_⟩
  intro hqc p hp hpc
  obtain ⟨m, hm, hget⟩ := List.mem_iff_getElem.mp hp
  subst hget
  have hmi : m ≠ i := by
    rintro rfl
    exact hpc haddr
  have hki : (i + 1 + k) % s.procs.length = i := by
    rw [Nat.mod_add_mod] at hk
    obtain ⟨hlt', hq'⟩ := List.getElem?_eq_some_iff.mp hk
    have he : s.procs[(i + 1 + k) % s.procs.length] = s.procs[i] :=
      addr_inj hn (List.getElem_mem hlt') hmem (by rw [hq', hqc, haddr])
    exact (List.Nodup.getElem_inj_iff (hn.of_map _)).mp he
  obtain ⟨j, hj, hjm⟩ := cycle_passes hi hm hmi hki
  exact hall j hj _ (by rw [Nat.mod_add_mod, hjm, List.getElem?_eq_getElem hm])

def runnable (p : Pcb) : Bool := decide (p.status ≠ .waiting)

section cycle
variable {ps before later : List Pcb} {cur x q : Pcb} {s : Sched} {n : Nat}

theorem follow_chain (hn : (ps.map Pcb.addr).Nodup) : ps.IsChain fun x y => follow ps x = some y := by
  refine List.isChain_iff_getElem.mpr fun i hi => ?_
  rw [follow_get hn (by omega), Nat.mod_eq_of_lt hi, List.getElem?_eq_getElem hi]

theorem follow_last (hn : (ps.map Pcb.addr).Nodup) (hx : x ∈ ps.getLast?) : follow ps x = ps.head? := by
  rw [List.getLast?_eq_getElem?] at hx
  obtain ⟨hi, rfl⟩ := List.getElem?_eq_some_iff.mp hx
  rw [follow_get hn hi, show ps.length - 1 + 1 = ps.length by omega, Nat.mod_self, List.head?_eq_getElem?]

/-- From a process they lead through those after it, then through those before it, and back. -/
theorem follow_cycle (hn : (ps.map Pcb.addr).Nodup) (hps : ps = before ++ cur :: later) :
    (cur :: later ++ (before ++ [cur])).IsChain fun x y => follow ps x = some y := by
  have hchain := follow_chain hn
  have hlater : (cur :: later).IsChain fun x y => follow ps x = some y :=
    List.IsChain.infix hchain ⟨before, [], by rw [hps, List.append_nil]⟩
  have hbefore : (before ++ [cur]).IsChain fun x y => follow ps x = some y :=
    List.IsChain.infix hchain ⟨[], later, by rw [hps, List.nil_append, ← List.append_cons]⟩
  refine List.isChain_append.mpr ⟨hlater, hbefore, fun x hx y hy => ?_⟩
  have hlast : x ∈ ps.getLast? := by
    rw [hps, List.getLast?_append, hx]
    rfl
  have hhead : ps.head? = some y := by
    rw [hps, List.append_cons, List.head?_append, hy]
    rfl
  rw [follow_last hn hlast, hhead]

/-- The loop goes along a chain to the first process that is not WAITING. -/
theorem skipWaiting_chain {xs : List Pcb} (hchain : (x :: xs).IsChain fun y z => follow ps y = some z)
    (hfind : (x :: xs).find? runnable = some q) (hlen : xs.length ≤ n) : skipWaiting ps n x = some q := by
  induction xs generalizing x n with
  | nil =>
    obtain ⟨hq, hmem⟩ : runnable q = true ∧ q = x :=
      ⟨List.find?_some hfind, List.mem_singleton.mp (List.mem_of_find?_eq_some hfind)⟩
    have hw : ¬x.status = .waiting := by simpa [runnable, hmem] using hq
    cases n with
    | zero => rw [skipWaiting, hmem]
    | succ n => rw [skipWaiting, if_neg hw, hmem]
  | cons y xs ih =>
    obtain ⟨m, rfl⟩ : ∃ m, n = m + 1 := ⟨n - 1, by rw [List.length_cons] at hlen; omega⟩
    obtain ⟨hfollow, hrest⟩ := List.isChain_cons_cons.mp hchain
    by_cases hw : x.status = .waiting
    · have hx : ¬runnable x = true := by simpa [runnable] using hw
      rw [List.find?_cons_of_neg hx] at hfind
      rw [skipWaiting, if_pos hw, hfollow]
      exact ih hrest hfind (Nat.le_of_succ_le_succ hlen)
    · have hx : runnable x = true := by simpa [runnable] using hw
      rw [List.find?_cons_of_pos hx] at hfind
      rw [skipWaiting, if_neg hw]
      exact hfind

theorem nextProcess_runs (hn : (s.procs.map Pcb.addr).Nodup) (hps : s.procs = before ++ cur :: later)
    (hcur : cur.addr = s.current) (hsize : s.procs.length ≤ s.processQueueSize)
    (hfind : (later ++ before ++ [cur]).find? runnable = some q) :
    nextProcess s = some { s with current := q.addr } := by
  have hmem : cur ∈ s.procs := by
    rw [hps]
    exact List.mem_append_right _ List.mem_cons_self
  have hc : s.currentProcess = some cur := by
    rw [Sched.currentProcess, ← hcur]
    exact Sched.deref_of_mem hn hmem
  have hcycle := follow_cycle hn hps
  rw [List.cons_append, ← List.append_assoc] at hcycle
  have hlen : (later ++ before ++ [cur]).length = s.procs.length := by
    rw [hps]
    simp only [List.length_append, List.length_cons, List.length_nil]
    omega
  have hq : ¬q.status = .waiting := by simpa [runnable] using List.find?_some hfind
  obtain ⟨x, xs, hx⟩ := List.exists_cons_of_ne_nil (List.append_ne_nil_of_right_ne_nil (later ++ before)
    (List.cons_ne_nil cur []))
  rw [hx] at hcycle hfind hlen
  obtain ⟨hfollow, hchain⟩ := List.isChain_cons_cons.mp hcycle
  have hskip : skipWaiting s.procs s.processQueueSize x = some q := by
    refine skipWaiting_chain hchain hfind ?_
    rw [List.length_cons] at hlen
    omega
  simp only [nextProcess, hc, hfollow, hskip, Option.bind_eq_bind, Option.bind_some, if_neg hq]

/-- A process that is not WAITING lies on the way around. -/
theorem find_runnable {p : Pcb} (hps : ps = before ++ cur :: later) (hp : p ∈ ps)
    (hw : p.status ≠ .waiting) : ∃ q, (later ++ before ++ [cur]).find? runnable = some q := by
  have hmem : p ∈ later ++ before ++ [cur] := by
    rw [hps] at hp
    simp only [List.mem_append, List.mem_cons, List.not_mem_nil, or_false] at hp ⊢
    tauto
  exact Option.isSome_iff_exists.mp (List.find?_isSome.mpr ⟨p, hmem, by simpa [runnable] using hw⟩)

/-- With the size counter right and one process awake, next_process does not halt. -/
theorem nextProcess_some (hn : (s.procs.map Pcb.addr).Nodup) (hc : ∃ cur ∈ s.procs, cur.addr = s.current)
    (hsize : s.processQueueSize = s.procs.length) {p : Pcb} (hp : p ∈ s.procs)
    (hw : p.status ≠ .waiting) : ∃ t, nextProcess s = some t := by
  obtain ⟨cur, hcm, hca⟩ := hc
  obtain ⟨before, later, hps⟩ := List.append_of_mem hcm
  obtain ⟨q, hq⟩ := find_runnable hps hp hw
  exact ⟨_, nextProcess_runs hn hps hca (Nat.le_of_eq hsize.symm) hq⟩

/-- next_process is round robin: it settles on the first process that is not WAITING of those after
the current one, those before it and itself, and changes nothing else. -/
theorem nextProcess_roundRobin (hn : (s.procs.map Pcb.addr).Nodup)
    (hps : s.procs = before ++ cur :: later) (hcur : cur.addr = s.current)
    (hsize : s.processQueueSize = s.procs.length) (hrun : ∃ p ∈ s.procs, p.status ≠ .waiting) :
    ∃ q, (later ++ before ++ [cur]).find? runnable = some q ∧
      nextProcess s = some { s with current := q.addr } := by
  obtain ⟨p, hp, hw⟩ := hrun
  obtain ⟨q, hq⟩ := find_runnable hps hp hw
  exact ⟨q, hq, nextProcess_runs hn hps hcur (Nat.le_of_eq hsize.symm) hq⟩

end cycle

def lastAwake : Sched where
  procs := [⟨1, default, 0, .waiting, 0, 0, 1, 0, [], 0, 0⟩, ⟨2, default, 0, .waiting, 0, 0, 2, 0, [], 0, 0⟩,
    ⟨3, default, 0, .running, 0, 0, 3, 0, [], 0, 0⟩]
  current := 3
  foregroundPid := 0
  quantumCounter := 0
  processQueueSize := 3
  enableScheduler := true
  pidStatic := 4
  stdin := emptyStdin
  shiftHeld := false
  ctrlHeld := false
  timerTicks := 0
  esp0 := 0
  cr3 := 0

/-- The walk comes back to the process that gave up the processor. -/
theorem lastAwake_again : ∃ q : Pcb, q.addr = 3 ∧ nextProcess lastAwake = some { lastAwake with current := q.addr } := by
  obtain ⟨q, hq, hnext⟩ := @nextProcess_roundRobin [⟨1, default, 0, .waiting, 0, 0, 1, 0, [], 0, 0⟩,
    ⟨2, default, 0, .waiting, 0, 0, 2, 0, [], 0, 0⟩] [] ⟨3, default, 0, .running, 0, 0, 3, 0, [], 0, 0⟩ lastAwake
    (by decide) rfl rfl rfl (by decide)
  refine ⟨q, ?_, hnext⟩
  obtain rfl := Option.some.inj hq
  rfl

/-! ### reparent_children -/

/- What reparent_children(d) may do to one process: its parent changes, and a wait for d becomes
a wait for a child of d. -/
structure Handed (d : Nat) (procs : List Pcb) (p q : Pcb) : Prop where
  rest : q = { p with parentPid := q.parentPid, waitingPid := q.waitingPid }
  waiting : q.waitingPid = p.waitingPid ∨
    p.waitingPid = d ∧ ∃ c ∈ procs, c.parentPid = d ∧ q.waitingPid = c.pid

namespace Handed
variable {d : Nat} {procs : List Pcb} {p q r : Pcb}

theorem addr (h : Handed d procs p q) : q.addr = p.addr := by rw [h.rest]
theorem pid (h : Handed d procs p q) : q.pid = p.pid := by rw [h.rest]
theorem status (h : Handed d procs p q) : q.status = p.status := by rw [h.rest]
theorem registers (h : Handed d procs p q) : q.registers = p.registers := by rw [h.rest]
theorem sleepTicks (h : Handed d procs p q) : q.sleepTicks = p.sleepTicks := by rw [h.rest]
theorem assets (h : Handed d procs p q) : assets q = assets p := by rw [h.rest]; rfl

theorem refl (d : Nat) (procs : List Pcb) (p : Pcb) : Handed d procs p p := ⟨rfl, .inl rfl⟩

theorem trans (h : Handed d procs p q) (h' : Handed d procs q r) : Handed d procs p r where
  rest := by
    rw [h'.rest, h.rest]
  waiting := by
    cases h.waiting with
    | inl hw =>
      cases h'.waiting with
      | inl hw' => exact .inl (hw'.trans hw)
      | inr hw' => exact .inr ⟨hw ▸ hw'.1, hw'.2⟩
    | inr hw =>
      cases h'.waiting with
      | inl hw' => exact .inr ⟨hw.1, hw' ▸ hw.2⟩
      | inr hw' => exact .inr ⟨hw.1, hw'.2⟩

theorem of_map {W : Pcb → Pcb} (h : Handed d (procs.map W) p q)
    (hW : ∀ p, (W p).parentPid = p.parentPid ∧ (W p).pid = p.pid) : Handed d procs p q where
  rest := h.rest
  waiting := by
    cases h.waiting with
    | inl hw => exact .inl hw
    | inr hw =>
      obtain ⟨hd, c', hc', hcd, hcp⟩ := hw
      obtain ⟨c, hc, rfl⟩ := List.mem_map.mp hc'
      exact .inr ⟨hd, c, hc, (hW c).1 ▸ hcd, (hW c).2 ▸ hcp⟩

end Handed

theorem reparentChild_spec {d g : Nat} {procs ps : List Pcb} (hn : (ps.map Pcb.addr).Nodup)
    {c : Pcb} (hc : c ∈ procs) :
    ∃ f, (∀ p ∈ ps, Handed d procs p (f p)) ∧ reparentChild d g ps c = ps.map f := by
  by_cases hd : c.parentPid = d
  · let adopt := onAddr c.addr fun p => { p with parentPid := g }
    let qs := ps.map adopt
    let hand (p : Pcb) : Pcb :=
      if firstKey Pcb.addr (waitsFor d) qs = some p.addr then { p with waitingPid := c.pid } else p
    have ha : ∀ p, Handed d procs p (adopt p) := by
      intro p
      by_cases h : p.addr = c.addr
      · rw [show adopt p = _ from onAddr_of_eq h]
        exact ⟨rfl, .inl rfl⟩
      · rw [show adopt p = _ from onAddr_of_ne h]
        exact Handed.refl d procs p
    have hqn : (qs.map Pcb.addr).Nodup := by
      rw [map_addr fun p => (ha p).addr]
      exact hn
    have hh : ∀ p ∈ qs, Handed d procs p (hand p) := by
      intro p hp
      by_cases h : firstKey Pcb.addr (waitsFor d) qs = some p.addr
      · obtain ⟨x, hx, hxa, hxw⟩ := firstKey_mem h
        have hpw : p.waitingPid = d := by
          rw [← addr_inj hqn hx hp hxa]
          simpa [waitsFor] using hxw
        rw [show hand p = _ from if_pos h]
        exact ⟨rfl, .inr ⟨hpw, c, hc, hd, rfl⟩⟩
      · rw [show hand p = _ from if_neg h]
        exact Handed.refl d procs p
    refine ⟨fun p => hand (adopt p), ?_, ?_⟩
    · intro p hp
      exact (ha p).trans (hh _ (List.mem_map_of_mem hp))
    · rw [reparentChild, if_pos hd]
      have := updateFirst_eq_map (q := waitsFor d)
        (f := fun p : Pcb => { p with waitingPid := c.pid }) hqn
      exact this.trans (List.map_map ..)
  · exact ⟨id, fun p _ => Handed.refl d procs p, by simp [reparentChild, hd]⟩

theorem reparentFold_spec {d g : Nat} {procs cs ps : List Pcb} (hn : (ps.map Pcb.addr).Nodup)
    (hcs : ∀ c ∈ cs, c ∈ procs) :
    ∃ f, (∀ p ∈ ps, Handed d procs p (f p)) ∧ cs.foldl (reparentChild d g) ps = ps.map f := by
  induction cs generalizing ps with
  | nil => exact ⟨id, fun p _ => Handed.refl d procs p, (List.map_id ps).symm⟩
  | cons c cs ih =>
    obtain ⟨f, hf, he⟩ := reparentChild_spec (g := g) (d := d) hn (hcs c List.mem_cons_self)
    have hfa : (ps.map f).map Pcb.addr = ps.map Pcb.addr := by
      rw [List.map_map]
      exact List.map_congr_left fun p hp => (hf p hp).addr
    have hn' : ((ps.map f).map Pcb.addr).Nodup := hfa ▸ hn
    obtain ⟨f', hf', he'⟩ := ih hn' fun c hc => hcs c (List.mem_cons_of_mem _ hc)
    refine ⟨fun p => f' (f p), ?_, ?_⟩
    · intro p hp
      exact (hf p hp).trans (hf' _ (List.mem_map_of_mem hp))
    · rw [List.foldl_cons, he, he', List.map_map]
      rfl

/-- reparent_children rewrites the list process by process. -/
theorem reparentChildren_spec {s : Sched} (hn : (s.procs.map Pcb.addr).Nodup) (g d : Nat) :
    ∃ f, (∀ p ∈ s.procs, Handed d s.procs p (f p)) ∧
      reparentChildren g d s = { s with procs := s.procs.map f } := by
  obtain ⟨f, hf, he⟩ := reparentFold_spec
    (g := ((s.procs.find? fun p => p.pid = d).map Pcb.parentPid).getD g) (d := d) hn fun _ h => h
  exact ⟨f, hf, by rw [reparentChildren, he]⟩

/-! ### scheduler_remove and update_scheduler -/

theorem currentProcess_eq {s : Sched} (hl : Listed s) :
    ∃ cur ∈ s.procs, cur.addr = s.current ∧ s.currentProcess = some cur := by
  obtain ⟨cur, hc, ha⟩ := hl.current
  refine ⟨cur, hc, ha, ?_⟩
  rw [Sched.currentProcess, ← ha]
  exact Sched.deref_of_mem hl.nodup hc

theorem modify_procs (s : Sched) (a : Nat) (f : Pcb → Pcb) :
    (s.modify a f).procs = s.procs.map (onAddr a f) := rfl

inductive Removed (pid : Nat) (s : Sched) : Removal → Prop
  | refused : pid = 1 ∨ pid = 2 → Removed pid s { sched := s, result := false }
  | self {cur : Pcb} : ¬(pid = 1 ∨ pid = 2) → cur ∈ s.procs → cur.addr = s.current →
      cur.pid = pid → Removed pid s
        { sched := { s with procs := s.procs.map (onAddr s.current (setStatus .zombie)) }
          result := true }
  | absent {cur : Pcb} {f : Pcb → Pcb} : ¬(pid = 1 ∨ pid = 2) → cur ∈ s.procs →
      cur.addr = s.current → cur.pid ≠ pid → (∀ p ∈ s.procs, p.pid ≠ pid) →
      (∀ p ∈ s.procs, Handed pid s.procs p (f p)) →
      Removed pid s { sched := { s with procs := s.procs.map f }, result := true }
  | gone {cur p : Pcb} {f : Pcb → Pcb} : ¬(pid = 1 ∨ pid = 2) → cur ∈ s.procs →
      cur.addr = s.current → cur.pid ≠ pid → p ∈ s.procs → p.pid = pid →
      (∀ p ∈ s.procs, Handed pid s.procs p (f p)) →
      Removed pid s
        { sched := { s with
            procs := (s.procs.filter fun q => decide (q.addr ≠ p.addr)).map f
            processQueueSize := sub32 s.processQueueSize 1 }
          result := true
          released := some (f p) }

theorem schedulerRemove_cases {s : Sched} {g pid : Nat} {r : Removal} (hl : Listed s)
    (h : schedulerRemove g pid s = some r) : Removed pid s r := by
  obtain ⟨cur, hc, ha, hcur⟩ := currentProcess_eq hl
  by_cases hp : pid = 1 ∨ pid = 2
  · have : { sched := s, result := false } = r := by simpa [schedulerRemove, hp] using h
    exact this ▸ .refused hp
  by_cases hs : pid = cur.pid
  · subst hs
    have : some { sched := s.modify s.current (setStatus .zombie), result := true } = some r := by
      simpa [schedulerRemove, hp, hcur] using h
    exact Option.some.inj this ▸ .self hp hc ha rfl
  obtain ⟨f, hf, he⟩ := reparentChildren_spec hl.nodup g pid
  have haddr : (s.procs.map f).map Pcb.addr = s.procs.map Pcb.addr := by
    rw [List.map_map]
    exact List.map_congr_left fun p hp => (hf p hp).addr
  simp only [schedulerRemove, if_neg hp, hcur, he, if_neg hs, Option.bind_eq_bind,
    Option.bind_some, Option.pure_def] at h
  cases hfind : (s.procs.map f).find? fun p => decide (p.pid = pid) with
  | none =>
    simp only [hfind] at h
    have habsent : ∀ p ∈ s.procs, p.pid ≠ pid := by
      intro p hp hpp
      have := List.find?_eq_none.mp hfind (f p) (List.mem_map_of_mem hp)
      simp [(hf p hp).pid, hpp] at this
    exact Option.some.inj h ▸ .absent hp hc ha (Ne.symm hs) habsent hf
  | some q =>
    simp only [hfind] at h
    obtain ⟨p, hpm, rfl⟩ := List.mem_map.mp (List.mem_of_find?_eq_some hfind)
    have hpp : p.pid = pid := by
      rw [← (hf p hpm).pid]
      simpa using List.find?_some hfind
    have hkey : firstKey Pcb.addr (fun p => decide (p.pid = pid)) (s.procs.map f) =
        some p.addr := by
      rw [firstKey, hfind, Option.map_some, (hf p hpm).addr]
    have herase : ((s.procs.map f).eraseP fun p => decide (p.pid = pid)) =
        (s.procs.filter fun q => decide (q.addr ≠ p.addr)).map f := by
      rw [eraseP_eq_filter (haddr ▸ hl.nodup), hkey, List.filter_map]
      congr 1
      refine List.filter_congr fun q hq => ?_
      simp [(hf q hq).addr, eq_comm]
    rw [herase] at h
    exact Option.some.inj h ▸ .gone hp hc ha (Ne.symm hs) hpm hpp hf

/- One round of update_scheduler: the list, the current process and the released block after it.
The list is given process by process, from the state before the call. -/
inductive Round (s : Sched) (regs : Registers) : List Pcb → Nat → Option Pcb → Prop
  | stay {cur : Pcb} : cur ∈ s.procs → cur.addr = s.current → cur.status ≠ .zombie →
      (decrementWait cur).status ≠ .waiting →
      Round s regs (s.procs.map decrementWait) s.current none
  | switch {cur nxt : Pcb} : cur ∈ s.procs → cur.addr = s.current → cur.status ≠ .zombie →
      nxt ∈ s.procs → (decrementWait nxt).status ≠ .waiting →
      Round s regs (s.procs.map fun p => onAddr nxt.addr (setStatus .running)
        (onAddr s.current (setRegisters regs) (decrementWait p))) nxt.addr none
  | keep {cur nxt : Pcb} : cur ∈ s.procs → cur.addr = s.current → cur.status = .zombie →
      nxt ∈ s.procs → (wakeFirst cur.pid s.procs (decrementWait nxt)).status ≠ .waiting →
      (nxt.addr = s.current → ∀ p ∈ s.procs, p.addr ≠ s.current →
        (wakeFirst cur.pid s.procs (decrementWait p)).status = .waiting) →
      (cur.pid = 1 ∨ cur.pid = 2) ∨ nxt.pid = cur.pid →
      Round s regs (s.procs.map fun p => onAddr nxt.addr (setStatus .running)
        (wakeFirst cur.pid s.procs (decrementWait p))) nxt.addr none
  | bury {cur nxt gone : Pcb} {f : Pcb → Pcb} : cur ∈ s.procs → cur.addr = s.current →
      cur.status = .zombie →
      nxt ∈ s.procs → (wakeFirst cur.pid s.procs (decrementWait nxt)).status ≠ .waiting →
      ¬(cur.pid = 1 ∨ cur.pid = 2) → nxt.pid ≠ cur.pid → gone ∈ s.procs → gone.pid = cur.pid →
      (∀ p ∈ s.procs, Handed cur.pid s.procs (wakeFirst cur.pid s.procs (decrementWait p)) (f p)) →
      Round s regs ((s.procs.filter fun p => decide (p.addr ≠ gone.addr)).map fun p =>
        onAddr nxt.addr (setStatus .running) (f p)) nxt.addr (some (f gone))

structure SameRest (s t : Sched) : Prop where
  foregroundPid : t.foregroundPid = s.foregroundPid
  stdin : t.stdin = s.stdin
  pidStatic : t.pidStatic = s.pidStatic
  enabled : t.enableScheduler = s.enableScheduler

def Loads (s : Sched) (regs : Registers) : Prop :=
  ∃ p ∈ s.procs, p.addr = s.current ∧ regs = p.registers ∧ s.esp0 = p.kernelStack ∧
    s.cr3 = p.pageDirectory

theorem resume_spec {s t : Sched} {regs : Registers} (h : resume s = some (t, regs)) :
    t.procs = s.procs.map (onAddr s.current (setStatus .running)) ∧ t.current = s.current ∧
      SameRest s t ∧ t.processQueueSize = s.processQueueSize ∧ Loads t regs := by
  obtain ⟨p, hp, h1⟩ := Option.bind_eq_some_iff.mp h
  obtain ⟨hpm, hpa⟩ := Sched.deref_mem hp
  cases h1
  exact ⟨rfl, rfl, ⟨rfl, rfl, rfl, rfl⟩, rfl, p, hpm, hpa, rfl, rfl, rfl⟩

theorem nodup_map {ps : List Pcb} {f : Pcb → Pcb} (hf : ∀ p, (f p).addr = p.addr)
    (hn : (ps.map Pcb.addr).Nodup) : ((ps.map f).map Pcb.addr).Nodup := by
  rw [map_addr hf]
  exact hn

def tick (s : Sched) : Sched :=
  { s with procs := s.procs.map decrementWait, quantumCounter := wrap (s.quantumCounter + 1) }

theorem tick_listed {s : Sched} (hl : Listed s) : Listed (tick s) where
  nodup := nodup_map decrementWait_addr hl.nodup
  current := by
    obtain ⟨p, hp, ha⟩ := hl.current
    exact ⟨decrementWait p, List.mem_map_of_mem hp, by rw [decrementWait_addr, ha]; rfl⟩
  enabled := hl.enabled

theorem switchAway_live {s t : Sched} {g : Nat} {regs : Registers} {cur : Pcb} {out : Option Pcb}
    (hn : (s.procs.map Pcb.addr).Nodup) (hz : cur.status ≠ .zombie)
    (h : switchAway g regs cur s = some (t, out)) :
    ∃ nxt ∈ s.procs, nxt.status ≠ .waiting ∧ out = none ∧
      t = { s with
        procs := s.procs.map (onAddr s.current (setRegisters regs)), current := nxt.addr } := by
  have hkeep : ∀ p, (onAddr s.current (setRegisters regs) p).addr = p.addr :=
    onAddr_setRegisters_addr s.current regs
  simp only [switchAway, if_neg hz] at h
  obtain ⟨u, hu, h1⟩ := Option.bind_eq_some_iff.mp h
  cases h1
  obtain ⟨q, hq, hqw, rfl, -⟩ := nextProcess_spec (nodup_map hkeep hn) hu
  obtain ⟨nxt, hnxt, rfl⟩ := List.mem_map.mp hq
  have hst : (onAddr s.current (setRegisters regs) nxt).status = nxt.status :=
    onAddr_setRegisters_status s.current regs nxt
  exact ⟨nxt, hnxt, hst ▸ hqw, rfl, by rw [hkeep]; rfl⟩

theorem schedulerWake_listed {s : Sched} (hl : Listed s) (pid : Nat) : Listed (schedulerWake pid s) where
  nodup := by
    rw [schedulerWake_procs hl.nodup]
    exact nodup_map (wakeFirst_addr pid s.procs) hl.nodup
  current := by
    obtain ⟨p, hp, ha⟩ := hl.current
    rw [schedulerWake_procs hl.nodup]
    exact ⟨wakeFirst pid s.procs p, List.mem_map_of_mem hp, by rw [wakeFirst_addr, ha]; rfl⟩
  enabled := hl.enabled

theorem switchAway_dead {s t : Sched} {g : Nat} {regs : Registers} {cur : Pcb} {out : Option Pcb}
    (hl : Listed s) (hz : cur.status = .zombie) (h : switchAway g regs cur s = some (t, out)) :
    ∃ q ∈ (schedulerWake cur.pid s).procs, q.status ≠ .waiting ∧
      (q.addr = s.current → ∀ p ∈ (schedulerWake cur.pid s).procs, p.addr ≠ s.current →
        p.status = .waiting) ∧
      ∃ r, Removed cur.pid { schedulerWake cur.pid s with current := q.addr } r ∧
        t = r.sched ∧ out = r.released := by
  have hw := schedulerWake_listed hl cur.pid
  simp only [switchAway, if_pos hz] at h
  obtain ⟨u, hu, h1⟩ := Option.bind_eq_some_iff.mp h
  obtain ⟨r, hr, h2⟩ := Option.bind_eq_some_iff.mp h1
  cases h2
  obtain ⟨q, hq, hqw, rfl, hall⟩ := nextProcess_spec hw.nodup hu
  have hlu : Listed { schedulerWake cur.pid s with current := q.addr } :=
    ⟨hw.nodup, ⟨q, hq, rfl⟩, hw.enabled⟩
  exact ⟨q, hq, hqw, hall, r, schedulerRemove_cases hlu hr, rfl, rfl⟩

theorem schedulerWake_tick {s : Sched} (hl : Listed s) (pid : Nat) :
    (schedulerWake pid (tick s)).procs =
      s.procs.map fun p => wakeFirst pid s.procs (decrementWait p) := by
  have hw : wakeFirst pid (tick s).procs = wakeFirst pid s.procs := by
    funext p
    have := firstWaiter_map decrementWait_addr decrementWait_waitingPid pid s.procs
    simp only [wakeFirst, tick, this]
  rw [schedulerWake_procs (tick_listed hl).nodup, hw]
  exact List.map_map ..

def stays (s : Sched) (cur : Pcb) : Bool :=
  !s.procs.any wakes && decide ((tick s).quantumCounter < schedulerQuantum) &&
    (decide ((decrementWait cur).status = .ready) || decide ((decrementWait cur).status = .running))

theorem updateScheduler_eq {s : Sched} {cur : Pcb} (hl : Listed s) (hc : cur ∈ s.procs)
    (ha : cur.addr = s.current) (g : Nat) (regs : Registers) :
    updateScheduler g regs s =
      if stays s cur then some { sched := tick s, regs := regs }
      else (switchAway g regs (decrementWait cur) (tick s)).bind fun r =>
        (resume r.1).bind fun u => some ⟨u.1, u.2, r.2⟩ := by
  have hcur : (tick s).currentProcess = some (decrementWait cur) := by
    have := Sched.deref_of_mem (tick_listed hl).nodup (List.mem_map_of_mem hc)
    rw [decrementWait_addr, ha] at this
    exact this
  have htick : { (decrementWaitProcess s).1 with
      quantumCounter := wrap ((decrementWaitProcess s).1.quantumCounter + 1) } = tick s := rfl
  simp only [updateScheduler, hl.enabled, htick, hcur, Bool.not_true, Bool.false_eq_true, if_false,
    Option.bind_eq_bind, Option.bind_some]
  rfl

theorem decrementWait_zombie {p : Pcb} :
    (decrementWait p).status = .zombie ↔ p.status = .zombie := by
  rw [decrementWait_status]
  by_cases h : p.sleepTicks = 1 ∧ p.status = .waiting <;> simp [h]

theorem switchAway_dead_round {s t : Sched} {g : Nat} {regs : Registers} {cur : Pcb} {rel : Option Pcb}
    (hl : Listed s) (hc : cur ∈ s.procs) (ha : cur.addr = s.current) (hz : cur.status = .zombie)
    (h : switchAway g regs (decrementWait cur) (tick s) = some (t, rel)) :
    Round s regs (t.procs.map (onAddr t.current (setStatus .running))) t.current rel ∧
      SameRest s t := by
  have hl' := tick_listed hl
  obtain ⟨q, hq, hqw, hall, r, hr, rfl, rfl⟩ := switchAway_dead hl' (decrementWait_zombie.mpr hz) h
  rw [decrementWait_pid] at hq hall hr
  have hwake := schedulerWake_tick hl cur.pid
  rw [hwake] at hq hall
  obtain ⟨nxt, hnxt, rfl⟩ := List.mem_map.mp hq
  simp only [wakeFirst_addr, decrementWait_addr] at hr hall
  have hothers : nxt.addr = s.current → ∀ p ∈ s.procs, p.addr ≠ s.current →
      (wakeFirst cur.pid s.procs (decrementWait p)).status = .waiting :=
    fun hn p hp hpc => hall hn _ (List.mem_map_of_mem hp) (by simpa [tick] using hpc)
  cases hr with
  | refused hp =>
    have hround : Round s regs _ _ _ := .keep hc ha hz hnxt hqw hothers (.inl hp)
    exact ⟨by simpa [hwake, Function.comp_def] using hround, rfl, rfl, rfl, rfl⟩
  | self hp hc' ha' hpid =>
    have hnp : nxt.pid = cur.pid := by
      have := addr_inj (schedulerWake_listed hl' cur.pid).nodup hc'
        (hwake ▸ List.mem_map_of_mem hnxt) (by simpa using ha')
      simpa [this] using hpid
    have hround : Round s regs _ _ _ := .keep hc ha hz hnxt hqw hothers (.inr hnp)
    refine ⟨?_, rfl, rfl, rfl, rfl⟩
    simpa [hwake, Function.comp_def, onAddr_setStatus_twice] using hround
  | absent hp hc' ha' hpid habs hf =>
    refine absurd ?_ (habs _ (hwake ▸ List.mem_map_of_mem hc))
    simp
  | @gone c p f hp hc' ha' hpid hg hgp hf =>
    have hnp : nxt.pid ≠ cur.pid := by
      have := addr_inj (schedulerWake_listed hl' cur.pid).nodup hc'
        (hwake ▸ List.mem_map_of_mem hnxt) (by simpa using ha')
      simpa [this] using hpid
    simp only [hwake] at hf hg
    obtain ⟨gone, hgm, rfl⟩ := List.mem_map.mp hg
    have hf' : ∀ p ∈ s.procs, Handed cur.pid s.procs
        (wakeFirst cur.pid s.procs (decrementWait p))
        (f (wakeFirst cur.pid s.procs (decrementWait p))) :=
      fun p hp => (hf _ (List.mem_map_of_mem hp)).of_map (by simp)
    have hgp' : gone.pid = cur.pid := by simpa using hgp
    have hround : Round s regs _ _ _ := .bury hc ha hz hnxt hqw hp hnp hgm hgp' hf'
    refine ⟨?_, rfl, rfl, rfl, rfl⟩
    simpa [hwake, List.filter_map, Function.comp_def] using hround

theorem switchAway_live_round {s t : Sched} {g : Nat} {regs : Registers} {cur : Pcb} {rel : Option Pcb}
    (hl : Listed s) (hc : cur ∈ s.procs) (ha : cur.addr = s.current) (hz : cur.status ≠ .zombie)
    (h : switchAway g regs (decrementWait cur) (tick s) = some (t, rel)) :
    Round s regs (t.procs.map (onAddr t.current (setStatus .running))) t.current rel ∧
      SameRest s t := by
  obtain ⟨nxt, hnxt, hw, rfl, rfl⟩ :=
    switchAway_live (tick_listed hl).nodup (mt decrementWait_zombie.mp hz) h
  obtain ⟨p, hp, rfl⟩ := List.mem_map.mp hnxt
  have hround : Round s regs _ _ _ := .switch hc ha hz hp hw
  refine ⟨?_, rfl, rfl, rfl, rfl⟩
  simpa [tick, Function.comp_def] using hround

theorem updateScheduler_round {s : Sched} {g : Nat} {regs : Registers} {out : Outcome}
    (hl : Listed s) (h : updateScheduler g regs s = some out) :
    Round s regs out.sched.procs out.sched.current out.released ∧ SameRest s out.sched := by
  obtain ⟨cur, hc, ha, -⟩ := currentProcess_eq hl
  rw [updateScheduler_eq hl hc ha] at h
  by_cases hstay : stays s cur = true
  · rw [if_pos hstay] at h
    cases h
    have hst : (decrementWait cur).status = .ready ∨ (decrementWait cur).status = .running := by
      simp only [stays, Bool.and_eq_true, Bool.or_eq_true, decide_eq_true_eq] at hstay
      exact hstay.2
    have hnz : (decrementWait cur).status ≠ .zombie := by cases hst <;> simp_all
    have hnw : (decrementWait cur).status ≠ .waiting := by cases hst <;> simp_all
    exact ⟨.stay hc ha (mt decrementWait_zombie.mpr hnz) hnw, rfl, rfl, rfl, rfl⟩
  rw [if_neg hstay] at h
  obtain ⟨⟨t, rel⟩, hsw, h1⟩ := Option.bind_eq_some_iff.mp h
  obtain ⟨⟨u, regs'⟩, hres, h2⟩ := Option.bind_eq_some_iff.mp h1
  cases h2
  obtain ⟨hup, huc, hur, -, -⟩ := resume_spec hres
  have hround : Round s regs (t.procs.map (onAddr t.current (setStatus .running))) t.current rel ∧
      SameRest s t := by
    by_cases hz : cur.status = .zombie
    · exact switchAway_dead_round hl hc ha hz hsw
    · exact switchAway_live_round hl hc ha hz hsw
  refine ⟨by rw [hup, huc]; exact hround.1, ?_⟩
  obtain ⟨hf, hi, hp, he⟩ := hround.2
  exact ⟨hur.1.trans hf, hur.2.trans hi, hur.3.trans hp, hur.4.trans he⟩

theorem schedulerRemove_size {s : Sched} {g pid : Nat} {r : Removal} (hl : Listed s)
    (h : schedulerRemove g pid s = some r) : r.sched.processQueueSize =
      if r.released.isSome then sub32 s.processQueueSize 1 else s.processQueueSize := by
  cases schedulerRemove_cases hl h with
  | refused | self | absent => rfl
  | gone => rw [Option.isSome_some, if_pos rfl]

theorem nextProcess_size {s t : Sched} (h : nextProcess s = some t) :
    t.processQueueSize = s.processQueueSize := by
  obtain ⟨_, _, h1⟩ := Option.bind_eq_some_iff.mp h
  obtain ⟨_, _, h2⟩ := Option.bind_eq_some_iff.mp h1
  obtain ⟨q, _, h3⟩ := Option.bind_eq_some_iff.mp h2
  by_cases hw : q.status = .waiting
  · simp [hw] at h3
  · rw [if_neg hw] at h3
    cases h3
    rfl

theorem updateScheduler_returns {s : Sched} {g : Nat} {regs : Registers} {out : Outcome} {cur : Pcb}
    (hl : Listed s) (hc : cur ∈ s.procs) (ha : cur.addr = s.current)
    (h : updateScheduler g regs s = some out) :
    out = { sched := tick s, regs := regs } ∨ ∃ t,
      switchAway g regs (decrementWait cur) (tick s) = some (t, out.released) ∧
      resume t = some (out.sched, out.regs) := by
  rw [updateScheduler_eq hl hc ha] at h
  by_cases hstay : stays s cur = true
  · rw [if_pos hstay] at h
    exact .inl (Option.some.inj h).symm
  · rw [if_neg hstay] at h
    obtain ⟨⟨t, rel⟩, hsw, h1⟩ := Option.bind_eq_some_iff.mp h
    obtain ⟨⟨u, regs'⟩, hres, h2⟩ := Option.bind_eq_some_iff.mp h1
    cases h2
    exact .inr ⟨t, hsw, hres⟩

theorem switchAway_size {s t : Sched} {g : Nat} {regs : Registers} {cur : Pcb} {rel : Option Pcb}
    (hl : Listed s) (h : switchAway g regs cur s = some (t, rel)) : t.processQueueSize =
      if rel.isSome then sub32 s.processQueueSize 1 else s.processQueueSize := by
  unfold switchAway at h
  by_cases hz : cur.status = .zombie
  · rw [if_pos hz] at h
    obtain ⟨u, hu, h1⟩ := Option.bind_eq_some_iff.mp h
    obtain ⟨r, hr, h2⟩ := Option.bind_eq_some_iff.mp h1
    cases h2
    have hw := schedulerWake_listed hl cur.pid
    obtain ⟨q, hq, _, rfl, _⟩ := nextProcess_spec hw.nodup hu
    have hlu : Listed { schedulerWake cur.pid s with current := q.addr } :=
      ⟨hw.nodup, ⟨q, hq, rfl⟩, hw.enabled⟩
    have hsize := schedulerRemove_size hlu hr
    exact hsize
  · rw [if_neg hz] at h
    obtain ⟨u, hu, h1⟩ := Option.bind_eq_some_iff.mp h
    cases h1
    have hsize := nextProcess_size hu
    exact hsize

theorem updateScheduler_size {s : Sched} {g : Nat} {regs : Registers} {out : Outcome}
    (hl : Listed s) (h : updateScheduler g regs s = some out) : out.sched.processQueueSize =
      if out.released.isSome then sub32 s.processQueueSize 1 else s.processQueueSize := by
  obtain ⟨cur, hc, ha, -⟩ := currentProcess_eq hl
  cases updateScheduler_returns hl hc ha h with
  | inl he =>
    rw [he]
    rfl
  | inr hr =>
    obtain ⟨t, hsw, hres⟩ := hr
    obtain ⟨-, -, -, hsize, -⟩ := resume_spec hres
    rw [hsize, switchAway_size (tick_listed hl) hsw]
    rfl

/-- A round returns to the interrupted process, or resumes one with the frame saved for it; the
one it gave up alive is resumed where it was interrupted. -/
theorem updateScheduler_resumed {s : Sched} {g : Nat} {regs : Registers} {out : Outcome} {cur : Pcb}
    (hl : Listed s) (hc : cur ∈ s.procs) (ha : cur.addr = s.current)
    (h : updateScheduler g regs s = some out) :
    (out.sched.current = s.current ∧ out.regs = regs ∧ out.sched.esp0 = s.esp0 ∧
      out.sched.cr3 = s.cr3) ∨ Loads out.sched out.regs ∧
      (out.sched.current = s.current → cur.status ≠ .zombie → out.regs = regs) := by
  cases updateScheduler_returns hl hc ha h with
  | inl he =>
    rw [he]
    exact .inl ⟨rfl, rfl, rfl, rfl⟩
  | inr hr =>
    obtain ⟨t, hsw, hres⟩ := hr
    obtain ⟨hprocs, hcur, -, -, hloads⟩ := resume_spec hres
    refine .inr ⟨hloads, fun hsame hz => ?_⟩
    have hz' : (decrementWait cur).status ≠ .zombie := by
      rw [decrementWait_status]
      split
      · decide
      · exact hz
    obtain ⟨nxt, -, -, -, ht⟩ := switchAway_live (tick_listed hl).nodup hz' hsw
    obtain ⟨q, hq, hqa, hregs, -⟩ := hloads
    rw [hregs]
    rw [hprocs] at hq
    obtain ⟨p, hp, rfl⟩ := List.mem_map.mp hq
    rw [ht] at hp
    obtain ⟨r, hr, rfl⟩ := List.mem_map.mp hp
    have hra : r.addr = s.current := by
      rw [← hsame, ← hqa]
      simp
    rw [onAddr_setStatus_registers]
    exact congrArg Pcb.registers (onAddr_of_eq hra)

end AdamOS.Scheduler
