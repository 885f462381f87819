import AdamOS.Kernel.RunQueue
import AdamOS.Lib.RoundRobin

/-! No process is starved. Every round of the scheduler goes on to the next process that is not WAITING,
and a process keeps the processor for one quantum at most, so the turn of each process that can run comes
after so many ticks. -/
namespace AdamOS.Lifecycle
open AdamOS.Process AdamOS.Scheduler AdamOS.ListUpdate AdamOS.Word AdamOS.Transition AdamOS.RoundRobin

def addresses (s : Sched) : List Nat := s.procs.map Pcb.addr

def CanRun (s : Sched) (a : Nat) : Prop := ∃ p ∈ s.procs, p.addr = a ∧ p.status ≠ .waiting

instance (s : Sched) (a : Nat) : Decidable (CanRun s a) := inferInstanceAs (Decidable (∃ p ∈ _, _))

variable {s t u : Sched} {ev : Event} {out : Outcome} {a n : Nat}

/-! ### The quantum -/

theorem typeChar_quantum (c : Nat) (focused : Bool) (s : Sched) :
    (typeChar c focused s).quantumCounter = s.quantumCounter := by
  cases focused <;> rfl

theorem handleInput_quantum (scancode : Nat) (focused : Bool) (s : Sched) :
    (handleInput scancode focused s).quantumCounter = s.quantumCounter := by
  have hchar : ∀ c, (if c ≠ 0 then typeChar c focused s else s).quantumCounter = s.quantumCounter := by
    intro c
    by_cases hc : c ≠ 0
    · rw [if_pos hc]
      exact typeChar_quantum ..
    · rw [if_neg hc]
  unfold handleInput
  split
  · exact typeChar_quantum ..
  split
  · exact typeChar_quantum ..
  split
  · exact hchar _
  · rfl

theorem stdinWakeProcess_quantum {regs : Registers} (h : stdinWakeProcess regs s = some out) :
    out.sched.quantumCounter = s.quantumCounter := by
  obtain ⟨cur, _, h1⟩ := Option.bind_eq_some_iff.mp h
  split at h1
  · cases h1
    rfl
  · obtain ⟨a, _, h2⟩ := Option.bind_eq_some_iff.mp h1
    obtain ⟨p, _, h3⟩ := Option.bind_eq_some_iff.mp h2
    obtain ⟨cur', _, h4⟩ := Option.bind_eq_some_iff.mp h3
    cases h4
    rfl

theorem sigintForeground_quantum (h : sigintForeground s = some t) :
    t.quantumCounter = s.quantumCounter := by
  simp only [sigintForeground, Option.bind_eq_bind] at h
  split at h
  · cases h
    rfl
  · obtain ⟨own, _, h1⟩ := Option.bind_eq_some_iff.mp h
    cases h1
    rfl

theorem keyboard_quantum {scancode : Nat} {focused : Bool} {regs : Registers}
    (h : keyboardHandlerMain scancode focused regs s = some out) :
    out.sched.quantumCounter = s.quantumCounter := by
  unfold keyboardHandlerMain at h
  cases hm : handleModifiers scancode s with
  | some t =>
    obtain ⟨shift, ctrl, rfl⟩ := handleModifiers_held hm
    simp only [hm] at h
    cases h
    rfl
  | none =>
    simp only [hm] at h
    split at h
    · obtain ⟨t, ht, h1⟩ := Option.bind_eq_some_iff.mp h
      cases h1
      exact sigintForeground_quantum ht
    split at h
    · cases h
      exact typeChar_quantum ..
    split at h
    · cases h
      rfl
    split at h
    · cases h
      rfl
    split at h
    · rw [stdinWakeProcess_quantum h, handleInput_quantum]
    · cases h
      exact handleInput_quantum ..

theorem removed_quantum {pid : Nat} {r : Removal} (h : Removed pid s r) :
    r.sched.quantumCounter = s.quantumCounter := by
  cases h <;> rfl

theorem syscall_quantum (hl : Listed s) (he : ev.entry = .syscall) (hno : enters s ev = none)
    (h : syscallHandlerMain ev.env ev.regs s = some out) :
    out.sched.quantumCounter = s.quantumCounter := by
  obtain ⟨cur, hcm, _, hcur⟩ := currentProcess_eq hl
  simp only [syscallHandlerMain] at h
  rw [enters_syscall hcur he] at hno
  cases hn : Syscall.ofNumber ev.regs.eax with
  | none =>
    simp only [hn] at h
    cases h
    rfl
  | some sc =>
    simp only [hn] at h hno
    cases sc with
    | exit =>
      by_cases hp : cur.pid = 1 ∨ cur.pid = 2 <;> simp [hp] at hno
    | wait => simp at hno
    | sleep =>
      simp only [handleSyscallSleep_eq hcur] at h
      by_cases hz : ev.regs.ebx = 0 ∨ cur.pid = 1
      · rw [if_pos hz] at h
        cases h
        rfl
      · simp [hz] at hno
    | read =>
      simp only [handleSyscallRead, hcur, Option.bind_eq_bind, Option.bind_some] at h
      split at h
      next hfd =>
        by_cases hb : readBlocks ev.regs s
        · simp [blocksOnStdin, hfd, hb] at hno
        · rw [if_neg hb] at h
          cases h
          rfl
      next =>
        cases h
        rfl
      next =>
        cases h
        rfl
    | fork =>
      simp only [handleSyscallFork, hcur, Option.bind_eq_bind, Option.bind_some] at h
      by_cases hin : ev.env.pcbAddr ∈ s.procs.map Pcb.addr
      · rw [if_pos hin] at h
        cases h
      rw [if_neg hin] at h
      cases h
      obtain ⟨p, ps, hps⟩ := List.exists_cons_of_ne_nil (List.ne_nil_of_mem hcm)
      simp [schedulerEnqueue, hps]
    | kill =>
      obtain ⟨r, hr, h1⟩ := Option.bind_eq_some_iff.mp h
      cases h1
      exact removed_quantum (schedulerRemove_cases hl hr)
    | write =>
      obtain ⟨c, _, h1⟩ := Option.bind_eq_some_iff.mp h
      split at h1 <;> (cases h1; rfl)
    | getpid | getppid =>
      simp only [hcur, Option.map_some] at h
      cases h
      rfl
    | _ =>
      cases h
      rfl

theorem handle_quantum (hl : Listed s) (hno : enters s ev = none) (h : handle s ev = some out) :
    out.sched.quantumCounter = s.quantumCounter := by
  obtain ⟨cur, _, _, hcur⟩ := currentProcess_eq hl
  simp only [handle] at h
  cases he : ev.entry with
  | timer => simp [enters, hcur, he] at hno
  | keyboard scancode focused =>
    simp only [he] at h
    exact keyboard_quantum h
  | syscall =>
    simp only [he] at h
    exact syscall_quantum hl he hno h

/-! ### The order of the list -/

theorem addresses_map {F : Pcb → Pcb} (hp : t.procs = s.procs.map F) (hF : ∀ p ∈ s.procs, (F p).addr = p.addr) :
    addresses t = addresses s := by
  rw [addresses, hp, List.map_map]
  exact List.map_congr_left hF

theorem addresses_filter {keep : Nat → Bool} {F : Pcb → Pcb}
    (hp : t.procs = (s.procs.filter fun p => keep p.addr).map F) (hF : ∀ p ∈ s.procs, (F p).addr = p.addr) :
    addresses t = (addresses s).filter keep := by
  rw [addresses, addresses, hp, List.map_map, List.filter_map]
  exact List.map_congr_left fun p hp => hF p (List.mem_filter.mp hp).1

/- What an entry leaves of the order of the list: some blocks go, the others keep their places. -/
def Thinned (xs ys : List Nat) : Prop := ∃ keep, ys = xs.filter keep

theorem Thinned.of_eq {xs ys : List Nat} (h : ys = xs) : Thinned xs ys :=
  ⟨fun _ => true, by rw [h, List.filter_true]⟩

theorem Quiet.addresses (h : Quiet s t) : addresses t = addresses s := by
  obtain ⟨f, hp, hf⟩ := h.procs
  exact addresses_map hp fun p _ => by rw [hf p]

theorem removed_addresses {pid : Nat} {r : Removal} (h : Removed pid s r) :
    Thinned (addresses s) (addresses r.sched) := by
  cases h with
  | refused => exact .of_eq rfl
  | self => exact .of_eq (addresses_map rfl fun p _ => by simp)
  | absent _ _ _ _ _ hf => exact .of_eq (addresses_map rfl fun p hp => (hf p hp).addr)
  | @gone _ p f _ _ _ _ _ _ hf =>
    exact ⟨fun b => decide (b ≠ p.addr), addresses_filter rfl fun p hp => (hf p hp).addr⟩

theorem round_addresses {regs : Registers} {c : Nat} {rel : Option Pcb}
    (h : Round s regs t.procs c rel) : Thinned (addresses s) (addresses t) := by
  generalize hps : t.procs = ps at h
  cases h with
  | stay => exact .of_eq (addresses_map hps fun p _ => by simp)
  | switch => exact .of_eq (addresses_map hps fun p _ => by simp)
  | keep => exact .of_eq (addresses_map hps fun p _ => by simp)
  | @bury cur nxt gone f _ _ _ _ _ _ _ _ _ hf =>
    refine ⟨fun b => decide (b ≠ gone.addr), addresses_filter hps fun p hp => ?_⟩
    have ha := (hf p hp).addr
    simpa using ha

theorem entered_addresses {cur : Pcb} {f : Pcb → Pcb} (h : Entered s ev cur f u) :
    addresses u = addresses s :=
  addresses_map h.procs fun p _ => onAddr_field Pcb.addr f h.caller.keeps.addr _ p

/-- The list loses blocks, and gains one at the end by a fork only. The processor changes hands only
where update_scheduler is called. -/
theorem step_addresses (hl : Listed s) (hout : handle s ev = some out) :
    (Thinned (addresses s) (addresses out.sched) ∧ ¬Calls ev .fork ∨
      Calls ev .fork ∧ ∃ d, addresses out.sched = addresses s ++ [d]) ∧
    (enters s ev = none → out.sched.current = s.current) := by
  have hquiet : ∀ {t}, Quiet s t → Thinned (addresses s) (addresses t) := fun h => .of_eq h.addresses
  have heff := handle_effect hl hout
  obtain ⟨t, regs, released⟩ := out
  cases heff with
  | quiet hq _ hr => exact ⟨.inl ⟨hquiet hq, hr.1⟩, fun _ => hq.current⟩
  | schedule he hu =>
    obtain ⟨cur, f, hent⟩ := enters_spec hl he
    obtain ⟨hround, -⟩ := updateScheduler_round (hent.listed hl) hu
    refine ⟨.inl ⟨entered_addresses hent ▸ round_addresses hround, ?_⟩, fun hno => ?_⟩
    · exact fun hf => by cases hent.caller <;> simp_all [Calls]
    · rw [he] at hno
      cases hno
  | @fork _ child hc _ hp hcur =>
    refine ⟨.inr ⟨hc, child.addr, ?_⟩, fun _ => hcur⟩
    rw [addresses, hp, List.map_append]
    rfl
  | kill hc hrem => exact ⟨.inl ⟨removed_addresses hrem, not_calls hc (by decide)⟩, fun _ => by cases hrem <;> rfl⟩
  | interrupt he _ hi =>
    have hnf : ¬Calls ev .fork := fun hc => by simp [Calls, he] at hc
    cases sigintForeground_cases hl hi with
    | inl hq => exact ⟨.inl ⟨hquiet hq, hnf⟩, fun _ => hq.current⟩
    | inr hi => exact ⟨.inl ⟨.of_eq (addresses_map hi.procs fun p _ => by simp), hnf⟩, fun _ => hi.current⟩
  | @wake _ scancode focused he hq hw =>
    have hnf : ¬Calls ev .fork := fun hc => by simp [Calls, he] at hc
    have hlu : Listed (handleInput scancode focused s) := by
      refine ⟨?_, ?_, hq.enabled.trans hl.enabled⟩
      · rw [handleInput_procs]
        exact hl.nodup
      · rw [handleInput_procs, hq.current]
        exact hl.current
    rcases stdinWakeProcess_cases hlu hw with hsame | ⟨b, p, hd⟩
    · rw [hsame]
      exact ⟨.inl ⟨hquiet hq, hnf⟩, fun _ => hq.current⟩
    · refine ⟨.inl ⟨.of_eq ?_, hnf⟩, fun _ => hd.current.trans hq.current⟩
      exact (addresses_map hd.procs fun p _ => delivered_addr ..).trans hq.addresses

/-! ### Rounds -/

/-- next_process passes over no process that can run. -/
theorem nextProcess_between {v w : Sched} {pre : List Nat} (hn : (addresses v).Nodup)
    (hsize : v.procs.length ≤ v.processQueueSize) (hb : Between (addresses v) v.current a pre)
    (ha : CanRun v a) (h : nextProcess v = some w) : w.current ∈ pre ∨ w.current = a := by
  obtain ⟨before, later, rest, hsplit, hround⟩ := hb
  obtain ⟨p, hp, hpa, hpw⟩ := ha
  obtain ⟨ps, qs, hps, rfl, htail⟩ := List.map_eq_append_iff.mp hsplit
  obtain ⟨cur, qs, rfl, hcur, rfl⟩ := List.map_eq_cons_iff.mp htail
  rw [← List.map_append] at hround
  obtain ⟨pres, rests, hround, rfl, htail⟩ := List.map_eq_append_iff.mp hround
  obtain ⟨r, rests, rfl, hra, -⟩ := List.map_eq_cons_iff.mp htail
  have hr : r ∈ v.procs := by
    have hmem : r ∈ qs ++ ps := by
      rw [hround]
      exact List.mem_append_right _ List.mem_cons_self
    rw [hps]
    rcases List.mem_append.mp hmem with h | h
    · exact List.mem_append_right _ (List.mem_cons_of_mem _ h)
    · exact List.mem_append_left _ h
  have hrp : r = p := addr_inj hn hr hp (hra.trans hpa.symm)
  have hawake : runnable r = true := by
    rw [hrp]
    exact decide_eq_true hpw
  obtain ⟨q, hq⟩ := find_runnable hps hp hpw
  rw [nextProcess_runs hn hps hcur hsize hq] at h
  rw [← Option.some.inj h, ← hra]
  rcases Between.find hround hawake hq with hq | hq
  · exact .inl (List.mem_map_of_mem hq)
  · exact .inr (congrArg Pcb.addr hq)

theorem canRun_map {F : Pcb → Pcb} (hp : t.procs = s.procs.map F) (hF : ∀ p ∈ s.procs, (F p).addr = p.addr)
    (hw : ∀ p ∈ s.procs, (F p).status = .waiting → p.status = .waiting) (h : CanRun s a) : CanRun t a := by
  obtain ⟨p, hpm, hpa, hpw⟩ := h
  exact ⟨F p, hp ▸ List.mem_map_of_mem hpm, (hF p hpm).trans hpa, fun h => hpw (hw p hpm h)⟩

theorem tick_canRun (h : CanRun u a) : CanRun (tick u) a :=
  canRun_map rfl (fun p _ => decrementWait_addr p) (fun _ _ h => (decrementWait_waiting.mp h).1) h

theorem switchAway_current {g : Nat} {regs : Registers} {cur : Pcb} {rel : Option Pcb} {v : Sched}
    (hl : Listed v) (h : switchAway g regs cur v = some (t, rel)) : ∃ w n, nextProcess w = some n ∧
      t.current = n.current ∧ w.current = v.current ∧ w.processQueueSize = v.processQueueSize ∧
      addresses w = addresses v ∧ w.procs.length = v.procs.length ∧ (CanRun v a → CanRun w a) := by
  unfold switchAway at h
  by_cases hz : cur.status = .zombie
  · rw [if_pos hz] at h
    obtain ⟨n, hn, h1⟩ := Option.bind_eq_some_iff.mp h
    obtain ⟨r, hr, h2⟩ := Option.bind_eq_some_iff.mp h1
    cases h2
    have hwake := schedulerWake_procs hl.nodup cur.pid
    have hlw := schedulerWake_listed hl cur.pid
    obtain ⟨q, hq, -, rfl, -⟩ := nextProcess_spec hlw.nodup hn
    have hln : Listed { schedulerWake cur.pid v with current := q.addr } := ⟨hlw.nodup, ⟨q, hq, rfl⟩, hlw.enabled⟩
    refine ⟨_, _, hn, ?_, rfl, rfl, addresses_map hwake fun p _ => by simp, ?_, fun ha => ?_⟩
    · cases schedulerRemove_cases hln hr <;> rfl
    · rw [hwake, List.length_map]
    · refine canRun_map hwake (fun p _ => by simp) (fun p _ hw => ?_) ha
      by_cases hf : firstWaiter cur.pid v.procs = some p.addr
      · rw [wakeFirst_of_first hf] at hw
        simp at hw
      · rw [wakeFirst_of_not hf] at hw
        exact hw
  · rw [if_neg hz] at h
    obtain ⟨n, hn, h1⟩ := Option.bind_eq_some_iff.mp h
    cases h1
    refine ⟨_, _, hn, rfl, rfl, rfl, addresses_map rfl fun p _ => by simp, List.length_map _, fun ha => ?_⟩
    exact canRun_map rfl (fun p _ => by simp) (fun p _ hw => by simpa using hw) ha

/- The turn of the process in block `a` comes within n ticks. -/
def Due (s : Sched) (a n : Nat) : Prop :=
  s.quantumCounter < schedulerQuantum ∧ ∃ pre, Between (addresses s) s.current a pre ∧
    schedulerQuantum * (pre.length + 1) ≤ n + s.quantumCounter

theorem Due.pos (h : Due s a n) : 0 < n := by
  obtain ⟨hq, pre, -, hn⟩ := h
  have hpos : schedulerQuantum ≤ schedulerQuantum * (pre.length + 1) := Nat.le_mul_of_pos_right _ (Nat.succ_pos _)
  omega

/-- A process that leaves the list does not put the turn off. -/
theorem Due.thinned (h : Due s a n) (hq : t.quantumCounter = s.quantumCounter) (hc : t.current = s.current)
    (hcur : t.current ∈ addresses t) (ha : a ∈ addresses t) (hlist : Thinned (addresses s) (addresses t)) :
    Due t a n := by
  obtain ⟨hlt, pre, hb, hn⟩ := h
  obtain ⟨keep, hkeep⟩ := hlist
  rw [hkeep, hc] at hcur
  rw [hkeep] at ha
  refine ⟨hq ▸ hlt, pre.filter keep, ?_, ?_⟩
  · rw [hkeep, hc]
    exact hb.filter (List.mem_filter.mp hcur).2 (List.mem_filter.mp ha).2
  · have hlen := List.length_filter_le keep pre
    have hmul := Nat.mul_le_mul_left schedulerQuantum (Nat.succ_le_succ hlen)
    rw [hq]
    exact Nat.le_trans hmul hn

theorem Due.appended {d : Nat} (h : Due s a n) (hq : t.quantumCounter = s.quantumCounter)
    (hc : t.current = s.current) (hlist : addresses t = addresses s ++ [d]) :
    Due t a (n + schedulerQuantum) := by
  obtain ⟨hlt, pre, hb, hn⟩ := h
  obtain ⟨pre', hb', hlen⟩ := hb.append d
  refine ⟨hq ▸ hlt, pre', by rw [hlist, hc]; exact hb', ?_⟩
  unfold schedulerQuantum at hn ⊢
  rw [hq]
  omega

/-- A switch brings the turn nearer by more than what was left of the quantum. -/
theorem Due.switched (h : Due s a n) (hq : t.quantumCounter = 0) (hsame : t.current ≠ a)
    (hnext : ∀ pre, Between (addresses s) s.current a pre → t.current ∈ pre ∨ t.current = a)
    (hcur : t.current ∈ addresses t) (ha : a ∈ addresses t) (hlist : Thinned (addresses s) (addresses t)) :
    Due t a (n - 1) := by
  obtain ⟨hlt, pre, hb, hn⟩ := h
  obtain ⟨pre', hb', hlen⟩ := hb.advance ((hnext pre hb).resolve_right hsame)
  have hdue : Due { s with current := t.current, quantumCounter := 0 } a (n - 1) := by
    refine ⟨Nat.zero_lt_succ _, pre', hb', ?_⟩
    unfold schedulerQuantum at hn hlt ⊢
    dsimp only
    omega
  exact hdue.thinned hq rfl hcur ha hlist

/-- A tick that goes back to the interrupted process counts towards its quantum. -/
theorem Due.ticked (h : Due s a n) (hq : t.quantumCounter = s.quantumCounter + 1)
    (hlt : t.quantumCounter < schedulerQuantum) (hc : t.current = s.current)
    (hlist : addresses t = addresses s) : Due t a (n - 1) := by
  have hpos := h.pos
  obtain ⟨-, pre, hb, hn⟩ := h
  exact ⟨hlt, pre, by rw [hlist, hc]; exact hb, by rw [hq]; omega⟩

theorem resume_quantum {regs : Registers} {v w : Sched} (h : resume v = some (w, regs)) :
    w.quantumCounter = 0 := by
  obtain ⟨p, _, h1⟩ := Option.bind_eq_some_iff.mp h
  cases h1
  rfl

theorem enters_quantum (he : enters s ev = some u) : u.quantumCounter = s.quantumCounter := by
  obtain ⟨cur, hcur, h⟩ := Option.bind_eq_some_iff.mp he
  split at h
  · cases h; rfl
  · cases h
  · split at h
    · split at h <;> (cases h; rfl)
    · cases h; rfl
    · split at h <;> cases h
      rfl
    · split at h <;> cases h
      rfl
    · cases h

theorem Due.round {g : Nat} {regs : Registers} (hlu : Listed u) (hsize : u.processQueueSize = u.procs.length)
    (hlt : Listed out.sched) (ha : CanRun u a) (ha' : a ∈ addresses out.sched) (hne : out.sched.current ≠ a)
    (h : updateScheduler g regs u = some out) (hdue : Due u a n) : Due out.sched a (n - 1) := by
  obtain ⟨cur, hc, hca, -⟩ := currentProcess_eq hlu
  obtain ⟨hround, -⟩ := updateScheduler_round hlu h
  have hcur : out.sched.current ∈ addresses out.sched := by
    obtain ⟨p, hp, hpa⟩ := hlt.current
    exact hpa ▸ List.mem_map_of_mem hp
  have hlist := round_addresses hround
  have htick : addresses (tick u) = addresses u := addresses_map rfl fun p _ => decrementWait_addr p
  rw [updateScheduler_eq hlu hc hca] at h
  by_cases hstay : stays u cur = true
  · rw [if_pos hstay] at h
    have hq : (tick u).quantumCounter < schedulerQuantum := by
      simp only [stays, Bool.and_eq_true, decide_eq_true_eq] at hstay
      exact hstay.1.2
    have hsched : out.sched = tick u := by rw [← Option.some.inj h]
    rw [hsched]
    refine hdue.ticked ?_ hq rfl htick
    exact Nat.mod_eq_of_lt (Nat.lt_of_le_of_lt (Nat.succ_le_of_lt hdue.1) (by decide))
  · rw [if_neg hstay] at h
    obtain ⟨⟨v, rel⟩, hsw, h1⟩ := Option.bind_eq_some_iff.mp h
    obtain ⟨⟨w, regs'⟩, hres, h2⟩ := Option.bind_eq_some_iff.mp h1
    cases h2
    obtain ⟨-, hwc, -, -, -⟩ := resume_spec hres
    obtain ⟨x, y, hnext, hvc, hxc, hxs, hxa, hxl, hrun⟩ := switchAway_current (tick_listed hlu) hsw
    refine hdue.switched (resume_quantum hres) hne (fun pre hb => ?_) hcur ha' hlist
    rw [hwc, hvc]
    refine nextProcess_between ?_ ?_ ?_ (hrun (tick_canRun ha)) hnext
    · rw [hxa]
      exact (tick_listed hlu).nodup
    · rw [hxs, hxl, tick, List.length_map]
      exact Nat.le_of_eq hsize.symm
    · rw [hxa, hxc, htick]
      exact hb

theorem updateScheduler_quantum {g : Nat} {regs : Registers} (hlu : Listed u)
    (h : updateScheduler g regs u = some out) : out.sched.quantumCounter < schedulerQuantum := by
  obtain ⟨cur, hc, hca, -⟩ := currentProcess_eq hlu
  rw [updateScheduler_eq hlu hc hca] at h
  by_cases hstay : stays u cur = true
  · rw [if_pos hstay] at h
    simp only [stays, Bool.and_eq_true, decide_eq_true_eq] at hstay
    rw [← Option.some.inj h]
    exact hstay.1.2
  · rw [if_neg hstay] at h
    obtain ⟨⟨v, rel⟩, hsw, h1⟩ := Option.bind_eq_some_iff.mp h
    obtain ⟨⟨w, regs'⟩, hres, h2⟩ := Option.bind_eq_some_iff.mp h1
    cases h2
    rw [resume_quantum hres]
    exact Nat.zero_lt_succ _

theorem step_quantum (hl : Listed s) (hq : s.quantumCounter < schedulerQuantum) (h : step s ev = some t) :
    t.quantumCounter < schedulerQuantum := by
  obtain ⟨out, hout, rfl⟩ := Option.map_eq_some_iff.mp h
  cases he : enters s ev with
  | none =>
    rw [handle_quantum hl he hout]
    exact hq
  | some u =>
    obtain ⟨cur, -, -, hcur⟩ := currentProcess_eq hl
    obtain ⟨_, _, hent⟩ := enters_spec hl he
    rw [handle_of_enters hcur he] at hout
    exact updateScheduler_quantum (hent.listed hl) hout

/-! ### Runs -/

def PassedOver (a : Nat) (s : Sched) : Prop := CanRun s a ∧ s.current ≠ a

def forkCount (es : List Event) : Nat := es.countP fun ev => Calls ev .fork

def tickCount (es : List Event) : Nat := es.countP fun ev => ev.entry = .timer

theorem step_due (hr : RunQueue s) (hs : RunQueue t) (hpass : PassedOver a s) (hpass' : PassedOver a t)
    (h : step s ev = some t) (hdue : Due s a n) :
    ∃ m, Due t a m ∧ m + tickCount [ev] ≤ n + schedulerQuantum * forkCount [ev] := by
  have hl := hr.sane.listed
  obtain ⟨out, hout, rfl⟩ := Option.map_eq_some_iff.mp h
  obtain ⟨hlist, hstill⟩ := step_addresses hl hout
  have hpos := hdue.pos
  have ha : a ∈ addresses out.sched := by
    obtain ⟨p, hp, hpa, -⟩ := hpass'.1
    exact hpa ▸ List.mem_map_of_mem hp
  have hcur : out.sched.current ∈ addresses out.sched := by
    obtain ⟨p, hp, hpa⟩ := hs.sane.listed.current
    exact hpa ▸ List.mem_map_of_mem hp
  have htick : tickCount [ev] ≤ 1 := List.countP_le_length
  cases he : enters s ev with
  | some u =>
    obtain ⟨cur, -, -, hc⟩ := currentProcess_eq hl
    obtain ⟨cur', f, hent⟩ := enters_spec hl he
    rw [handle_of_enters hc he] at hout
    have hsize : u.processQueueSize = u.procs.length := by
      rw [enters_size he, hent.procs, List.length_map]
      exact hr.size
    have hrun : CanRun u a := by
      obtain ⟨p, hp, hpa, hpw⟩ := hpass.1
      have hne : p.addr ≠ s.current := fun h => hpass.2 (h.symm.trans hpa)
      refine ⟨p, ?_, hpa, hpw⟩
      rw [hent.procs]
      exact List.mem_map.mpr ⟨p, hp, onAddr_of_ne hne⟩
    have hdueu : Due u a n := by
      obtain ⟨hq, pre, hb, hn⟩ := hdue
      rw [← enters_quantum he] at hq hn
      exact ⟨hq, pre, by rw [entered_addresses hent, hent.current]; exact hb, hn⟩
    refine ⟨n - 1, hdueu.round (hent.listed hl) hsize hs.sane.listed hrun ha hpass'.2 hout, ?_⟩
    omega
  | none =>
    have hq := handle_quantum hl he hout
    have hc := hstill he
    have hnot : tickCount [ev] = 0 := by
      obtain ⟨cur, -, -, hcp⟩ := currentProcess_eq hl
      refine List.countP_eq_zero.mpr fun e hmem htimer => ?_
      rw [List.mem_singleton.mp hmem] at htimer
      simp [enters, hcp, of_decide_eq_true htimer] at he
    rcases hlist with ⟨hthin, -⟩ | ⟨hfork, d, happ⟩
    · exact ⟨n, hdue.thinned hq hc hcur ha hthin, by omega⟩
    · have hone : forkCount [ev] = 1 := by
        rw [forkCount, List.countP_singleton, if_pos (decide_eq_true hfork)]
      exact ⟨n + schedulerQuantum, hdue.appended hq hc happ, by rw [hone]; omega⟩

def visited : List Event → Sched → List Sched
  | [], s => [s]
  | ev :: es, s => s :: (step s ev).elim [] (visited es)

theorem visited_head (es : List Event) (s : Sched) : s ∈ visited es s := by
  cases es <;> exact List.mem_cons_self

/-- While a process is passed over its turn comes nearer with every tick. -/
theorem run_due (es : List Event) (hr : RunQueue s) (hg : Guarded step QueueGuard es s)
    (h : run step es s = some t) (hpass : ∀ x ∈ visited es s, PassedOver a x) (hdue : Due s a n) :
    ∃ m, Due t a m ∧ m + tickCount es ≤ n + schedulerQuantum * forkCount es := by
  induction es generalizing s n with
  | nil =>
    cases h
    exact ⟨n, hdue, Nat.le_refl _⟩
  | cons ev es ih =>
    obtain ⟨u, hu, hrest⟩ := Option.bind_eq_some_iff.mp h
    have hru := step_runQueue hr hg.1 hu
    have hvisit : ∀ x ∈ visited es u, PassedOver a x := fun x hx => hpass x <| by
      rw [visited, hu]
      exact List.mem_cons_of_mem _ hx
    obtain ⟨m, hm, hle⟩ := step_due hr hru (hpass s (visited_head _ s)) (hvisit u (visited_head _ u)) hu hdue
    obtain ⟨k, hk, hle'⟩ := ih hru (hg.2 u hu) hrest hvisit hm
    refine ⟨k, hk, ?_⟩
    have htick : tickCount (ev :: es) = tickCount [ev] + tickCount es := @List.countP_append _ _ [ev] es
    have hfork : forkCount (ev :: es) = forkCount [ev] + forkCount es := @List.countP_append _ _ [ev] es
    rw [htick, hfork, Nat.mul_add]
    omega

/-- From any reachable state on, a listed process gets the processor, blocks or is removed before there
have been as many ticks as there are quanta of the other processes and of those forked meanwhile. -/
theorem turn_comes {c : BootConfig} {es : List Event} (h : Reach step QueueGuard (boot c) s)
    (hg : Guarded step QueueGuard es s) (hrun : run step es s = some t)
    (hticks : schedulerQuantum * (s.procs.length - 1 + forkCount es) ≤ tickCount es) :
    ∃ x ∈ visited es s, x.current = a ∨ ¬CanRun x a := by
  obtain ⟨hr, hq⟩ := h.invariant (fun s => RunQueue s ∧ s.quantumCounter < schedulerQuantum)
    ⟨boot_runQueue c, Nat.zero_lt_succ _⟩
    fun _ _ _ hs hg ht => ⟨step_runQueue hs.1 hg ht, step_quantum hs.1.sane.listed hs.2 ht⟩
  by_contra hno
  have hpass : ∀ x ∈ visited es s, PassedOver a x := by
    intro x hx
    by_contra hnot
    refine hno ⟨x, hx, ?_⟩
    by_cases hc : x.current = a
    · exact .inl hc
    · exact .inr fun hrun => hnot ⟨hrun, hc⟩
  obtain ⟨⟨p, hp, hpa, -⟩, hne⟩ := hpass s (visited_head es s)
  obtain ⟨c, hc, hca⟩ := hr.sane.listed.current
  obtain ⟨pre, hb⟩ := exists_between (hca ▸ List.mem_map_of_mem hc : s.current ∈ addresses s)
    (hpa ▸ List.mem_map_of_mem hp : a ∈ addresses s) (Ne.symm hne)
  have hlen := hb.length_le
  rw [addresses, List.length_map] at hlen
  have hdue : Due s a (schedulerQuantum * (s.procs.length - 1)) := by
    exact ⟨hq, pre, hb, Nat.le_trans (Nat.mul_le_mul_left _ (by omega)) (Nat.le_add_right _ _)⟩
  obtain ⟨m, hm, hle⟩ := run_due es hr hg hrun hpass hdue
  have hpos := hm.pos
  rw [Nat.mul_add] at hticks
  omega

/- idle gets the processor within one quantum of main. -/
theorem idle_turn_comes : ∃ x ∈ visited quantum (boot sampleBoot),
    x.current = (bootIdle sampleBoot).addr ∨ ¬CanRun x (bootIdle sampleBoot).addr := by
  have h : (run step quantum (boot sampleBoot)).isSome := by decide +kernel
  obtain ⟨t, ht⟩ := Option.isSome_iff_exists.mp h
  exact turn_comes .refl (by decide +kernel) ht (by decide)

end AdamOS.Lifecycle
