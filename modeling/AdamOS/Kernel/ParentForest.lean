import AdamOS.Kernel.Waiting

/-! The parent links. Every entry leaves them alone, adds a child of a listed process, or takes
one process out and hands its children to its own parent. -/
namespace AdamOS.Lifecycle
open AdamOS.Process AdamOS.Scheduler AdamOS.ListUpdate AdamOS.Word AdamOS.Transition

structure Kin where
  addr : Nat
  pid : Nat
  parentPid : Nat
deriving DecidableEq

def kin (p : Pcb) : Kin := ⟨p.addr, p.pid, p.parentPid⟩

/- Every link is 0 or leads to a listed process with a smaller pid. -/
def Forest (ks : List Kin) : Prop :=
  ∀ k ∈ ks, k.parentPid = 0 ∨ ∃ l ∈ ks, l.pid = k.parentPid ∧ l.pid < k.pid

def adopt (d k : Kin) : Kin := if k.parentPid = d.pid then { k with parentPid := d.parentPid } else k

def bury (d : Kin) (ks : List Kin) : List Kin :=
  (ks.filter fun k => decide (k.pid ≠ d.pid)).map (adopt d)

section Links
variable {ks : List Kin} {d k : Kin}

@[simp] theorem adopt_addr (d k : Kin) : (adopt d k).addr = k.addr := by
  unfold adopt
  split <;> rfl

@[simp] theorem adopt_pid (d k : Kin) : (adopt d k).pid = k.pid := by
  unfold adopt
  split <;> rfl

theorem adopt_parentPid (d k : Kin) : (adopt d k).parentPid =
    if k.parentPid = d.pid then d.parentPid else k.parentPid := by
  unfold adopt
  split <;> rfl

theorem mem_bury {q : Kin} : q ∈ bury d ks ↔ ∃ k ∈ ks, k.pid ≠ d.pid ∧ adopt d k = q := by
  simp [bury, and_assoc]

/-- The link that is cut leads further up, so the links still lead to listed processes. -/
theorem Forest.bury (h : Forest ks) (hd : d ∈ ks) : Forest (bury d ks) := by
  intro q hq
  obtain ⟨k, hk, hkd, rfl⟩ := mem_bury.mp hq
  rw [adopt_parentPid, adopt_pid]
  by_cases hc : k.parentPid = d.pid
  · rw [if_pos hc]
    refine (h d hd).imp_right ?_
    rintro ⟨l, hl, hlp, hlt⟩
    refine ⟨adopt d l, mem_bury.mpr ⟨l, hl, Nat.ne_of_lt hlt, rfl⟩, ?_, ?_⟩
    · rw [adopt_pid, hlp]
    · rcases h k hk with h0 | ⟨m, _, hmp, hmk⟩
      · omega
      · rw [adopt_pid]
        omega
  · rw [if_neg hc]
    refine (h k hk).imp_right ?_
    rintro ⟨l, hl, hlp, hlt⟩
    refine ⟨adopt d l, mem_bury.mpr ⟨l, hl, ?_, rfl⟩, ?_, ?_⟩
    · rw [hlp]
      exact hc
    · rw [adopt_pid, hlp]
    · rwa [adopt_pid]

theorem Forest.birth (h : Forest ks) (hd : d ∈ ks) (hk : k.parentPid = d.pid)
    (hlt : d.pid < k.pid) : Forest (ks ++ [k]) := by
  intro q hq
  rcases List.mem_append.mp hq with hq | hq
  · exact (h q hq).imp_right fun ⟨l, hl, hlk⟩ => ⟨l, List.mem_append_left _ hl, hlk⟩
  · rw [List.mem_singleton.mp hq]
    exact .inr ⟨d, List.mem_append_left _ hd, hk.symm, hlt⟩

end Links

inductive Thins (ks : List Kin) : List Kin → Prop
  | same : Thins ks ks
  | bury {d : Kin} : d ∈ ks → Thins ks (bury d ks)

/-! ### scheduler_remove -/

section Remove
variable {s t : Sched} {g pid : Nat}

theorem kin_onAddr {f : Pcb → Pcb} (hf : ∀ p, kin (f p) = kin p) (a : Nat) (ps : List Pcb) :
    (ps.map (onAddr a f)).map kin = ps.map kin := by
  rw [List.map_map]
  exact List.map_congr_left fun p _ => onAddr_field kin f hf a p

theorem reparentChild_kin (d g : Nat) (ps : List Pcb) (child : Pcb) :
    (reparentChild d g ps child).map kin = (ps.map kin).map fun k =>
      if k.addr = child.addr ∧ child.parentPid = d then { k with parentPid := g } else k := by
  unfold reparentChild
  by_cases hc : child.parentPid = d
  · have hwait : ∀ p : Pcb, kin { p with waitingPid := child.pid } = kin p := fun _ => rfl
    rw [if_pos hc, updateFirst_field hwait, List.map_map, List.map_map]
    refine List.map_congr_left fun p _ => ?_
    by_cases ha : p.addr = child.addr <;> simp [kin, onAddr, ha, hc]
  · rw [if_neg hc]
    simp [hc]

/-- The loop gives a new parent to the children among the processes it has passed. -/
theorem reparentFold_kin (d g : Nat) (cs ps : List Pcb) :
    (cs.foldl (reparentChild d g) ps).map kin = (ps.map kin).map fun k =>
      if ∃ c ∈ cs, k.addr = c.addr ∧ c.parentPid = d then { k with parentPid := g } else k := by
  induction cs generalizing ps with
  | nil => simp
  | cons c cs ih =>
    rw [List.foldl_cons, ih, reparentChild_kin, List.map_map]
    refine List.map_congr_left fun k _ => ?_
    by_cases hc : k.addr = c.addr ∧ c.parentPid = d
    · simp [hc]
    · simp [hc]

theorem reparentChildren_kin (hn : (s.procs.map Pcb.addr).Nodup) (garbage d : Nat) :
    ((reparentChildren garbage d s).procs).map kin = (s.procs.map kin).map fun k =>
      if k.parentPid = d then { k with parentPid :=
        ((s.procs.find? fun p => p.pid = d).map Pcb.parentPid).getD garbage } else k := by
  rw [reparentChildren, reparentFold_kin]
  refine List.map_congr_left fun k hk => ?_
  obtain ⟨p, hp, rfl⟩ := List.mem_map.mp hk
  have hiff : (∃ c ∈ s.procs, (kin p).addr = c.addr ∧ c.parentPid = d) ↔ p.parentPid = d := by
    constructor
    · rintro ⟨c, hc, ha, hpd⟩
      rwa [addr_inj hn hp hc ha]
    · exact fun h => ⟨p, hp, rfl, h⟩
  exact if_congr hiff rfl rfl

theorem reparentChildren_pids (hn : (s.procs.map Pcb.addr).Nodup) (garbage d : Nat) :
    (reparentChildren garbage d s).procs.map Pcb.pid = s.procs.map Pcb.pid := by
  have h : ((reparentChildren garbage d s).procs.map kin).map Kin.pid =
      (s.procs.map kin).map Kin.pid := by
    rw [reparentChildren_kin hn, List.map_map]
    refine List.map_congr_left fun k _ => ?_
    dsimp only [Function.comp]
    split <;> rfl
  rwa [List.map_map, List.map_map] at h

/-- With the reparenting done first, unlinking p cuts it out of the links. -/
theorem unlink_kin {p : Pcb} (hn : (s.procs.map Pcb.addr).Nodup) (hd : Distinct s)
    (hp : p ∈ s.procs) (garbage : Nat) :
    ((reparentChildren garbage p.pid s).procs.eraseP fun q => decide (q.pid = p.pid)).map kin =
      bury (kin p) (s.procs.map kin) := by
  have hpids := reparentChildren_pids hn garbage p.pid
  have hadopt : (reparentChildren garbage p.pid s).procs.map kin =
      (s.procs.map kin).map (adopt (kin p)) := by
    rw [reparentChildren_kin hn, find?_key hd hp]
    rfl
  have hd' : ((reparentChildren garbage p.pid s).procs.map Pcb.pid).Nodup := by
    rw [hpids]
    exact hd
  have hkey : firstKey Pcb.pid (fun q => decide (q.pid = p.pid))
      (reparentChildren garbage p.pid s).procs = some p.pid := by
    obtain ⟨q, hq, hqp⟩ := List.mem_map.mp (hpids ▸ List.mem_map_of_mem hp)
    have hfind := find?_key hd' hq
    rw [hqp] at hfind
    rw [firstKey, hfind, Option.map_some, hqp]
  rw [eraseP_eq_filter hd', hkey]
  calc ((reparentChildren garbage p.pid s).procs.filter
          fun q => decide (some p.pid ≠ some q.pid)).map kin
      = ((reparentChildren garbage p.pid s).procs.map kin).filter
          fun k => decide (some p.pid ≠ some k.pid) := by
        rw [List.filter_map]
        rfl
    _ = ((s.procs.map kin).filter fun k => decide (some p.pid ≠ some k.pid)).map
          (adopt (kin p)) := by
        rw [hadopt, List.filter_map]
        congr 1
        exact List.filter_congr fun k _ => by simp
    _ = bury (kin p) (s.procs.map kin) := by
        rw [bury]
        congr 1
        refine List.filter_congr fun k _ => decide_eq_decide.mpr (not_congr ?_)
        rw [Option.some.injEq]
        exact eq_comm

/-- scheduler_remove(pid) leaves the links alone or cuts one process out of them. -/
theorem schedulerRemove_kin {r : Removal} (hl : Listed s) (hd : Distinct s)
    (hf : Forest (s.procs.map kin)) (hp : pid ≠ 0 ∨ ∃ p ∈ s.procs, p.pid = pid)
    (h : schedulerRemove g pid s = some r) :
    Thins (s.procs.map kin) (r.sched.procs.map kin) := by
  obtain ⟨cur, hc, ha, hcur⟩ := currentProcess_eq hl
  by_cases h12 : pid = 1 ∨ pid = 2
  · have he : { sched := s, result := false } = r := by simpa [schedulerRemove, h12] using h
    rw [← he]
    exact .same
  by_cases hs : pid = cur.pid
  · subst hs
    have he : some { sched := s.modify s.current (setStatus .zombie), result := true } = some r := by
      simpa [schedulerRemove, h12, hcur] using h
    rw [← Option.some.inj he, modify_procs, kin_onAddr (f := setStatus .zombie) fun _ => rfl]
    exact .same
  simp only [schedulerRemove, if_neg h12, hcur, if_neg hs, Option.bind_eq_bind, Option.bind_some,
    Option.pure_def] at h
  have hpids := reparentChildren_pids hl.nodup g pid
  cases hfind : (reparentChildren g pid s).procs.find? fun p => decide (p.pid = pid) with
  | none =>
    simp only [hfind] at h
    obtain rfl := Option.some.inj h
    have habsent : ∀ p ∈ s.procs, p.pid ≠ pid := by
      intro p hpm hpp
      obtain ⟨q, hq, hqp⟩ := List.mem_map.mp (hpids ▸ List.mem_map_of_mem hpm)
      exact absurd (List.find?_eq_none.mp hfind q hq) (by simp [hqp, hpp])
    have hne : pid ≠ 0 := hp.resolve_right (by rintro ⟨p, hpm, hpp⟩; exact habsent p hpm hpp)
    -- nobody has that parent, so nobody is handed over
    have hsame : (reparentChildren g pid s).procs.map kin = s.procs.map kin := by
      rw [reparentChildren_kin hl.nodup]
      refine map_of_forall fun k hk => if_neg fun hkp => ?_
      rcases hf k hk with h0 | ⟨l, hlm, hlp, -⟩
      · exact hne (hkp.symm.trans h0)
      · obtain ⟨p, hpm, rfl⟩ := List.mem_map.mp hlm
        exact habsent p hpm (hlp.trans hkp)
    rw [hsame]
    exact .same
  | some q =>
    simp only [hfind] at h
    obtain rfl := Option.some.inj h
    have hqm : q.pid ∈ (reparentChildren g pid s).procs.map Pcb.pid :=
      List.mem_map_of_mem (List.mem_of_find?_eq_some hfind)
    have hqp : q.pid = pid := by simpa using List.find?_some hfind
    rw [hpids, hqp] at hqm
    obtain ⟨p, hpm, rfl⟩ := List.mem_map.mp hqm
    rw [unlink_kin hl.nodup hd hpm]
    exact .bury (List.mem_map_of_mem hpm)

/-! ### update_scheduler -/

theorem tick_kin (s : Sched) : (tick s).procs.map kin = s.procs.map kin := by
  have h : ∀ p, kin (decrementWait p) = kin p := fun p => by simp [kin]
  rw [tick, List.map_map]
  exact List.map_congr_left fun p _ => h p

theorem distinct_of_kin (hd : Distinct s) (h : t.procs.map kin = s.procs.map kin) : Distinct t := by
  have hp := congrArg (List.map Kin.pid) h
  rw [List.map_map, List.map_map] at hp
  rw [Distinct, show t.procs.map Pcb.pid = s.procs.map Pcb.pid from hp]
  exact hd

theorem switchAway_kin {regs : Registers} {cur : Pcb} {rel : Option Pcb} (hl : Listed s)
    (hd : Distinct s) (hf : Forest (s.procs.map kin)) (hc : cur ∈ s.procs)
    (h : switchAway g regs cur s = some (t, rel)) :
    Thins (s.procs.map kin) (t.procs.map kin) := by
  by_cases hz : cur.status = .zombie
  · simp only [switchAway, if_pos hz] at h
    obtain ⟨u, hu, h1⟩ := Option.bind_eq_some_iff.mp h
    obtain ⟨r, hr, h2⟩ := Option.bind_eq_some_iff.mp h1
    cases h2
    have hw := schedulerWake_listed hl cur.pid
    obtain ⟨q, hq, -, rfl, -⟩ := nextProcess_spec hw.nodup hu
    have hkin : (schedulerWake cur.pid s).procs.map kin = s.procs.map kin :=
      updateFirst_field (f := setStatus .ready) (fun _ => rfl) _
    have hcm : ∃ p ∈ (schedulerWake cur.pid s).procs, p.pid = cur.pid := by
      have hm : kin cur ∈ (schedulerWake cur.pid s).procs.map kin := by
        rw [hkin]
        exact List.mem_map_of_mem hc
      obtain ⟨p, hp, he⟩ := List.mem_map.mp hm
      exact ⟨p, hp, congrArg Kin.pid he⟩
    have hrem := schedulerRemove_kin (s := { schedulerWake cur.pid s with current := q.addr })
      ⟨hw.nodup, ⟨q, hq, rfl⟩, hw.enabled⟩ (distinct_of_kin hd hkin) (hkin ▸ hf) (.inr hcm) hr
    rwa [hkin] at hrem
  · obtain ⟨nxt, -, -, -, rfl⟩ := switchAway_live hl.nodup hz h
    have hkin : (s.procs.map (onAddr s.current (setRegisters regs))).map kin = s.procs.map kin :=
      kin_onAddr (f := setRegisters regs) (fun _ => rfl) s.current s.procs
    rw [hkin]
    exact .same

theorem updateScheduler_kin {regs : Registers} {out : Outcome} (hl : Listed s) (hd : Distinct s)
    (hf : Forest (s.procs.map kin)) (h : updateScheduler g regs s = some out) :
    Thins (s.procs.map kin) (out.sched.procs.map kin) := by
  obtain ⟨cur, hc, ha, -⟩ := currentProcess_eq hl
  rcases updateScheduler_returns hl hc ha h with rfl | ⟨t, hsw, hres⟩
  · rw [tick_kin]
    exact .same
  · obtain ⟨hprocs, -⟩ := resume_spec hres
    have hkin := tick_kin s
    have hstep := switchAway_kin (tick_listed hl) (distinct_of_kin hd hkin) (hkin ▸ hf)
      (List.mem_map_of_mem hc) hsw
    rwa [hprocs, kin_onAddr (f := setStatus .running) fun _ => rfl, ← hkin]

end Remove

/-! ### Entries -/

structure KinGuard (s : Sched) (ev : Event) : Prop where
  kill : Calls ev .kill → ev.regs.ebx ≠ 0
  fork : Calls ev .fork → s.pidStatic + 1 < 4294967296

instance (s : Sched) (ev : Event) : Decidable (KinGuard s ev) :=
  decidable_of_iff ((Calls ev .kill → ev.regs.ebx ≠ 0) ∧
      (Calls ev .fork → s.pidStatic + 1 < 4294967296))
    ⟨fun h => ⟨h.1, h.2⟩, fun h => ⟨h.kill, h.fork⟩⟩

structure Kinship (s : Sched) : Prop where
  sane : Sane s
  distinct : Distinct s
  forest : Forest (s.procs.map kin)
  numbered : ∀ p ∈ s.procs, p.pid < s.pidStatic

theorem boot_kinship (c : BootConfig) : Kinship (boot c) where
  sane := boot_sane c
  distinct := boot_distinct c
  forest := by simp [Forest, boot, bootMain, bootIdle, createProcessControlBlock, setStatus, kin]
  numbered := by simp [boot, bootMain, bootIdle, createProcessControlBlock, setStatus]

section Step
variable {s t u : Sched} {ev : Event}

theorem fork_kin (hl : Listed s) (hc : Calls ev .fork) (h : step s ev = some t) :
    ∃ cur ∈ s.procs, ∃ k : Kin, k.pid = s.pidStatic ∧ k.parentPid = cur.pid ∧
      t.procs.map kin = s.procs.map kin ++ [k] ∧ t.pidStatic = wrap (s.pidStatic + 1) := by
  obtain ⟨cur, hcm, -, hcur⟩ := currentProcess_eq hl
  obtain ⟨out, hout, rfl⟩ := Option.map_eq_some_iff.mp h
  simp only [handle, hc.1, syscallHandlerMain, hc.2, handleSyscallFork, hcur, Option.bind_eq_bind,
    Option.bind_some] at hout
  split at hout
  · cases hout
  cases hout
  obtain ⟨p, ps, hps⟩ := List.exists_cons_of_ne_nil (List.ne_nil_of_mem hcm)
  refine ⟨cur, hcm, ⟨ev.env.pcbAddr, s.pidStatic, cur.pid⟩, rfl, rfl, ?_, ?_⟩ <;>
    simp [schedulerEnqueue, hps, kin, createProcessControlBlock]

theorem Quiet.kin (h : Quiet s t) : t.procs.map kin = s.procs.map kin := by
  obtain ⟨f, hp, hf⟩ := h.procs
  rw [hp, List.map_map]
  exact List.map_congr_left fun p _ => by rw [Function.comp, hf p]; rfl

theorem Entered.kin {cur : Pcb} {f : Pcb → Pcb} (h : Entered s ev cur f u) :
    u.procs.map kin = s.procs.map kin := by
  have hk := h.caller.keeps
  rw [h.procs, kin_onAddr]
  intro p
  simp only [Lifecycle.kin, hk.addr, hk.pid, hk.parentPid]

theorem Interrupted.kin (h : Interrupted s t) : t.procs.map kin = s.procs.map kin := by
  rw [h.procs, List.map_map]
  refine List.map_congr_left fun p _ => ?_
  by_cases hf : foreground s = some p.addr
  · rw [Function.comp, interrupted_of hf]
    rfl
  · rw [Function.comp, interrupted_of_not hf]

theorem Delivery.kin {regs : Registers} {a : Nat} {p : Pcb} (h : Delivery s regs a p t) :
    t.procs.map kin = s.procs.map kin := by
  rw [h.procs, List.map_map]
  refine List.map_congr_left fun p _ => ?_
  rw [Function.comp, delivered, onAddr_field Lifecycle.kin (fun p => setStatus .ready
    (setEax (deliveredCount s.stdin) p)) (fun _ => rfl),
    onAddr_field Lifecycle.kin (setRegisters regs) fun _ => rfl]

/-- Every call but fork keeps the links or takes one process out of them. -/
theorem step_thins (hk : Kinship s) (hg : KinGuard s ev) (hc : ¬Calls ev .fork)
    (h : step s ev = some t) :
    Thins (s.procs.map kin) (t.procs.map kin) ∧ t.pidStatic = s.pidStatic := by
  have hl := hk.sane.listed
  obtain ⟨_, _, heff⟩ := step_effect hl h
  cases heff with
  | quiet hq => exact ⟨hq.kin ▸ .same, hq.pidStatic⟩
  | schedule he hu =>
    obtain ⟨cur, f, hent⟩ := enters_spec hl he
    have hlu := hent.listed hl
    have hkin := hent.kin
    have hstep := updateScheduler_kin hlu (distinct_of_kin hk.distinct hkin)
      (hkin ▸ hk.forest) hu
    obtain ⟨-, hrest⟩ := updateScheduler_round hlu hu
    exact ⟨hkin ▸ hstep, hrest.pidStatic.trans hent.pidStatic⟩
  | fork hf => exact absurd hf hc
  | kill hcall hr =>
    refine ⟨?_, by cases hr <;> rfl⟩
    obtain ⟨out, hout, he⟩ := Option.map_eq_some_iff.mp h
    simp only [handle, hcall.1, syscallHandlerMain, hcall.2, handleSyscallKill] at hout
    obtain ⟨r', hr', h1⟩ := Option.bind_eq_some_iff.mp hout
    cases h1
    rw [← he]
    exact schedulerRemove_kin hl hk.distinct hk.forest (.inl (hg.kill hcall)) hr'
  | interrupt _ _ hi =>
    rcases sigintForeground_cases hl hi with hq | hi
    · exact ⟨hq.kin ▸ .same, hq.pidStatic⟩
    · exact ⟨hi.kin ▸ .same, hi.pidStatic⟩
  | wake _ hq hw =>
    rcases stdinWakeProcess_cases (hq.sane hk.sane).listed hw with he | ⟨a, p, hd⟩
    · rw [he]
      exact ⟨hq.kin ▸ .same, hq.pidStatic⟩
    · rw [hd.kin, hq.kin]
      exact ⟨.same, hd.pidStatic.trans hq.pidStatic⟩

theorem Thins.forest {ks ks' : List Kin} (hf : Forest ks) (h : Thins ks ks') : Forest ks' := by
  cases h with
  | same => exact hf
  | bury hd => exact hf.bury hd

theorem Thins.pids {ks ks' : List Kin} (h : Thins ks ks') {q : Kin} (hq : q ∈ ks') :
    ∃ k ∈ ks, k.pid = q.pid := by
  cases h with
  | same => exact ⟨q, hq, rfl⟩
  | bury _ =>
    obtain ⟨k, hk, -, rfl⟩ := mem_bury.mp hq
    exact ⟨k, hk, (adopt_pid _ k).symm⟩

theorem step_kinship (hk : Kinship s) (hg : KinGuard s ev) (h : step s ev = some t) :
    Kinship t := by
  have hs := step_sane hk.sane h
  have hd := step_distinct hk.sane hk.distinct
    (fun _ p hp => Nat.ne_of_lt (hk.numbered p hp)) h
  by_cases hc : Calls ev .fork
  · obtain ⟨cur, hcur, k, hkp, hkc, hkin, hnext⟩ := fork_kin hk.sane.listed hc h
    rw [wrap_eq (hg.fork hc)] at hnext
    refine ⟨hs, hd, ?_, fun q hq => ?_⟩
    · rw [hkin]
      refine hk.forest.birth (List.mem_map_of_mem hcur) hkc ?_
      rw [hkp]
      exact hk.numbered cur hcur
    · rw [hnext]
      have hm : kin q ∈ s.procs.map kin ++ [k] := by
        rw [← hkin]
        exact List.mem_map_of_mem hq
      rcases List.mem_append.mp hm with hm | hm
      · obtain ⟨p, hp, he⟩ := List.mem_map.mp hm
        rw [← show p.pid = q.pid from congrArg Kin.pid he]
        exact Nat.lt_succ_of_lt (hk.numbered p hp)
      · rw [show q.pid = s.pidStatic from (congrArg Kin.pid (List.mem_singleton.mp hm)).trans hkp]
        exact Nat.lt_succ_self _
  · obtain ⟨hthin, hnext⟩ := step_thins hk hg hc h
    refine ⟨hs, hd, hthin.forest hk.forest, fun q hq => ?_⟩
    obtain ⟨k, hkm, hkq⟩ := hthin.pids (List.mem_map_of_mem hq)
    obtain ⟨p, hp, rfl⟩ := List.mem_map.mp hkm
    rw [hnext, ← show p.pid = q.pid from hkq]
    exact hk.numbered p hp

/- What a step may do to the links of a process it keeps: a child of the process that is gone goes
to that one's parent. -/
def LinksFollow (s t : Sched) : Prop :=
  (∀ d ∈ s.procs, d.addr ∉ t.procs.map Pcb.addr → ∀ p ∈ s.procs, ∀ q ∈ t.procs, q.addr = p.addr →
    q.pid = p.pid ∧ q.parentPid = if p.parentPid = d.pid then d.parentPid else p.parentPid) ∧
  ((∀ d ∈ s.procs, d.addr ∈ t.procs.map Pcb.addr) → ∀ p ∈ s.procs, ∀ q ∈ t.procs,
    q.addr = p.addr → q.pid = p.pid ∧ q.parentPid = p.parentPid)

theorem LinksFollow.of_kept (hn : (t.procs.map Pcb.addr).Nodup)
    (h : ∀ p ∈ s.procs, kin p ∈ t.procs.map kin) : LinksFollow s t := by
  refine ⟨fun d hd hgone => ?_, fun _ p hp q hq ha => ?_⟩
  · obtain ⟨q, hq, he⟩ := List.mem_map.mp (h d hd)
    exact absurd (List.mem_map.mpr ⟨q, hq, congrArg Kin.addr he⟩) hgone
  · obtain ⟨q', hq', he⟩ := List.mem_map.mp (h p hp)
    obtain rfl := addr_inj hn hq hq' (ha.trans (congrArg Kin.addr he).symm)
    exact ⟨congrArg Kin.pid he, congrArg Kin.parentPid he⟩

theorem LinksFollow.of_bury {d : Pcb} (hn : (s.procs.map Pcb.addr).Nodup) (hd : Distinct s)
    (hdm : d ∈ s.procs) (h : t.procs.map kin = bury (kin d) (s.procs.map kin)) :
    LinksFollow s t := by
  have hkept : ∀ p ∈ s.procs, ∀ q ∈ t.procs, q.addr = p.addr →
      p.pid ≠ d.pid ∧ kin q = adopt (kin d) (kin p) := by
    intro p hp q hq ha
    obtain ⟨k, hk, hkd, he⟩ := mem_bury.mp (h ▸ List.mem_map_of_mem hq)
    obtain ⟨p', hp', rfl⟩ := List.mem_map.mp hk
    have hpa : p'.addr = p.addr := by
      rw [← ha, ← show (adopt (kin d) (kin p')).addr = q.addr from congrArg Kin.addr he,
        adopt_addr]
      rfl
    obtain rfl := addr_inj hn hp' hp hpa
    exact ⟨hkd, he.symm⟩
  have hgone : ∀ e ∈ s.procs, e.addr ∉ t.procs.map Pcb.addr → e = d := by
    intro e he hout
    by_contra hne
    have hpid : e.pid ≠ d.pid := fun hp => hne (pid_inj hd he hdm hp)
    have hm : adopt (kin d) (kin e) ∈ t.procs.map kin := by
      rw [h]
      exact mem_bury.mpr ⟨kin e, List.mem_map_of_mem he, hpid, rfl⟩
    obtain ⟨q, hq, hqe⟩ := List.mem_map.mp hm
    refine hout (List.mem_map.mpr ⟨q, hq, ?_⟩)
    rw [show q.addr = (adopt (kin d) (kin e)).addr from congrArg Kin.addr hqe, adopt_addr]
    rfl
  refine ⟨fun e he hout p hp q hq ha => ?_, fun hall p hp q hq ha => ?_⟩
  · obtain rfl := hgone e he hout
    obtain ⟨-, hk⟩ := hkept p hp q hq ha
    exact ⟨(congrArg Kin.pid hk).trans (adopt_pid _ _),
      (congrArg Kin.parentPid hk).trans (adopt_parentPid _ _)⟩
  · obtain ⟨q', hq', ha'⟩ := List.mem_map.mp (hall d hdm)
    exact absurd rfl (hkept d hdm q' hq' ha').1

theorem step_linksFollow (hk : Kinship s) (hg : KinGuard s ev) (h : step s ev = some t) :
    LinksFollow s t := by
  have hn := (step_sane hk.sane h).listed.nodup
  by_cases hc : Calls ev .fork
  · obtain ⟨-, -, k, -, -, hkin, -⟩ := fork_kin hk.sane.listed hc h
    refine .of_kept hn fun p hp => ?_
    rw [hkin]
    exact List.mem_append_left _ (List.mem_map_of_mem hp)
  · obtain ⟨hthin, -⟩ := step_thins hk hg hc h
    generalize hks : t.procs.map kin = ks at hthin
    cases hthin with
    | same => exact .of_kept hn fun p hp => hks ▸ List.mem_map_of_mem hp
    | bury hd =>
      obtain ⟨d, hdm, rfl⟩ := List.mem_map.mp hd
      exact .of_bury hk.sane.listed.nodup hk.distinct hdm hks

end Step

/-- Along every run the parent links lead to listed processes with smaller pids, and a removal
hands exactly the children of the process removed to its own parent. -/
theorem parents_forest {c : BootConfig} {s : Sched} (h : Reach step KinGuard (boot c) s) :
    (∀ p ∈ s.procs, p.parentPid = 0 ∨ ∃ q ∈ s.procs, q.pid = p.parentPid ∧ q.pid < p.pid) ∧
      ∀ ev t, KinGuard s ev → step s ev = some t → LinksFollow s t := by
  have hk : Kinship s :=
    h.invariant Kinship (boot_kinship c) fun _ _ _ hk hg ht => step_kinship hk hg ht
  refine ⟨fun p hp => ?_, fun ev t hg ht => step_linksFollow hk hg ht⟩
  refine (hk.forest (kin p) (List.mem_map_of_mem hp)).imp_right ?_
  rintro ⟨l, hl, hlp, hlt⟩
  obtain ⟨q, hq, rfl⟩ := List.mem_map.mp hl
  exact ⟨q, hq, hlp, hlt⟩

def familyRun : List Event :=
  [forkAt 0x200000, forkAt 0x210000] ++ quantum ++ quantum ++ [forkAt 0x220000]

/-- When 3 exits, 5 is left to main. -/
theorem familyRun_follows : ∃ s t, run step familyRun (boot sampleBoot) = some s ∧
    step s (call 1 0 0) = some t ∧ LinksFollow s t ∧
    t.procs.map (fun p => (p.pid, p.parentPid)) = [(2, 0), (1, 0), (4, 2), (5, 2)] := by
  have h : (run step familyRun (boot sampleBoot)).any fun s =>
      (step s (call 1 0 0)).any fun t =>
        decide (t.procs.map (fun p => (p.pid, p.parentPid)) = [(2, 0), (1, 0), (4, 2), (5, 2)]) := by
    decide +kernel
  obtain ⟨s, hs, hst⟩ := (Option.any_eq_true _ _).mp h
  obtain ⟨t, ht, hp⟩ := (Option.any_eq_true _ _).mp hst
  have hreach : Reach step KinGuard (boot sampleBoot) s :=
    reach_of_run familyRun (by decide +kernel) hs
  have hg : KinGuard s (call 1 0 0) :=
    ⟨fun hc => absurd hc (by decide), fun hc => absurd hc (by decide)⟩
  exact ⟨s, t, hs, ht, (parents_forest hreach).2 _ t hg ht, of_decide_eq_true hp⟩

end AdamOS.Lifecycle
