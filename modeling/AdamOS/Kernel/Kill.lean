import AdamOS.Kernel.Waiting

/-! sys_kill. The pid of a listed process is answered exactly. For any other pid but 1 and 2
scheduler_remove still returns true, and reparent_children may have read a process that it did not
find. -/
namespace AdamOS.Lifecycle
open AdamOS.Process AdamOS.Scheduler AdamOS.Transition AdamOS.Word

def HasPid (s : Sched) (pid : Nat) : Prop := ∃ p ∈ s.procs, p.pid = pid

/- kill returns, eax says whether there was a process to kill, an error changes nothing, and nothing
   depends on what reparent_children reads through the uninitialised dying_process. -/
structure KillPrecise (s : Sched) (regs : Registers) : Prop where
  returns : ∀ env, (handleSyscallKill env regs s).isSome
  answer : ∀ env, ∀ out ∈ handleSyscallKill env regs s,
    (out.regs.eax = 0 ↔ HasPid s regs.ebx ∧ ¬(regs.ebx = 1 ∨ regs.ebx = 2))
  error : ∀ env, ∀ out ∈ handleSyscallKill env regs s, out.regs.eax = minusOne → out.sched = s
  found : ∀ env env', handleSyscallKill env regs s = handleSyscallKill env' regs s

section kill
variable {s : Sched} {regs : Registers} {pid : Nat}

theorem schedulerRemove_found (hpid : HasPid s pid) (g g' : Nat) :
    schedulerRemove g pid s = schedulerRemove g' pid s := by
  obtain ⟨p, hp, hpp⟩ := hpid
  have hsome : (s.procs.find? fun p => p.pid = pid).isSome :=
    List.find?_isSome.mpr ⟨p, hp, decide_eq_true hpp⟩
  obtain ⟨q, hq⟩ := Option.isSome_iff_exists.mp hsome
  have hsame : reparentChildren g pid s = reparentChildren g' pid s := by
    unfold reparentChildren
    rw [hq]
    rfl
  unfold schedulerRemove
  rw [hsame]

theorem schedulerRemove_refused (hpid : pid = 1 ∨ pid = 2) (g : Nat) :
    schedulerRemove g pid s = some { sched := s, result := false } := if_pos hpid

/-- scheduler_remove returns true for every other pid. -/
theorem schedulerRemove_true (hl : Listed s) (hpid : ¬(pid = 1 ∨ pid = 2)) (g : Nat) :
    ∃ r, schedulerRemove g pid s = some r ∧ r.result = true := by
  obtain ⟨cur, -, -, hcur⟩ := currentProcess_eq hl
  unfold schedulerRemove
  rw [if_neg hpid, hcur, Option.bind_eq_bind, Option.bind_some]
  split
  · exact ⟨_, rfl, rfl⟩
  · dsimp only
    split
    · exact ⟨_, rfl, rfl⟩
    · exact ⟨_, rfl, rfl⟩

theorem handleSyscallKill_eq (env : Env) (regs : Registers) (s : Sched) :
    handleSyscallKill env regs s = (schedulerRemove env.dyingParent regs.ebx s).map fun r =>
      { sched := r.sched, regs := { regs with eax := if r.result then 0 else minusOne },
        released := r.released } := Option.map_eq_bind.symm

theorem handleSyscallKill_refused (hpid : regs.ebx = 1 ∨ regs.ebx = 2) (env : Env) :
    handleSyscallKill env regs s = some { sched := s, regs := { regs with eax := minusOne } } := by
  rw [handleSyscallKill_eq, schedulerRemove_refused hpid]
  rfl

theorem handleSyscallKill_zero (hl : Listed s) (hpid : ¬(regs.ebx = 1 ∨ regs.ebx = 2)) (env : Env) :
    ∃ out, handleSyscallKill env regs s = some out ∧ out.regs.eax = 0 := by
  obtain ⟨r, hr, hres⟩ := schedulerRemove_true hl hpid env.dyingParent
  rw [handleSyscallKill_eq, hr]
  exact ⟨_, rfl, if_pos hres⟩

theorem killPrecise_refused (hpid : regs.ebx = 1 ∨ regs.ebx = 2) : KillPrecise s regs := by
  refine ⟨fun env => ?_, fun env out hout => ?_, fun env out hout _ => ?_, fun env env' => ?_⟩
  · rw [handleSyscallKill_refused hpid]
    rfl
  · rw [handleSyscallKill_refused hpid] at hout
    obtain rfl := Option.some.inj hout
    exact iff_of_false (by decide : minusOne ≠ 0) fun h => h.2 hpid
  · rw [handleSyscallKill_refused hpid] at hout
    obtain rfl := Option.some.inj hout
    rfl
  · rw [handleSyscallKill_refused hpid, handleSyscallKill_refused hpid]

theorem killPrecise_found (hl : Listed s) (hpid : ¬(regs.ebx = 1 ∨ regs.ebx = 2))
    (hfound : HasPid s regs.ebx) : KillPrecise s regs := by
  have hzero : ∀ env, ∀ out ∈ handleSyscallKill env regs s, out.regs.eax = 0 := by
    intro env out hout
    obtain ⟨out', hout', heax⟩ := handleSyscallKill_zero hl hpid env
    obtain rfl := Option.some.inj (hout'.symm.trans hout)
    exact heax
  refine ⟨fun env => ?_, fun env out hout => ?_, fun env out hout herr => ?_, fun env env' => ?_⟩
  · obtain ⟨out, hout, -⟩ := handleSyscallKill_zero hl hpid env
    rw [hout]
    rfl
  · exact iff_of_true (hzero env out hout) ⟨hfound, hpid⟩
  · rw [hzero env out hout] at herr
    cases herr
  · rw [handleSyscallKill_eq, handleSyscallKill_eq,
      schedulerRemove_found hfound env.dyingParent env'.dyingParent]

/-- Kill is precise exactly for the pids of the list and for the two that are refused. -/
theorem kill_precise_iff {c : BootConfig} (h : Reach step anyStep (boot c) s) :
    KillPrecise s regs ↔ regs.ebx = 1 ∨ regs.ebx = 2 ∨ HasPid s regs.ebx := by
  have hl := (reach_sane h).listed
  rw [← or_assoc]
  by_cases hpid : regs.ebx = 1 ∨ regs.ebx = 2
  · exact iff_of_true (killPrecise_refused hpid) (.inl hpid)
  rw [or_iff_right hpid]
  refine ⟨fun hprec => ?_, killPrecise_found hl hpid⟩
  obtain ⟨out, hout, heax⟩ := handleSyscallKill_zero hl hpid {}
  exact ((hprec.answer {} out hout).mp heax).1

instance (s : Sched) (pid : Nat) : Decidable (HasPid s pid) :=
  inferInstanceAs (Decidable (∃ p ∈ s.procs, _))

theorem forkedChild_kill_precise : ∃ s, run step [forkAt 0x200000] (boot sampleBoot) = some s ∧
    HasPid s 3 ∧ KillPrecise s { (default : Registers) with ebx := 3 } := by
  have h : (run step [forkAt 0x200000] (boot sampleBoot)).any fun s => decide (HasPid s 3) := by
    decide +kernel
  obtain ⟨s, hs, hpid⟩ := (Option.any_eq_true _ _).mp h
  have hreach : Reach step anyStep (boot sampleBoot) s := reach_of_run _ (guarded_anyStep _ _) hs
  exact ⟨s, hs, of_decide_eq_true hpid, (kill_precise_iff hreach).mpr (.inr (.inr (of_decide_eq_true hpid)))⟩

end kill

/-- kill(0) right after boot: both processes have parent_pid 0, and none has pid 0. -/
theorem kill_zero_imprecise : ¬∀ (c : BootConfig) s regs, Reach step anyStep (boot c) s → KillPrecise s regs := by
  intro h
  have hprec := h sampleBoot (boot sampleBoot) default .refl
  have hsame := hprec.found { dyingParent := 0 } { dyingParent := 7 }
  have hread : ∀ g : Nat, (handleSyscallKill { dyingParent := g } default (boot sampleBoot)).map
      (fun out => out.sched.procs.map Pcb.parentPid) = some [g, g] := fun _ => rfl
  have hparents := (hread 0).symm.trans ((congrArg _ hsame).trans (hread 7))
  exact absurd hparents (by decide)

end AdamOS.Lifecycle
