import AdamOS.Kernel.HeapBreak
import AdamOS.Kernel.Kill

/-! Frames that are never given back. clear_page_directory frees the tables and pages that user mode
can reach, so a process that is removed leaves its page directory and its copies of the frame
buffer's tables behind. While nobody is removed and sbrk maps over no frame, no frame is lost. -/
namespace AdamOS.Lifecycle
open AdamOS.Process AdamOS.Scheduler AdamOS.Transition

def SuccessorAwake (u : Sched) (d : Pcb) : Prop :=
  ∃ p ∈ u.procs, p.pid ≠ d.pid ∧ (wakeFirst d.pid u.procs (decrementWait p)).status ≠ .waiting

/- kill names a pid that is refused, that of the caller, or nobody's. -/
def KillsNobody (s : Sched) (ev : Event) : Prop :=
  Calls ev .kill → ∀ p ∈ s.procs, p.pid = ev.regs.ebx → ¬(p.pid = 1 ∨ p.pid = 2) →
    ∃ cur ∈ s.procs, cur.addr = s.current ∧ cur.pid = p.pid

def RemovesNobody (s : Sched) (ev : Event) : Prop :=
  KillsNobody s ev ∧ WhenBurying (fun u d => ¬SuccessorAwake u d) s ev

section Removals
variable {s : Sched} {ev : Event} {out : Outcome}

theorem round_kept {regs : Registers} {ps : List Pcb} {n : Nat} {released : Option Pcb}
    (h : Round s regs ps n released) (hs : ∀ d ∈ s.procs, d.addr = s.current →
      d.status = .zombie → ¬(d.pid = 1 ∨ d.pid = 2) → ¬SuccessorAwake s d) : released = none := by
  cases h with
  | stay _ _ _ _ => rfl
  | switch _ _ _ _ _ => rfl
  | keep _ _ _ _ _ _ _ => rfl
  | bury hc ha hz hn hw hk hne _ _ _ => exact absurd ⟨_, hn, hne, hw⟩ (hs _ hc ha hz hk)

theorem removed_kept {r : Removal} (hl : Listed s) (hk : KillsNobody s ev) (hcall : Calls ev .kill)
    (h : Removed ev.regs.ebx s r) : r.released = none := by
  cases h with
  | refused _ => rfl
  | self _ _ _ _ => rfl
  | absent _ _ _ _ _ _ => rfl
  | gone hpid hc ha hne hp hpp _ =>
    obtain ⟨cur, hcur, hca, hcp⟩ := hk hcall _ hp hpp (hpp ▸ hpid)
    rw [addr_inj hl.nodup hcur hc (hca.trans ha.symm), hpp] at hcp
    exact absurd hcp hne

theorem handle_kept (hs : Sane s) (hr : RemovesNobody s ev) (h : handle s ev = some out) :
    out.released = none := by
  have heff := handle_effect hs.listed h
  generalize out.sched = t at heff
  generalize out.released = released at heff ⊢
  generalize out.regs = regs at heff
  cases heff with
  | quiet _ _ _ => rfl
  | @schedule u out' he hu =>
    obtain ⟨cur, f, hent⟩ := enters_spec hs.listed he
    exact round_kept (updateScheduler_round (hent.listed hs.listed) hu).1 (hr.2 u he)
  | fork _ _ _ _ _ _ _ _ _ _ _ => rfl
  | kill hcall hrem => exact removed_kept hs.listed hr.1 hcall hrem
  | interrupt _ _ _ => rfl
  | wake _ _ _ _ => rfl

end Removals

end AdamOS.Lifecycle

namespace AdamOS.Paging
open AdamOS.Process AdamOS.Scheduler AdamOS.Lifecycle AdamOS.Word AdamOS.Loop AdamOS.Transition

/- What a process with directory P has: the directory, its tables and what is mapped in them. The
   tables below USER_FUNC_VADDR are the kernel's. -/
inductive Holds (m : Memory) (P : Nat) : Nat → Prop
  | directory : Holds m P P
  | table {i : Nat} : userIndex ≤ i → i < 1024 → present (m.phys P i) = true →
      Holds m P (frameOf (m.phys P i))
  | page {v : Nat} : userFuncPage ≤ v → v < 1048576 → present (m.lookup P v) = true →
      Holds m P (frameOf (m.lookup P v))

/- Every frame in use was in use at boot or belongs to a listed process, and once the child of a fork
   is gone, nothing else having been allocated, the frames in use are those from before the fork. -/
structure FramesKept (M : Machine) (guard : Kernel → Action → Prop) (k : Kernel) : Prop where
  reachable : ∀ f < numFrames, k.memory.bitmap f = true → (bootKernel M).memory.bitmap f = true ∨
    ∃ p ∈ k.sched.procs, Holds k.memory (frameOf p.pageDirectory) f
  undone : ∀ ev program k₁ k₂, guard k (.enter ev program) → Calls ev .fork →
    kernelStep k (.enter ev program) = some k₁ →
    Reach kernelStep
      (fun k a => guard k a ∧ ∀ ev program, a = .enter ev program → ¬Allocates ev) k₁ k₂ →
    k₂.memory.exhausted = false → k₂.sched.procs.map Pcb.addr = k.sched.procs.map Pcb.addr →
    k₂.memory.bitmap = k.memory.bitmap

/- An sbrk maps pages from USER_FUNC_VADDR on, each where no frame is mapped but one from boot. -/
def SbrkFresh (M : Machine) (m : Memory) (P brk offset : Nat) : Prop :=
  ∀ i < sbrkPages brk offset, userFuncPage ≤ firstPage brk + i ∧
    (present (m.lookup P (firstPage brk + i)) = true →
      numFrames ≤ frameOf (m.lookup P (firstPage brk + i)) ∨
        (bootKernel M).memory.bitmap (frameOf (m.lookup P (firstPage brk + i))) = true)

/- Nobody is removed, a program is loaded only where the frame buffer lies away from its code and its
   stack, and sbrk takes no frame out of the tables. -/
def KeepsFrames (M : Machine) (k : Kernel) : Action → Prop
  | .enter ev program => RemovesNobody k.sched ev ∧
      (Calls ev .exec → program ≠ none →
        ¬deviceIndex M (userFuncPage / 1024) ∧ ¬deviceIndex M (userStackPage / 1024)) ∧
      ∀ cur, k.sched.currentProcess = some cur → Calls ev .sbrk →
        SbrkFresh M k.memory (frameOf cur.pageDirectory) cur.heapBreak (wrap ev.regs.ebx)
  | .store .. => True

/- The regime in which no frame is lost but those that are kept. -/
def tightRun (M : Machine) (kept : Nat → Prop) : Regime where
  sealed := False
  tight := True
  kept := kept
  device := deviceIndex M
  bounded := fun _ => deviceIndex_bounded

section Tight
variable {M : Machine} {R : Regime} {own : Owners} {dirs : List Nat} {m : Memory} {k k' k₀ : Kernel}
  {kept : Nat → Prop}

theorem Owned.keep (h : Owned (tightRun M fun _ => True) own dirs [] m) :
    Owned (tightRun M fun f => m.bitmap f = true) own dirs [] m := by
  refine ⟨h.reserved, h.backed, h.fresh, h.directory, h.absent, h.low, h.table, h.page, h.lowPage,
    h.kernel, h.userTable, h.userEntry, fun _ => ?_⟩
  have h' := h.tight trivial
  exact ⟨fun f _ hb => .inl hb, h'.listed, fun f hf => (h.backed f _ hf).1, h'.linked,
    fun f _ _ _ hf => .inl (h.backed f _ hf).1⟩

theorem boot_tight (hm : (bootKernel M).memory.exhausted = false) :
    ∃ own, Sound (tightRun M fun f => (bootKernel M).memory.bitmap f = true) (bootKernel M) own := by
  obtain ⟨own, h⟩ := boot_sound (R := tightRun M fun _ => True) (fun _ => trivial) (fun _ => Iff.rfl) hm
  exact ⟨own, h.sane, h.owned.keep, h.nodup, h.furnished⟩

theorem firstPage_bound {brk offset i : Nat} (hi : i < sbrkPages brk offset) :
    (firstPage brk + i) / 1024 < 1024 := by
  have hlt : newBreak brk offset < 4294967296 := wrap_lt _
  simp only [sbrkPages, pagesBelow, pageSize] at hi
  split at hi
  · omega
  · omega

theorem handle_stays {s : Sched} {ev : Event} {out : Outcome} (hs : Sane s)
    (h : handle s ev = some out) (hrel : out.released = none) : Stays s out.sched := by
  intro p hp
  rcases handle_rewrites hs h with ⟨-, -, child, -, hprocs⟩ | ⟨gone, F, hF⟩
  · rw [hprocs, List.map_append]
    exact List.mem_append_left _ (List.mem_map_of_mem hp)
  · have hgone : gone = none := by
      rcases hF.released with ⟨-, hgone⟩ | ⟨q, -, g, hr, -⟩
      · exact hgone
      · rw [hrel] at hr
        cases hr
    rw [hF.procs, hgone, List.map_map]
    refine List.mem_map.mpr ⟨p, List.mem_filter.mpr ⟨hp, by simp⟩, hF.addr p hp⟩

theorem keepsFrames_stays {ev : Event} {program : Option Program} (hs : Sane k.sched)
    (hg : KeepsFrames M k (.enter ev program)) (h : kernelStep k (.enter ev program) = some k') :
    Stays k.sched k'.sched := by
  obtain ⟨⟨k₁, regs⟩, he, rfl⟩ := Option.map_eq_some_iff.mp h
  obtain ⟨cur, env, m, out, -, -, hout, hsched, -, -⟩ := kernelEntry_eq he
  have hnobody : RemovesNobody k.sched { ev with env := env } := hg.1
  exact hsched ▸ handle_stays hs hout (handle_kept hs hnobody hout)

theorem keepsFrames_admits (M : Machine) :
    Admits (tightRun M fun f => (bootKernel M).memory.bitmap f = true) (KeepsFrames M) where
  plain := fun _ _ _ hg hcall hprog _ => hg.2.1 hcall hprog
  fits := by
    intro k own ev program h hg hcall cur hc ha
    have hcur : k.sched.currentProcess = some cur := by
      rw [Sched.currentProcess, ← ha]
      exact Sched.deref_of_mem h.sane.listed.nodup hc
    have hfresh := hg.2.2 cur hcur hcall
    refine ⟨h.furnished cur hc, fun i hi hlow _ => ?_, fun _ i hi => firstPage_bound hi,
      fun hs => hs.elim, fun _ i hi => (hfresh i hi).2⟩
    exact absurd hlow (Nat.not_lt.mpr (hfresh i hi).1)
  stays := fun _ _ _ _ _ _ h hg hs => keepsFrames_stays h.sane hg hs

end Tight

section Runs
variable {M : Machine} {R : Regime} {own : Owners} {k k' k₀ k₁ k₂ : Kernel}
  {guard : Kernel → Action → Prop} {ev : Event} {program : Option Program}

/-- Where no frame is lost, the owner of a frame in use is a listed process. -/
theorem Sound.held {f : Nat} (h : Sound R k own) (hR : R.tight) (hf : f < numFrames)
    (hb : k.memory.bitmap f = true) :
    R.kept f ∨ ∃ p ∈ k.sched.procs, Holds k.memory (frameOf p.pageDirectory) f := by
  have ht := h.owned.tight hR
  have htable : ∀ T P i, own T = some (.table P i) → (userIndex ≤ i ∧ i < 1024) ∧
      P ∈ spaces k.sched.procs ∧ present (k.memory.phys P i) = true ∧
        frameOf (k.memory.phys P i) = T := by
    intro T P i hT
    obtain ⟨hi, hm | hl⟩ := ht.linked T P i hT
    · cases hm
    · exact ⟨hi, hl⟩
  have hlisted : ∀ P ∈ spaces k.sched.procs, Holds k.memory P f →
      ∃ p ∈ k.sched.procs, Holds k.memory (frameOf p.pageDirectory) f := by
    intro P hP hh
    obtain ⟨p, hp, rfl⟩ := mem_spaces_iff.mp hP
    exact ⟨p, hp, hh⟩
  obtain hk | ho | hm := ht.full f hf hb
  · exact .inl hk
  · cases hown : own f with
    | none => exact absurd hown ho
    | some o =>
      cases o with
      | directory => exact .inr (hlisted f (ht.listed f hown) .directory)
      | low => exact .inl (ht.low f hown)
      | table P i =>
        obtain ⟨⟨hi, hlt⟩, hP, hp, hfr⟩ := htable f P i hown
        exact .inr (hlisted P hP (hfr ▸ .table hi hlt hp))
      | page P i j =>
        refine (ht.mapped f P i j hown).imp id fun ⟨hj, T, hT, hp, hfr⟩ => ?_
        obtain ⟨⟨hi, hlt⟩, hP, hpi, hfi⟩ := htable T P i hT
        have hlook : k.memory.lookup P (i * 1024 + j) = k.memory.phys T j := by
          have hdiv : (i * 1024 + j) / 1024 = i := by omega
          have hmod : (i * 1024 + j) % 1024 = j := by omega
          rw [Memory.lookup, Memory.pte, hdiv, hmod, if_pos hpi, hfi]
        refine hlisted P hP ?_
        rw [← hfr, ← hlook]
        rw [← hlook] at hp
        refine .page ?_ (by omega) hp
        simp only [userIndex, userFuncPage] at *
        omega
  · cases hm

theorem run_stays (h₀ : Sound R k₀ own) (hR : Admits R guard) (ht : R.tight)
    (h : Reach kernelStep guard k₀ k) (hm : k.memory.exhausted = false) : Stays k₀.sched k.sched := by
  have hinv := h.invariant (fun k => k.memory.exhausted = false →
    (∃ own, Sound R k own) ∧ Stays k₀.sched k.sched)
    (fun _ => ⟨⟨own, h₀⟩, fun p hp => List.mem_map_of_mem hp⟩) ?_
  · exact (hinv hm).2
  intro k a k' ih hg hs hm
  obtain ⟨⟨own, hk⟩, hst⟩ := ih (kernelStep_served hs hm)
  refine ⟨hk.step hR hg hs hm, fun p hp => ?_⟩
  obtain ⟨q, hq, hqa⟩ := List.mem_map.mp (hst p hp)
  rw [← hqa]
  cases a with
  | enter ev program => exact hR.stays ht k own ev program k' hk hg hs q hq
  | store page j w =>
    obtain ⟨cur, hstored⟩ := userStore_stored hs
    rw [hstored.sched]
    exact List.mem_map_of_mem hq

/-- The directory of the child is a frame that was free. -/
theorem Sound.forked (h : Sound R k own) (hcall : Calls ev .fork)
    (hs : kernelStep k (.enter ev program) = some k₁) (hm : k₁.memory.exhausted = false) :
    ∃ (child : Pcb) (own' : Owners), Enlisted k.sched child k₁.sched ∧ Sound R k₁ own' ∧
      k.memory.bitmap (frameOf child.pageDirectory) = false ∧
      own' (frameOf child.pageDirectory) = some .directory := by
  obtain ⟨⟨k₁, regs⟩, he, rfl⟩ := Option.map_eq_some_iff.mp hs
  have hnx : ¬Calls ev .exec := not_calls hcall (by decide)
  have hns : ¬Calls ev .sbrk := not_calls hcall (by decide)
  obtain ⟨cur, hc, -, -, own', ht⟩ := h.turn (fun hx => absurd hx hnx) (fun hx => absurd hx hns) he hm
  cases ht with
  | @fork child _ _ call new space =>
    have hstay : Stays k.sched k₁.sched := fun p hp => by
      rw [new.procs, List.map_append]
      exact List.mem_append_left _ (List.mem_map_of_mem hp)
    have hsound := (Turn.fork call new space).sound h hc (kernelEntry_sane h.sane he) fun _ => hstay
    exact ⟨child, own', new, hsound, space.fresh.2, space.owned.directory _ List.mem_cons_self⟩
  | exec call _ _ => exact absurd call hnx
  | sbrk call _ _ _ => exact absurd call hns
  | still call _ _ => exact absurd hcall call.1
  | removed call _ _ _ _ => exact absurd hcall call.1

/-- In every run in which nobody is removed and sbrk maps over no frame, no frame is lost, until an
allocation fails. -/
theorem frames_kept (h : Reach kernelStep (KeepsFrames M) (bootKernel M) k)
    (hm : k.memory.exhausted = false) : FramesKept M (KeepsFrames M) k := by
  have hR := keepsFrames_admits M
  obtain ⟨own, hk⟩ := run_sound (boot_tight (run_served h hm)) hR h hm
  refine ⟨fun f hf hb => hk.held trivial hf hb, fun ev program k₁ k₂ _ hcall hs hrun hm₂ haddr => ?_⟩
  have hrun := hrun.mono fun _ _ hg => hg.1
  obtain ⟨child, own₁, new, hk₁, -, -⟩ := hk.forked hcall hs (run_served hrun hm₂)
  have hchild : child.addr ∈ k₂.sched.procs.map Pcb.addr := by
    refine run_stays hk₁ hR trivial hrun hm₂ child ?_
    rw [new.procs]
    exact List.mem_append_right _ (List.mem_singleton_self child)
  rw [haddr] at hchild
  exact absurd hchild new.fresh

/-- A page directory is never given back. -/
theorem reach_directory {P : Nat} (h : Sound (anyRun M) k own) (hP : own P = some .directory)
    (hrun : Reach kernelStep anyStep k k') (hm : k'.memory.exhausted = false) :
    k'.memory.bitmap P = true := by
  have hinv := hrun.invariant (fun k => k.memory.exhausted = false →
    ∃ own, Sound (anyRun M) k own ∧ own P = some .directory) (fun _ => ⟨own, h, hP⟩) ?_
  · obtain ⟨own', h', hP'⟩ := hinv hm
    exact (h'.owned.backed P _ hP').1
  intro k a k' ih hg hs hm
  obtain ⟨own, hk, hP⟩ := ih (kernelStep_served hs hm)
  cases a with
  | enter ev program =>
    have hR := anyRun_admits M
    obtain ⟨⟨k₁, regs⟩, he, rfl⟩ := Option.map_eq_some_iff.mp hs
    obtain ⟨cur, hc, -, -, own', ht⟩ :=
      hk.turn (hR.plain k ev program hg) (hR.fits k own ev program hk hg) he hm
    exact ⟨own', ht.sound hk hc (kernelEntry_sane hk.sane he) fun ht => ht.elim, (ht.entries hk hP).1⟩
  | store page j w =>
    obtain ⟨cur, hst⟩ := userStore_stored hs
    exact ⟨own, hst.sound hk, hP⟩

/-- After a fork the frames in use are never again those from before, whatever becomes of the child. -/
theorem fork_never_undone (h : Reach kernelStep anyStep (bootKernel M) k) (hcall : Calls ev .fork)
    (hs : kernelStep k (.enter ev program) = some k₁) (hrun : Reach kernelStep anyStep k₁ k₂)
    (hm : k₂.memory.exhausted = false) : k₂.memory.bitmap ≠ k.memory.bitmap := by
  have hm₁ := run_served hrun hm
  obtain ⟨own, hk⟩ := reach_sound h (kernelStep_served hs hm₁)
  obtain ⟨child, own₁, -, hk₁, hfree, hC⟩ := hk.forked hcall hs hm₁
  intro he
  have hused := reach_directory hk₁ hC hrun hm
  rw [he, hfree] at hused
  cases hused

end Runs

/-! ### A child that is killed -/

theorem enters_fork {s : Sched} {ev : Event} (h : Calls ev .fork) : enters s ev = none := by
  unfold enters
  rw [h.1, h.2]
  cases s.currentProcess with
  | none => rfl
  | some cur => rfl

theorem fork_keeps (M : Machine) {k : Kernel} {ev : Event} {program : Option Program}
    (h : Calls ev .fork) : KeepsFrames M k (.enter ev program) := by
  refine ⟨⟨fun hk => absurd (h.unique hk) (by decide), fun u hu => ?_⟩,
    fun hx => absurd (h.unique hx) (by decide), fun _ _ hs => absurd (h.unique hs) (by decide)⟩
  rw [enters_fork h] at hu
  cases hu

theorem sampleFork_kept : ∃ k₁,
    kernelStep (bootKernel sampleMachine) (.enter sampleFork none) = some k₁ ∧
    FramesKept sampleMachine (KeepsFrames sampleMachine) k₁ := by
  obtain ⟨cur, k₁, regs, child, -, -, he, hm, -, -⟩ := sampleFork_runs
  have hs : kernelStep (bootKernel sampleMachine) (.enter sampleFork none) = some k₁ := by
    rw [kernelStep, he]
    rfl
  refine ⟨k₁, hs, frames_kept (.tail _ .refl (fork_keeps _ (by decide)) hs) ?_⟩
  rw [hm, sample_fork_served]

/-- Removing the last process of the list leaves the others. -/
theorem removed_last {s : Sched} {procs : List Pcb} {child : Pcb} {r : Removal}
    (h : Removed child.pid s r) (hp : s.procs = procs ++ [child])
    (hk : ¬(child.pid = 1 ∨ child.pid = 2))
    (hcur : ∀ cur ∈ s.procs, cur.addr = s.current → cur.pid ≠ child.pid)
    (hnew : child.addr ∉ procs.map Pcb.addr) (hpid : ∀ p ∈ procs, p.pid ≠ child.pid) :
    r.sched.procs.map Pcb.addr = procs.map Pcb.addr := by
  have hlast : child ∈ s.procs := by
    rw [hp]
    exact List.mem_append_right _ (List.mem_singleton_self child)
  cases h with
  | refused hr => exact absurd hr hk
  | self _ hc ha he => exact absurd he (hcur _ hc ha)
  | absent _ _ _ _ hno _ => exact absurd rfl (hno child hlast)
  | @gone _ p f _ _ _ _ hm hpp hf =>
    have hpc : p = child := by
      rw [hp] at hm
      rcases List.mem_append.mp hm with hm | hm
      · exact absurd hpp (hpid p hm)
      · exact List.mem_singleton.mp hm
    have hrest : (s.procs.filter fun q => decide (q.addr ≠ p.addr)) = procs := by
      rw [hp, hpc, List.filter_append, List.filter_singleton, List.filter_eq_self.mpr]
      · simp
      · exact fun q hq => decide_eq_true fun he => hnew (he ▸ List.mem_map_of_mem hq)
    dsimp only
    rw [hrest, List.map_map]
    refine List.map_congr_left fun q hq => (hf q ?_).addr
    rw [hp]
    exact List.mem_append_left _ hq

theorem Running.kill {k : Kernel} {P brk : Nat} {ev : Event} (h : Running k P brk)
    (hcall : Calls ev .kill) (hpid : ¬(ev.regs.ebx = 1 ∨ ev.regs.ebx = 2)) :
    ∃ k' r, kernelStep k (.enter ev none) = some k' ∧ k'.memory.exhausted = k.memory.exhausted ∧
      Removed ev.regs.ebx k.sched r ∧ k'.sched = r.sched := by
  obtain ⟨hsane, cur, hcur, -, -⟩ := h
  have hp : pagingOf cur ev none k.memory = some (ev.env, k.memory) := by
    simp only [pagingOf, called_iff.mpr hcall]
  obtain ⟨r, hr, -⟩ := schedulerRemove_true hsane.listed hpid ev.env.dyingParent
  have hout := handleSyscallKill_eq ev.env ev.regs k.sched
  rw [hr, Option.map_some, ← show handle k.sched ev = handleSyscallKill ev.env ev.regs k.sched by
    rw [handle_syscall hcall, syscallHandlerMain, hcall.2]] at hout
  refine ⟨{ sched := r.sched, memory := releaseMemory r.released k.memory }, r, ?_,
    releaseMemory_served, schedulerRemove_cases hsane.listed hr, rfl⟩
  rw [kernelStep, kernelEntry_of hcur hp hout, Option.map_some]

theorem bootKernel_pids (M : Machine) : (bootKernel M).sched.pidStatic = 3 ∧
    ∀ p ∈ (bootKernel M).sched.procs, p.pid = 1 ∨ p.pid = 2 := by
  rw [bootKernel]
  refine ⟨rfl, ?_⟩
  simp [boot, bootMain, bootIdle, createProcessControlBlock, setStatus]

def sampleKill : Event := call 12 3 0

theorem sample_child_killed : ∃ k₁ k₂,
    kernelStep (bootKernel sampleMachine) (.enter sampleFork none) = some k₁ ∧
    kernelStep k₁ (.enter sampleKill none) = some k₂ ∧ k₂.memory.exhausted = false ∧
    k₂.sched.procs.map Pcb.addr = (bootKernel sampleMachine).sched.procs.map Pcb.addr := by
  obtain ⟨cur, k₁, regs, child, -, -, he, hm₁, hen, hpid⟩ := sampleFork_runs
  have hs₁ : kernelStep (bootKernel sampleMachine) (.enter sampleFork none) = some k₁ := by
    rw [kernelStep, he]
    rfl
  obtain ⟨k', child', hs', hr₁, hen', -, -⟩ := (bootKernel_running sampleMachine).fork
    (show Calls sampleFork .fork by decide) sampleFork_new
  obtain rfl := Option.some.inj (hs₁.symm.trans hs')
  obtain ⟨hthree, hpids⟩ := bootKernel_pids sampleMachine
  rw [hthree] at hpid
  obtain ⟨k₂, r, hs₂, hx, hrem, hr⟩ := hr₁.kill (show Calls sampleKill .kill by decide) (by decide)
  refine ⟨k₁, k₂, hs₁, hs₂, by rw [hx, hm₁, sample_fork_served], ?_⟩
  rw [hr]
  have hne : ∀ p ∈ (bootKernel sampleMachine).sched.procs, p.pid ≠ child.pid := by
    intro p hp he
    have hp := hpids p hp
    omega
  rw [show sampleKill.regs.ebx = child.pid by rw [hpid]; rfl] at hrem
  refine removed_last hrem hen.procs (by omega) (fun q hq ha => ?_) hen.fresh hne
  -- main runs on after the fork
  obtain ⟨cur', env, m, out, hcur', -, hout, hs, -, -⟩ := kernelEntry_eq he
  obtain ⟨hm, hca⟩ := Sched.deref_mem hcur'
  rw [hs, fork_current ((show Calls sampleFork .fork by decide).withEnv env) hout, ← hca] at ha
  rw [hen.procs] at hq
  rcases List.mem_append.mp hq with hq | hq
  · exact hne q hq
  · rw [List.mem_singleton.mp hq] at ha
    exact absurd (ha ▸ List.mem_map_of_mem hm) hen.fresh

/-- Its page directory stays in use. -/
theorem killed_child_leaks : ¬ ∀ M k, Reach kernelStep anyStep (bootKernel M) k →
    k.memory.exhausted = false → k.memory.nullTable = false → FramesKept M anyStep k := by
  intro h
  obtain ⟨k₁, k₂, hs₁, hs₂, hm₂, haddr⟩ := sample_child_killed
  have hkill : ∀ ev program, Action.enter sampleKill none = .enter ev program → ¬Allocates ev := by
    rintro ev program ⟨⟩
    simp [Allocates, sampleKill, call, Calls, Syscall.ofNumber]
  obtain ⟨-, -, -, -, ht, -⟩ := sample_main
  have hkept := h sampleMachine (bootKernel sampleMachine) .refl ht.met ht.found
  have hsame := hkept.undone sampleFork none k₁ k₂ trivial (by decide) hs₁
    (.tail _ .refl ⟨trivial, hkill⟩ hs₂) hm₂ haddr
  exact fork_never_undone .refl (by decide) hs₁ (.tail _ .refl trivial hs₂) hm₂ hsame

end AdamOS.Paging
