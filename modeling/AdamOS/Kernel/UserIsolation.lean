import AdamOS.Kernel.IdentityTables
import AdamOS.Kernel.Kmalloc

/-! Isolation of user memory. The pages from USER_FUNC_VADDR on are each process's own; a user table
that sbrk makes below it is shared by the next fork like those of the kernel. -/
namespace AdamOS.Paging
open AdamOS.Process AdamOS.Scheduler AdamOS.Lifecycle AdamOS.Word AdamOS.Loop AdamOS.Transition

/-! ### An sbrk for one page -/

section Load
variable {M : Machine} {R : Regime} {own : Owners} {dirs : List Nat} {m : Memory} {P page n brk : Nat}
  {k : Kernel} {ev : Event}

/-- The table made for a page that is loaded is the user's. -/
theorem Owned.loadPage_user {w : Nat → Nat} (h : Owned R own dirs [] m) (hP : P ∈ dirs)
    (hmap : Mappable R P page m) (hp : present (m.phys P (page / 1024)) = false)
    (hm : (loadPage P page w m).exhausted = false) :
    user ((loadPage P page w m).phys P (page / 1024)) = true := by
  unfold loadPage at hm ⊢
  dsimp only at hm ⊢
  rw [writePage_exhausted] at hm
  have hmet := mapPage_served hm
  obtain ⟨-, h₁⟩ := h.allocate hmet
  have hspec := allocateFrame_spec hmet
  obtain ⟨-, -, own', hu⟩ := h.pageMapped hP hmap hm
  generalize (allocateFrame m).1 = f at *
  generalize (allocateFrame m).2 = m₁ at *
  have hp₁ : present (m₁.phys P (page / 1024)) = false := by
    rw [show m₁ = _ from hspec.eq, Memory.mark_phys, hp]
  obtain ⟨t, ht, -⟩ := h₁.mapPage_directory hP (by decide) hp₁ hm
  have hne : P ≠ f := owner_ne (hu.owned.directory P hP) hu.owner (by simp)
  rw [writePage, hu.mapped, frameOf_entry (by decide), Memory.fill_ne _ _ hne, ht, user_entry]
  rfl

theorem anyRun_mappable (h : Furnished (anyRun M) P m) (page : Nat) : Mappable (anyRun M) P page m :=
  ⟨fun _ ht => ht, fun ht => ht.elim, fun hs => hs.elim, h _, fun ht => ht.elim⟩

structure OnePage (M : Machine) (k : Kernel) (P page : Nat) (own : Owners) (k' : Kernel) : Prop where
  tabled : Tabled M k'
  sound : Sound (anyRun M) k own
  loaded : ∃ own', PageLoaded (anyRun M) own (spaces k.sched.procs) k.memory P page (fun _ => 0) own'
    k'.memory
  memory : k'.memory = loadPage P page (fun _ => 0) k.memory
  spaces : Paging.spaces k'.sched.procs = Paging.spaces k.sched.procs
  addrs : k'.sched.procs.map Pcb.addr = k.sched.procs.map Pcb.addr

theorem Running.load (h : Running k P brk) (ht : Tabled M k) (hf : Filled k.memory n)
    (hn : n + 2 ≤ highFrame) (hc : Calls ev .sbrk) (h0 : wrap ev.regs.ebx ≠ 0)
    (hb : newBreak brk (wrap ev.regs.ebx) ≤ 1048575 * pageSize)
    (hone : sbrkPages brk (wrap ev.regs.ebx) = 1) :
    ∃ k' own, kernelStep k (.enter ev none) = some k' ∧
      Running k' P (newBreak brk (wrap ev.regs.ebx)) ∧ OnePage M k P (firstPage brk) own k' ∧
      ∃ n' ≤ n + 2, Filled k'.memory n' := by
  obtain ⟨k', hs, hr, hsp, ha, hm⟩ := h.sbrk hc h0 hb
  rw [hone, loop_succ, loop_zero, Nat.add_zero] at hm
  have hnum : numFrames = 32768 := rfl
  have hhigh : highFrame = 2048 := rfl
  obtain ⟨n', -, hu, hf', -⟩ := (draws_loadPage P (firstPage brk) (fun _ => 0) k.memory).takes n hf
    (by omega)
  rw [← hm] at hf'
  have ht' := ht.next hs (hf'.lowFrames (by omega))
  obtain ⟨own, hsound⟩ := ht.sound
  have hmap := anyRun_mappable (hsound.furnished_space h.listed) (firstPage brk)
  have hmet := ht'.met
  rw [hm] at hmet
  obtain ⟨own', hl⟩ := hsound.owned.pageLoaded h.listed hmap hmet
  rw [← hm] at hl
  exact ⟨k', own, hs, hr, ⟨ht', hsound, ⟨own', hl⟩, hm, hsp, ha⟩, n', hu, hf'⟩

end Load

/-! ### Isolation -/

/- The frame of page v of process p is in use, lies above the kernel's heap, is no other page of any
   process, and no directory and no table. -/
structure Exclusive (k : Kernel) (p : Pcb) (v : Nat) : Prop where
  used : k.memory.bitmap (frameOf (k.memory.pte (frameOf p.pageDirectory) v)) = true
  high : Kmalloc.heapEnd ≤ frameOf (k.memory.pte (frameOf p.pageDirectory) v) * pageSize
  once : ∀ q ∈ k.sched.procs, ∀ w < 1048576, accessible k.memory (frameOf q.pageDirectory) w = true →
    frameOf (k.memory.pte (frameOf q.pageDirectory) w) =
      frameOf (k.memory.pte (frameOf p.pageDirectory) v) → q = p ∧ w = v
  noDirectory : ∀ q ∈ k.sched.procs,
    frameOf q.pageDirectory ≠ frameOf (k.memory.pte (frameOf p.pageDirectory) v)
  noTable : ∀ q ∈ k.sched.procs, ∀ i < 1024,
    present (k.memory.phys (frameOf q.pageDirectory) i) = true →
      frameOf (k.memory.phys (frameOf q.pageDirectory) i) ≠
        frameOf (k.memory.pte (frameOf p.pageDirectory) v)

def Isolated (k : Kernel) : Prop :=
  ∀ p ∈ k.sched.procs, ∀ v < 1048576, accessible k.memory (frameOf p.pageDirectory) v = true →
    Exclusive k p v

section Isolation
variable {M : Machine} {R : Regime} {own : Owners} {k k' : Kernel}

theorem spaces_inj {procs : List Pcb} (h : (spaces procs).Nodup) {p q : Pcb} (hp : p ∈ procs)
    (hq : q ∈ procs) (he : frameOf p.pageDirectory = frameOf q.pageDirectory) : p = q :=
  List.inj_on_of_nodup_map h hp hq he

/-- In a sealed space every accessible page is owned by its place. -/
theorem Sound.page_owner (h : Sound R k own) (hs : R.sealed) {p : Pcb} (hp : p ∈ k.sched.procs)
    {v : Nat} (hv : v < 1048576) (ha : accessible k.memory (frameOf p.pageDirectory) v = true) :
    own (frameOf (k.memory.pte (frameOf p.pageDirectory) v)) =
      some (.page (frameOf p.pageDirectory) (v / 1024) (v % 1024)) := by
  have hP := mem_spaces hp
  have hhigh := h.owned.highPages hs hP v hv ha
  obtain ⟨-, hpr, hu⟩ := (h.owned.accessible_iff hP hhigh).mp ha
  rw [← (accessible_present ha).2]
  exact h.owned.lookup_page hP hhigh hpr hu

theorem Sound.isolated (h : Sound R k own) (hs : R.sealed) : Isolated k := by
  intro p hp v hv ha
  have hown := h.page_owner hs hp hv ha
  obtain ⟨hb, hgt, -⟩ := h.owned.backed _ _ hown
  refine ⟨hb, ?_, fun q hq w hw haq he => ?_, fun q hq => ?_, fun q hq i hi hpr => ?_⟩
  · have hend : Kmalloc.heapEnd = 1024 * pageSize := by decide
    rw [hend]
    exact Nat.mul_le_mul_right _ (Nat.le_of_lt hgt)
  · have hownq := h.page_owner hs hq hw haq
    rw [he, hown] at hownq
    simp only [Option.some.injEq, Owner.page.injEq] at hownq
    obtain ⟨hdir, hi, hj⟩ := hownq
    refine ⟨spaces_inj h.nodup hq hp hdir.symm, ?_⟩
    omega
  · exact owner_ne (h.owned.directory _ (mem_spaces hq)) hown (by simp)
  · by_cases hlow : i < userIndex
    · exact owner_ne (h.owned.low _ (mem_spaces hq) i hlow hpr).1 hown (by simp)
    · exact owner_ne (h.owned.table _ (mem_spaces hq) i (Nat.le_of_not_lt hlow) hpr) hown (by simp)

def SbrkHigh (k : Kernel) : Action → Prop
  | .enter ev _ => ∀ cur, k.sched.currentProcess = some cur → Calls ev .sbrk →
      ∀ i < sbrkPages cur.heapBreak (wrap ev.regs.ebx), userFuncPage ≤ firstPage cur.heapBreak + i
  | .store .. => True

theorem sealedRun_admits (M : Machine) : Admits (sealedRun M) SbrkHigh where
  plain := fun _ _ _ _ _ _ ht => ht.elim
  fits := by
    intro k own ev program h hg hc cur hcur ha
    have hhigh := hg cur (by rw [Sched.currentProcess, ← ha, Sched.deref_of_mem h.sane.listed.nodup hcur]) hc
    exact ⟨h.furnished cur hcur, fun _ _ _ ht => ht, fun ht => ht.elim,
      fun _ i hi hlow => absurd hlow (Nat.not_lt.mpr (hhigh i hi)), fun ht => ht.elim⟩
  stays := fun ht => ht.elim

/-- User memory is isolated in every state of a run in which every sbrk keeps to the pages from
USER_FUNC_VADDR on, until an allocation fails. -/
theorem user_isolated (h : Reach kernelStep SbrkHigh (bootKernel M) k)
    (hm : k.memory.exhausted = false) : Isolated k := by
  obtain ⟨own, hs⟩ := run_sound (boot_sound (R := sealedRun M) (fun _ => trivial) (fun _ => Iff.rfl)
    (run_served h hm)) (sealedRun_admits M) h hm
  exact hs.isolated trivial

end Isolation

def pageSbrk : Event := call 27 4096 0

/-- main forks and asks for a page: it is its own, like every other page of the two processes. -/
theorem sampleFork_isolated : ∃ k₁ k₂,
    kernelStep (bootKernel sampleMachine) (.enter sampleFork none) = some k₁ ∧
    kernelStep k₁ (.enter pageSbrk none) = some k₂ ∧ Isolated k₂ := by
  have hhigh : highFrame = 2048 := rfl
  obtain ⟨n, -, -, -, ht, -, -, -⟩ := sample_main
  obtain ⟨k₁, child, hs₁, hr₁, -, -, hm₁⟩ := (bootKernel_running sampleMachine).fork
    (show Calls sampleFork .fork by decide) sampleFork_new
  obtain ⟨n₁, hn₁, hf₁, -⟩ := sample_fork_filled
  rw [← hm₁] at hf₁
  have ht₁ := ht.next hs₁ (hf₁.lowFrames (by omega))
  obtain ⟨k₂, own, hs₂, -, h₂, -⟩ := hr₁.load ht₁ hf₁ (by omega)
    (show Calls pageSbrk .sbrk by decide) (by decide) (by decide) (by decide)
  have hfork : SbrkHigh (bootKernel sampleMachine) (.enter sampleFork none) :=
    fun _ _ hc => absurd hc (by decide)
  have hsbrk : SbrkHigh k₁ (.enter pageSbrk none) := by
    intro cur hcur _ i _
    obtain ⟨-, cur', hcur', -, hbrk⟩ := hr₁
    rw [hcur, Option.some.injEq] at hcur'
    rw [hcur', hbrk, show firstPage 0 = userHeapPage by decide]
    exact Nat.le_add_right_of_le (by decide)
  exact ⟨k₁, k₂, hs₁, hs₂, user_isolated (.tail _ (.tail _ .refl hfork hs₁) hsbrk hs₂) h₂.tabled.met⟩

/-! ### A table below USER_FUNC_VADDR -/

/- main moves its break to 0x1400000, asks for a page there, forks and asks for the next one. -/
def lowerSbrk : Event := call 27 0xB9400000 0

theorem lowPage_loaded : ∃ k₁ k₂,
    kernelStep (bootKernel sampleMachine) (.enter lowerSbrk none) = some k₁ ∧
    kernelStep k₁ (.enter pageSbrk none) = some k₂ ∧ Tabled sampleMachine k₂ ∧
    Running k₂ (mainSpace sampleMachine).1 0x1401000 ∧
    k₂.sched.procs.map Pcb.addr = (bootKernel sampleMachine).sched.procs.map Pcb.addr ∧
    (∃ n ≤ 1043, Filled k₂.memory n) ∧
    spaceCost k₂.memory (mainSpace sampleMachine).1 1024 ≤ 123 ∧
    present (k₂.memory.phys (mainSpace sampleMachine).1 5) = true ∧
    user (k₂.memory.phys (mainSpace sampleMachine).1 5) = true := by
  have hrun := bootKernel_running sampleMachine
  obtain ⟨n, -, hn, hf, ht, hspace, hP, hP'⟩ := sample_main
  obtain ⟨k₁, hs₁, hr₁, -, ha₁, hm₁⟩ := hrun.sbrk (show Calls lowerSbrk .sbrk by decide) (by decide)
    (by decide)
  rw [show sbrkPages 0 (wrap lowerSbrk.regs.ebx) = 0 by decide, loop_zero] at hm₁
  rw [show newBreak 0 (wrap lowerSbrk.regs.ebx) = 0x1400000 by decide] at hr₁
  rw [← hm₁] at hf hspace
  have hhigh : highFrame = 2048 := rfl
  have ht₁ := ht.next hs₁ (hf.lowFrames (by omega))
  have habsent : present (k₁.memory.phys (mainSpace sampleMachine).1 5) = false :=
    sample_absent hspace hP' (Nat.le_of_lt hP) (by decide)
  obtain ⟨k₂, own, hs₂, hr₂, h₂, n₂, hn₂, hf₂⟩ := hr₁.load ht₁ hf (by omega)
    (show Calls pageSbrk .sbrk by decide) (by decide) (by decide) (by decide)
  rw [show newBreak 0x1400000 (wrap pageSbrk.regs.ebx) = 0x1401000 by decide] at hr₂
  rw [show firstPage 0x1400000 = 0x1400 by decide] at h₂
  obtain ⟨own', hl⟩ := h₂.loaded
  have hmem := h₂.memory
  have hmet := h₂.tabled.met
  rw [hmem] at hmet
  refine ⟨k₁, k₂, hs₁, hs₂, h₂.tabled, hr₂, h₂.addrs.trans ha₁, ⟨n₂, by omega, hf₂⟩, ?_, hl.link, ?_⟩
  · refine Nat.le_trans (spaceCost_shrinks (fun i hi hp => ?_) fun v hv hp => ?_) (sample_spaceCost hspace)
    · -- the page is the only one that is new
      have hne : i ≠ 0x1400 / 1024 := by
        simp only [userIndex, userFuncPage] at hi
        omega
      rwa [hl.elsewhere _ hr₁.listed i (.inr hne)] at hp
    · have hne : v ≠ 0x1400 := by
        simp only [userFuncPage] at hv
        omega
      rwa [hl.others _ hr₁.listed v hv (.inr hne)] at hp
  · rw [hmem]
    exact h₂.sound.owned.loadPage_user hr₁.listed
      (anyRun_mappable (h₂.sound.furnished_space hr₁.listed) 0x1400) habsent hmet

theorem lowPage_shared : ¬ ∀ M k, Reach kernelStep anyStep (bootKernel M) k →
    k.memory.exhausted = false → k.memory.nullTable = false → Isolated k := by
  intro h
  obtain ⟨k₁, k₂, hs₁, hs₂, ht₂, hr₂, ha₂, ⟨n₂, hn₂, hf₂⟩, hcost, hlink, huser⟩ := lowPage_loaded
  have hhigh : highFrame = 2048 := rfl
  have hnum : numFrames = 32768 := rfl
  obtain ⟨own₂, hsound₂⟩ := ht₂.sound
  have hnew : sampleFork.env.pcbAddr ∉ k₂.sched.procs.map Pcb.addr := by
    rw [ha₂]
    exact sampleFork_new
  obtain ⟨k₃, child, hs₃, hr₃, hen, hdir, hm₃⟩ := hr₂.fork (show Calls sampleFork .fork by decide) hnew
  obtain ⟨hf₃, -⟩ := hsound₂.owned.forkDirectory_filled hr₂.listed hf₂ ht₂.met (by omega)
  rw [← hm₃] at hf₃
  have ht₃ := ht₂.next hs₃ (hf₃.lowFrames (by omega))
  have hmet₃ := ht₃.met
  rw [hm₃] at hmet₃
  obtain ⟨own₃, hforked⟩ := hsound₂.owned.forked hr₂.listed hmet₃
  rw [← hm₃, ← hdir] at hforked
  obtain ⟨k₄, own₄, hs₄, hr₄, h₄, -⟩ := hr₃.load ht₃ hf₃ (by omega)
    (show Calls pageSbrk .sbrk by decide) (by decide) (by decide) (by decide)
  rw [show firstPage 0x1401000 = 0x1401 by decide] at h₄
  obtain ⟨own', hl⟩ := h₄.loaded
  generalize (mainSpace sampleMachine).1 = P at *
  generalize hC : frameOf child.pageDirectory = C at *
  have hchild : C ∈ spaces k₃.sched.procs := by
    rw [hen.procs, spaces_append, hC]
    exact List.mem_append_right _ (List.mem_singleton_self C)
  -- both directories have the table that was made before the fork
  have hsame : k₄.memory.phys C 5 = k₂.memory.phys P 5 ∧ k₄.memory.phys P 5 = k₂.memory.phys P 5 := by
    have hCe := hforked.entry_low hsound₂.owned hr₂.listed (i := 5) (by decide)
    have hPe := congrFun (hforked.kept P (held_directory (hsound₂.owned.directory P hr₂.listed))) 5
    have hkeep := fun Q hQ => hl.grows.entries Q 5 (h₄.sound.owned.directory Q hQ)
    exact ⟨(hkeep C hchild (by rw [hCe, hlink])).trans hCe,
      (hkeep P hr₃.listed (by rw [hPe, hlink])).trans hPe⟩
  have hpte : k₄.memory.pte C 0x1401 = k₄.memory.pte P 0x1401 := by
    rw [Memory.pte, Memory.pte, show 0x1401 / 1024 = 5 by decide, hsame.1, hsame.2]
  have hacc : accessible k₄.memory P 0x1401 = true := by
    obtain ⟨f, -, -, he, -⟩ := hl.frame
    rw [accessible, show 0x1401 / 1024 = 5 by decide, hsame.2, hlink, huser, he, present_entry, user_entry]
    decide
  have hacc' : accessible k₄.memory C 0x1401 = true := by
    rw [← hacc, accessible, accessible, hpte, show 0x1401 / 1024 = 5 by decide, hsame.1, hsame.2]
  obtain ⟨p, hp, hpd⟩ := mem_spaces_iff.mp (h₄.spaces ▸ hr₃.listed)
  obtain ⟨c, hc, hcd⟩ := mem_spaces_iff.mp (h₄.spaces ▸ hchild)
  have hreach : Reach kernelStep anyStep (bootKernel sampleMachine) k₄ :=
    .tail _ (.tail _ (.tail _ (.tail _ .refl trivial hs₁) trivial hs₂) trivial hs₃) trivial hs₄
  have hiso := h sampleMachine k₄ hreach h₄.tabled.met h₄.tabled.found p hp 0x1401 (by decide)
    (by rw [hpd, hacc])
  have hcp := (hiso.once c hc 0x1401 (by decide) (by rw [hcd, hacc']) (by rw [hpd, hcd, hpte])).1
  rw [hcp, hpd] at hcd
  have hfresh := hforked.fresh.1
  rw [← hcd, hsound₂.owned.directory P hr₂.listed] at hfresh
  cases hfresh

end AdamOS.Paging
