import AdamOS.Kernel.IdentityTables

/-! One kernel for all processes. fork shares the tables below USER_FUNC_VADDR, and no entry of a
directory that has been shared is written again; a frame buffer above it is copied page by page. -/
namespace AdamOS.Paging
open AdamOS.Process AdamOS.Scheduler AdamOS.Lifecycle AdamOS.Word AdamOS.Loop AdamOS.Transition

def Memory.translate (m : Memory) (P page : Nat) : Option Nat :=
  if present (m.phys P (page / 1024)) && present (m.pte P page) then some (frameOf (m.pte P page))
  else none

def supervisorPage (M : Machine) (v : Nat) : Prop := v < 1024 ∨ devicePage M v

def SameKernel (M : Machine) (m : Memory) (P C : Nat) : Prop :=
  ∀ v, supervisorPage M v → m.translate C v = m.translate P v

def LowDevice (M : Machine) : Prop := ∀ v, devicePage M v → v < userFuncPage

theorem translate_congr {m : Memory} {P C page : Nat}
    (h : m.phys C (page / 1024) = m.phys P (page / 1024)) :
    m.translate C page = m.translate P page := by
  unfold Memory.translate Memory.pte
  rw [h]

theorem translate_lookup (m : Memory) (P page : Nat) : m.translate P page =
    if present (m.lookup P page) then some (frameOf (m.lookup P page)) else none := by
  unfold Memory.translate Memory.lookup
  cases hp : present (m.phys P (page / 1024)) with
  | false => rfl
  | true => simp only [Bool.true_and, if_true]

section Sharing
variable {M : Machine} {R : Regime} {own own' : Owners} {k k' : Kernel} {P C i : Nat}

theorem LowDevice.index {v : Nat} (h : LowDevice M) (hv : supervisorPage M v) : v / 1024 < userIndex := by
  refine kernel_index (hv.elim (fun hlt => Nat.lt_trans hlt (by decide)) (h v))

structure Equipped (M : Machine) (k : Kernel) : Prop where
  sound : ∃ own, Sound (anyRun M) k own
  tables : ∀ P ∈ spaces k.sched.procs, ∀ v, supervisorPage M v →
    present (k.memory.phys P (v / 1024)) = true

theorem Equipped.boot (hm : (bootKernel M).memory.exhausted = false) : Equipped M (bootKernel M) := by
  have hk : ∀ t, (anyRun M).kept t := fun _ => trivial
  have hdev : ∀ i, (anyRun M).device i ↔ deviceIndex M i := fun _ => Iff.rfl
  obtain ⟨own, hb⟩ := boot_booted hk hdev hm
  have hpages : ∀ {P}, BootSpace M (mainSpace M).2 P → ∀ v, supervisorPage M v →
      present ((mainSpace M).2.phys P (v / 1024)) = true := by
    intro P hs v hv
    exact hs.links v (.inl (.inl (hv.imp .inr id)))
  refine ⟨⟨own, hb.sound hdev⟩, ?_⟩
  rw [bootKernel_spaces, bootKernel_memory]
  intro P hP
  cases List.mem_cons.mp hP with
  | inl he => exact he ▸ hpages hb.main
  | inr hI => exact List.mem_singleton.mp hI ▸ hpages hb.idle

theorem Equipped.step {a : Action} (h : Equipped M k) (hlow : LowDevice M)
    (hs : kernelStep k a = some k') (hm : k'.memory.exhausted = false) : Equipped M k' := by
  obtain ⟨own, hsound⟩ := h.sound
  refine ⟨hsound.step (anyRun_admits M) trivial hs hm, fun P hP v hv => ?_⟩
  cases a with
  | enter ev program =>
    obtain ⟨⟨k₁, regs⟩, he, rfl⟩ := Option.map_eq_some_iff.mp hs
    obtain ⟨cur, hc, -, -, own', ht⟩ := hsound.turn ((anyRun_admits M).plain k ev program trivial)
      ((anyRun_admits M).fits k own ev program hsound trivial) he hm
    obtain ⟨Q, hQ, hentry⟩ := ht.low_entries hsound hc P hP
    rw [hentry _ (hlow.index hv) (h.tables Q hQ v hv), h.tables Q hQ v hv]
  | store page j w =>
    obtain ⟨cur, hst⟩ := userStore_stored hs
    rw [hst.sched] at hP
    rw [hst.kept hsound (hsound.owned.directory P hP) (by simp), h.tables P hP v hv]

structure Kin (M : Machine) (P C : Nat) (k : Kernel) : Prop where
  sound : ∃ own, Sound (anyRun M) k own ∧ own P = some .directory ∧ own C = some .directory
  tables : ∀ v, supervisorPage M v → present (k.memory.phys P (v / 1024)) = true ∧
    k.memory.phys C (v / 1024) = k.memory.phys P (v / 1024)

theorem Kin.sameKernel (h : Kin M P C k) : SameKernel M k.memory P C :=
  fun v hv => translate_congr (h.tables v hv).2

theorem Kin.step {a : Action} (h : Kin M P C k) (hlow : LowDevice M) (hs : kernelStep k a = some k')
    (hm : k'.memory.exhausted = false) : Kin M P C k' := by
  obtain ⟨own, hsound, hP, hC⟩ := h.sound
  cases a with
  | enter ev program =>
    obtain ⟨⟨k₁, regs⟩, he, rfl⟩ := Option.map_eq_some_iff.mp hs
    obtain ⟨cur, hc, -, -, own', ht⟩ := hsound.turn ((anyRun_admits M).plain k ev program trivial)
      ((anyRun_admits M).fits k own ev program hsound trivial) he hm
    have hsound' := ht.sound hsound hc (kernelEntry_sane hsound.sane he) fun hT => hT.elim
    obtain ⟨hP', hPe⟩ := ht.entries hsound hP
    obtain ⟨hC', hCe⟩ := ht.entries hsound hC
    refine ⟨⟨own', hsound', hP', hC'⟩, fun v hv => ?_⟩
    obtain ⟨hp, he⟩ := h.tables v hv
    have hi := hlow.index hv
    have hlt : v / 1024 < 1024 := Nat.lt_trans hi (by decide)
    rw [hCe _ hlt (.inl hi) (by rw [he, hp]), hPe _ hlt (.inl hi) hp]
    exact ⟨hp, he⟩
  | store page j w =>
    obtain ⟨cur, hst⟩ := userStore_stored hs
    refine ⟨⟨own, hst.sound hsound, hP, hC⟩, fun v hv => ?_⟩
    rw [hst.kept hsound hP (by simp), hst.kept hsound hC (by simp)]
    exact h.tables v hv

theorem Kin.fork {cur : Pcb} {ev : Event} {program : Option Program} (h : Equipped M k)
    (hlow : LowDevice M)
    (hcur : k.sched.currentProcess = some cur) (hcall : Calls ev .fork)
    (hs : kernelStep k (.enter ev program) = some k') (hm : k'.memory.exhausted = false) :
    ∃ child, k'.sched.procs = k.sched.procs ++ [child] ∧
      Kin M (frameOf cur.pageDirectory) (frameOf child.pageDirectory) k' := by
  obtain ⟨own, hsound⟩ := h.sound
  obtain ⟨⟨k₁, regs⟩, he, rfl⟩ := Option.map_eq_some_iff.mp hs
  obtain ⟨cur', hc, -, hcur', own', ht⟩ := hsound.turn ((anyRun_admits M).plain k ev program trivial)
    ((anyRun_admits M).fits k own ev program hsound trivial) he hm
  rw [hcur] at hcur'
  cases hcur'
  have hsound' := ht.sound hsound hc (kernelEntry_sane hsound.sane he) fun hT => hT.elim
  cases ht with
  | @fork child _ _ _ new space =>
    have hP := mem_spaces hc
    have hPd := hsound.owned.directory _ hP
    refine ⟨child, new.procs, ⟨own', hsound', space.owners _ _ hPd, ?_⟩, fun v hv => ?_⟩
    · exact space.owned.directory _ List.mem_cons_self
    · rw [space.entry_low hsound.owned hP (hlow.index hv), space.kept _ (held_directory hPd)]
      exact ⟨h.tables _ hP v hv, rfl⟩
  | exec call _ _ => exact absurd (hcall.unique call) (by decide)
  | sbrk call _ _ _ => exact absurd (hcall.unique call) (by decide)
  | still call _ _ => exact absurd hcall call.1
  | removed call _ _ _ _ => exact absurd hcall call.1

theorem Equipped.of_reach (h : Reach kernelStep anyStep (bootKernel M) k) (hlow : LowDevice M)
    (hm : k.memory.exhausted = false) : Equipped M k := by
  refine h.invariant (fun k => k.memory.exhausted = false → Equipped M k) .boot ?_ hm
  exact fun _ _ _ ih _ hs hm => (ih (kernelStep_served hs hm)).step hlow hs hm

theorem Kin.of_reach {k₀ : Kernel} (h : Reach kernelStep anyStep k₀ k) (hlow : LowDevice M)
    (h₀ : k₀.memory.exhausted = false → Kin M P C k₀) (hm : k.memory.exhausted = false) :
    Kin M P C k := by
  refine h.invariant (fun k => k.memory.exhausted = false → Kin M P C k) h₀ ?_ hm
  exact fun _ _ _ ih _ hs hm => (ih (kernelStep_served hs hm)).step hlow hs hm

/-- With the frame buffer below USER_FUNC_VADDR a child translates the kernel's pages as its parent
does, from the fork on and until an allocation fails. -/
theorem kernel_shared {k'' : Kernel} {cur : Pcb} {ev : Event} {program : Option Program}
    (hlow : LowDevice M) (h : Reach kernelStep anyStep (bootKernel M) k)
    (hcur : k.sched.currentProcess = some cur) (hcall : Calls ev .fork)
    (hs : kernelStep k (.enter ev program) = some k') (h' : Reach kernelStep anyStep k' k'')
    (hm : k''.memory.exhausted = false) : ∃ child, k'.sched.procs = k.sched.procs ++ [child] ∧
      SameKernel M k''.memory (frameOf cur.pageDirectory) (frameOf child.pageDirectory) := by
  have hm' := run_served h' hm
  have hk := Equipped.of_reach h hlow (kernelStep_served hs hm')
  obtain ⟨child, hprocs, hkin⟩ := Kin.fork hk hlow hcur hcall hs hm'
  exact ⟨child, hprocs, (Kin.of_reach h' hlow (fun _ => hkin) hm).sameKernel⟩

end Sharing

def lowDeviceMachine : Machine := { sampleMachine with framebuffer := 0x10000000, inRange := by decide }

theorem lowDeviceMachine_low : LowDevice lowDeviceMachine := by
  have hpage : fbPage lowDeviceMachine = 0x10000 := by decide
  have hpages : fbPages lowDeviceMachine = 118 := by decide
  rintro v ⟨-, hv⟩
  rw [hpage, hpages] at hv
  simp only [userFuncPage]
  omega

theorem LowDevice.spaceCost {M : Machine} {m : Memory} {P : Nat} (hlow : LowDevice M)
    (h : BootSpace M m P) : spaceCost m P 1024 ≤ 4 := by
  let cost (i : Nat) : Nat := if i = 256 ∨ i = 320 then 2 else 0
  have hsum : ((List.range 1024).map cost).sum = 4 := by decide +kernel
  have hpage : ∀ v, userFuncPage ≤ v → bootPage M P v → v = userFuncPage ∨ v = userStackPage := by
    rintro v hv (((((rfl | hv') | hv') | hv')) | hv')
    · exact absurd h.frame (Nat.not_lt.mpr (Nat.le_trans (by decide) hv))
    · exact absurd hv' (Nat.not_lt.mpr (Nat.le_trans (by decide) hv))
    · exact absurd (hlow v hv') (Nat.not_lt.mpr hv)
    · exact .inl hv'
    · exact .inr hv'
  simp only [userFuncPage, userStackPage] at hpage
  refine hsum ▸ spaceCost_le (fun i => ?_) 1024
  rw [indexCost]
  by_cases hc : present (m.phys P i) = true ∧ userIndex ≤ i
  swap
  · rw [if_neg hc]
    exact Nat.zero_le _
  have hi := hc.2
  simp only [userIndex, userFuncPage] at hi
  obtain ⟨v, hv, he⟩ := h.only i hc.1
  have hvi := hpage v (by omega) hv
  have hcost : cost i = 2 := if_pos (by omega)
  rw [if_pos hc, hcost]
  refine Nat.add_le_add_left (tablePages_first hc.1 fun j hj hp => ?_) 1
  have hge : userFuncPage ≤ i * 1024 + j := by
    simp only [userFuncPage]
    omega
  have hj' := hpage _ (by omega) ((h.pages _ hge).mp hp)
  omega

theorem lowFork_shared : ∃ cur k' child,
    (bootKernel lowDeviceMachine).sched.currentProcess = some cur ∧
    kernelStep (bootKernel lowDeviceMachine) (.enter sampleFork none) = some k' ∧
    k'.sched.procs = (bootKernel lowDeviceMachine).sched.procs ++ [child] ∧
    SameKernel lowDeviceMachine k'.memory (frameOf cur.pageDirectory) (frameOf child.pageDirectory) := by
  have hnum : numFrames = 32768 := rfl
  obtain ⟨n, -, hn, hf, hx⟩ := boot_filled (M := lowDeviceMachine) (by decide)
  rw [show fbPages lowDeviceMachine = 118 by decide] at hn
  obtain ⟨own, hb⟩ := boot_booted (R := anyRun lowDeviceMachine) (fun _ => trivial) (fun _ => Iff.rfl) hx
  have hcost := lowDeviceMachine_low.spaceCost hb.main
  have hrun := bootKernel_running lowDeviceMachine
  have hnew : sampleFork.env.pcbAddr ∉ (bootKernel lowDeviceMachine).sched.procs.map Pcb.addr := by
    rw [bootKernel, boot_addrs]
    decide
  obtain ⟨k', child, hs, -, hen, -, hmem⟩ := hrun.fork (show Calls sampleFork .fork by decide) hnew
  obtain ⟨cur, hcur, -, -⟩ := bootKernel_main lowDeviceMachine
  have hmet : k'.memory.exhausted = false := by
    rw [bootKernel_memory] at hf hx hmem
    rw [hmem]
    exact (hb.owned.forkDirectory_filled List.mem_cons_self hf hx (by omega)).2
  obtain ⟨c, hprocs, hsame⟩ :=
    kernel_shared lowDeviceMachine_low .refl hcur (by decide) hs .refl hmet
  exact ⟨cur, k', c, hcur, hs, hprocs, hsame⟩

/-! ### A frame buffer above USER_FUNC_VADDR -/

/-- A page from USER_FUNC_VADDR on is in another frame after a fork, be it of the frame buffer. -/
theorem Forked.translate_ne {R : Regime} {own own' : Owners} {dirs : List Nat} {m m' : Memory}
    {P C v : Nat} (hf : Forked R own dirs P C m own' m') (h : Owned R own dirs [] m) (hP : P ∈ dirs)
    (hv : userFuncPage ≤ v) (hlt : v < 1048576) (hp : present (m.lookup P v) = true) :
    m'.translate C v ≠ m'.translate P v := by
  obtain ⟨d, he, hd, hfree, -⟩ := (hf.lookup_child hv hlt).2 hp
  rw [translate_lookup, translate_lookup, hf.lookup_parent h hP hv, he, present_flagsOf, if_pos hp,
    if_pos hp, frameOf_entry (flagsOf_lt _)]
  intro hsame
  have hsame := Option.some.inj hsame
  have hused : ∀ {o}, own (frameOf (m.lookup P v)) = some o → False := fun ho => by
    rw [← hsame] at ho
    rw [(h.backed _ _ ho).1] at hfree
    cases hfree
  have htable : present (m.phys P (v / 1024)) = true := by
    by_contra hn
    rw [Memory.lookup, if_neg hn] at hp
    cases hp
  have hT := h.table P hP _ (page_index hv) htable
  rw [Memory.lookup, if_pos htable] at hp hused hsame
  cases hu : user (m.pte P v) with
  | true => exact hused (h.page _ _ _ _ hT hp hu)
  | false =>
    refine (h.kernel _ _ _ _ hT hp hu).elim hused fun hself => ?_
    -- the frame buffer's own page lies beyond the frames
    have hlt := (hf.owned.backed d _ hd).2.2
    rw [hsame, Memory.pte, hself, frameOf_entry (by decide)] at hlt
    simp only [userFuncPage, numFrames] at hv hlt
    omega

theorem device_copied : ¬ ∀ M k k' k'' cur ev program, Reach kernelStep anyStep (bootKernel M) k →
    k.sched.currentProcess = some cur → Calls ev .fork →
    kernelStep k (.enter ev program) = some k' → Reach kernelStep anyStep k' k'' →
    k''.memory.exhausted = false → ∃ child, k'.sched.procs = k.sched.procs ++ [child] ∧
      SameKernel M k''.memory (frameOf cur.pageDirectory) (frameOf child.pageDirectory) := by
  intro h
  obtain ⟨-, -, -, -, ht, hspace, -, -⟩ := sample_main
  have hrun := bootKernel_running sampleMachine
  obtain ⟨k', child, hs, -, hen, hdir, hmem⟩ := hrun.fork (show Calls sampleFork .fork by decide)
    sampleFork_new
  obtain ⟨cur, hcur, hmain, -⟩ := bootKernel_main sampleMachine
  have hx := sample_fork_served
  obtain ⟨own, hsound⟩ := ht.sound
  obtain ⟨own', hforked⟩ := hsound.owned.forked hrun.listed hx
  rw [← hmem] at hx
  rw [← hmem, ← hdir] at hforked
  obtain ⟨c, hprocs, hsame⟩ := h sampleMachine _ k' k' cur sampleFork none .refl hcur (by decide) hs
    .refl hx
  rw [hen.procs] at hprocs
  obtain rfl := List.singleton_inj.mp (List.append_cancel_left hprocs)
  have hdevice : devicePage sampleMachine 0xFD000 := ⟨by decide, by decide⟩
  rw [hmain] at hsame
  refine hforked.translate_ne hsound.owned hrun.listed (by decide) (by decide) ?_
    (hsame 0xFD000 (.inr hdevice))
  exact (hspace.pages _ (by decide)).mpr (.inl (.inl (.inr hdevice)))

end AdamOS.Paging
