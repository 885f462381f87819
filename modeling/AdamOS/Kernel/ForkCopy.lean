import AdamOS.Kernel.FrameCount

/-! fork copies the address space: the pages of the child hold what those of the parent held, and a
store through one directory is not seen through the other. -/
namespace AdamOS.Paging
open AdamOS.Process AdamOS.Scheduler AdamOS.Lifecycle AdamOS.Word AdamOS.Loop AdamOS.Transition

/- What user mode sees through directory Q is the same in both memories: the pages it may access,
   their entries and their contents. -/
def SameView (Q : Nat) (m m' : Memory) : Prop :=
  ∀ v < 1048576, accessible m' Q v = accessible m Q v ∧
    (accessible m Q v = true → m'.pte Q v = m.pte Q v ∧
      m'.phys (frameOf (m.pte Q v)) = m.phys (frameOf (m.pte Q v)))

inductive Writes (Q : Nat) : Memory → Memory → Prop
  | refl (m : Memory) : Writes Q m m
  | tail {m m' : Memory} (page j w : Nat) : Writes Q m m' → page < 1048576 →
      accessible m' Q page = true → Writes Q m (m'.put (frameOf (m'.pte Q page)) j w)

/- Page v of the child: the parent's flags, at both levels, on a frame that was free before the fork
   and now holds the words of the parent's. -/
structure PageForked (m : Memory) (P C v : Nat) (m' : Memory) : Prop where
  accessible : accessible m' C v = true
  tableFlags : flagsOf (m'.phys C (v / 1024)) = flagsOf (m.phys P (v / 1024))
  flags : flagsOf (m'.pte C v) = flagsOf (m.pte P v)
  apart : frameOf (m'.pte C v) ≠ frameOf (m.pte P v)
  free : m.bitmap (frameOf (m'.pte C v)) = false
  words : m'.phys (frameOf (m'.pte C v)) = m.phys (frameOf (m.pte P v))

structure ForkCopies (m : Memory) (P C : Nat) (m' : Memory) : Prop where
  copied : ∀ v < 1048576, accessible m P v = true → PageForked m P C v m'
  inaccessible : ∀ v < 1048576, accessible m P v = false → accessible m' C v = false
  absent : ∀ v < 1048576, userFuncPage ≤ v → present (m.lookup P v) = false →
    present (m'.lookup C v) = false
  parent : SameView P m m'
  childStores : ∀ m'', Writes C m' m'' → SameView P m' m''
  parentStores : ∀ m'', Writes P m' m'' → SameView C m' m''

section Views
variable {R : Regime} {own own' : Owners} {dirs : List Nat} {m m' : Memory} {P C Q v : Nat}

theorem accessible_present (h : accessible m P v = true) :
    present (m.phys P (v / 1024)) = true ∧ m.lookup P v = m.pte P v := by
  simp only [accessible, Bool.and_eq_true] at h
  exact ⟨h.1.1.1, if_pos h.1.1.1⟩

theorem accessible_congr (hd : m'.phys P (v / 1024) = m.phys P (v / 1024))
    (ht : m'.pte P v = m.pte P v) : accessible m' P v = accessible m P v := by
  rw [accessible, accessible, hd, ht]

/-- A store to a page leaves every directory and every table alone. -/
theorem Owned.put_page_pte {f Q' i j k w : Nat} (h : Owned R own dirs [] m)
    (hf : own f = some (.page Q' i j)) (hP : P ∈ dirs) (hp : present (m.phys P (v / 1024)) = true) :
    (m.put f k w).phys P = m.phys P ∧ (m.put f k w).pte P v = m.pte P v := by
  have hd : (m.put f k w).phys P = m.phys P :=
    m.put_frame_ne k w (owner_ne (h.directory P hP) hf (by simp))
  refine ⟨hd, ?_⟩
  rw [Memory.pte, hd, Memory.pte]
  refine congrFun (m.put_frame_ne k w ?_) _
  by_cases hi : v / 1024 < userIndex
  · exact owner_ne (h.low P hP _ hi hp).1 hf (by simp)
  · exact owner_ne (h.table P hP _ (Nat.le_of_not_lt hi) hp) hf (by simp)

theorem Owned.put_page_accessible {f Q' i j k w : Nat} (h : Owned R own dirs [] m)
    (hf : own f = some (.page Q' i j)) (hP : P ∈ dirs) :
    accessible (m.put f k w) P v = accessible m P v := by
  cases hp : present (m.phys P (v / 1024)) with
  | true =>
    obtain ⟨hd, ht⟩ := h.put_page_pte (v := v) (k := k) (w := w) hf hP hp
    exact accessible_congr (congrFun hd _) ht
  | false =>
    have hd : (m.put f k w).phys P = m.phys P :=
      m.put_frame_ne k w (owner_ne (h.directory P hP) hf (by simp))
    simp [accessible, hd, hp]

/-- Two spaces that share no accessible frame do not see each other's stores. -/
theorem SameView.of_writes (h : Owned R own dirs [] m) (hP : P ∈ dirs) (hQ : Q ∈ dirs)
    (hapart : ∀ v < 1048576, ∀ w < 1048576, accessible m P v = true → accessible m Q w = true →
      frameOf (m.pte P v) ≠ frameOf (m.pte Q w)) (hw : Writes P m m') :
    SameView Q m m' ∧ Owned R own dirs [] m' ∧ ∀ v < 1048576,
      accessible m' P v = accessible m P v ∧ (accessible m P v = true → m'.pte P v = m.pte P v) := by
  induction hw with
  | refl => exact ⟨fun _ _ => ⟨rfl, fun _ => ⟨rfl, rfl⟩⟩, h, fun _ _ => ⟨rfl, fun _ => rfl⟩⟩
  | @tail m₁ page j w _ hpage hacc ih =>
    obtain ⟨hview, h₁, hsame⟩ := ih
    obtain ⟨Q', i, l, hf⟩ := h₁.accessible_page hP hacc
    obtain ⟨ha, hpte⟩ := hsame page hpage
    rw [ha] at hacc
    refine ⟨fun v hv => ?_, h₁.put_plain (.inr ⟨Q', i, l, hf⟩), fun v hv => ?_⟩
    · obtain ⟨hav, hev⟩ := hview v hv
      rw [h₁.put_page_accessible hf hQ, hav]
      refine ⟨rfl, fun hq => ?_⟩
      obtain ⟨hpe, hwords⟩ := hev hq
      have hpres := (accessible_present (hav.trans hq)).1
      rw [(h₁.put_page_pte hf hQ hpres).2, hpe]
      refine ⟨rfl, ?_⟩
      have hne := hapart page hpage v hv hacc hq
      rw [hpte hacc, m₁.put_frame_ne j w hne.symm, hwords]
    · obtain ⟨hav, hev⟩ := hsame v hv
      rw [h₁.put_page_accessible hf hP, hav]
      refine ⟨rfl, fun hq => ?_⟩
      have hpres := (accessible_present (hav.trans hq)).1
      rw [(h₁.put_page_pte hf hP hpres).2, hev hq]

end Views

section Fork
variable {R : Regime} {own own' : Owners} {dirs : List Nat} {m m' : Memory} {P C v : Nat}

theorem Forked.entry_low (hf : Forked R own dirs P C m own' m') (h : Owned R own dirs [] m)
    (hP : P ∈ dirs) {i : Nat} (hi : i < userIndex) : m'.phys C i = m.phys P i := by
  have hc := hf.copied i (Nat.lt_trans hi (by decide))
  cases hp : present (m.phys P i) with
  | true => exact hc.low hi hp
  | false => rw [hc.absent hp, h.absent P hP i hp]

theorem Forked.entry_flags (hf : Forked R own dirs P C m own' m') (h : Owned R own dirs [] m)
    (hP : P ∈ dirs) {i : Nat} (hi : i < 1024) : flagsOf (m'.phys C i) = flagsOf (m.phys P i) := by
  by_cases hlow : i < userIndex
  · rw [hf.entry_low h hP hlow]
  · have hc := hf.copied i hi
    cases hp : present (m.phys P i) with
    | true =>
      obtain ⟨t, ht, -⟩ := hc.table (Nat.le_of_not_lt hlow) hp
      rw [ht, flagsOf_entry (flagsOf_lt _)]
    | false => rw [hc.absent hp, h.absent P hP i hp]

theorem Forked.lookup_child (hf : Forked R own dirs P C m own' m') (hv : userFuncPage ≤ v)
    (hlt : v < 1048576) : (present (m.lookup P v) = false → m'.lookup C v = 0) ∧
      (present (m.lookup P v) = true → ∃ d, m'.lookup C v = entry d (flagsOf (m.lookup P v)) ∧
        own' d = some (.page C (v / 1024) (v % 1024)) ∧ m.bitmap d = false ∧
        (user (m.lookup P v) = true → m'.phys d = m.phys (frameOf (m.lookup P v)))) := by
  have hc := hf.copied (v / 1024) (by omega)
  cases hp : present (m.phys P (v / 1024)) with
  | false =>
    have hold : m.lookup P v = 0 := by rw [Memory.lookup, hp]; rfl
    have hnew : m'.lookup C v = 0 := by rw [Memory.lookup, hc.absent hp]; rfl
    rw [hold]
    exact ⟨fun _ => hnew, fun hn => by cases hn⟩
  | true =>
    obtain ⟨t, ht, -, hpages⟩ := hc.table (page_index hv) hp
    have hpc := hpages (v % 1024) (Nat.mod_lt v (by decide))
    have hold : m.lookup P v = m.phys (frameOf (m.phys P (v / 1024))) (v % 1024) := if_pos hp
    have hnew : m'.lookup C v = m'.phys t (v % 1024) := by
      rw [Memory.lookup, Memory.pte, ht, present_flagsOf, if_pos hp, frameOf_entry (flagsOf_lt _)]
    rw [hold, hnew]
    exact ⟨hpc.absent, hpc.copied⟩

/-- A low page is accessible after the fork only if it was before. -/
theorem Forked.accessible_low (hf : Forked R own dirs P C m own' m') (h : Owned R own dirs [] m)
    (hP : P ∈ dirs) {Q : Nat} (hv : v < userFuncPage)
    (he : m'.phys Q (v / 1024) = m.phys P (v / 1024)) (ha : accessible m' Q v = true) :
    accessible m P v = true := by
  simp only [accessible, Memory.pte, he, Bool.and_eq_true] at ha ⊢
  obtain ⟨⟨⟨hp, hu⟩, hpt⟩, hut⟩ := ha
  have hT := (h.low P hP _ (kernel_index hv) hp).1
  have hsame := hf.low _ _ hT hut
  rw [hsame] at hpt hut
  exact ⟨⟨⟨hp, hu⟩, hpt⟩, hut⟩

theorem Forked.lookup_flags (hf : Forked R own dirs P C m own' m') (hv : userFuncPage ≤ v)
    (hlt : v < 1048576) : present (m'.lookup C v) = present (m.lookup P v) ∧
      (present (m.lookup P v) = true → user (m'.lookup C v) = user (m.lookup P v)) := by
  obtain ⟨hno, hyes⟩ := hf.lookup_child hv hlt
  cases hp : present (m.lookup P v) with
  | false =>
    rw [hno hp]
    exact ⟨rfl, fun hn => by cases hn⟩
  | true =>
    obtain ⟨d, he, -, -, -⟩ := hyes hp
    rw [he, present_flagsOf, user_flagsOf, hp]
    exact ⟨rfl, fun _ => rfl⟩

/-- From USER_FUNC_VADDR on the child may access what the parent may. -/
theorem Forked.accessible_high (hf : Forked R own dirs P C m own' m') (h : Owned R own dirs [] m)
    (hP : P ∈ dirs) (hv : userFuncPage ≤ v) (hlt : v < 1048576) :
    accessible m' C v = true ↔ accessible m P v = true := by
  obtain ⟨hpres, huser⟩ := hf.lookup_flags hv hlt
  rw [hf.owned.accessible_iff List.mem_cons_self hv, h.accessible_iff hP hv, hpres]
  constructor
  · rintro ⟨hd, hp, hu⟩
    exact ⟨hd, hp, huser hp ▸ hu⟩
  · rintro ⟨hd, hp, hu⟩
    exact ⟨hd, hp, (huser hp).trans hu⟩

/-- The parent keeps its directory and its tables from USER_FUNC_VADDR on. -/
theorem Forked.lookup_parent (hf : Forked R own dirs P C m own' m') (h : Owned R own dirs [] m)
    {Q : Nat} (hQ : Q ∈ dirs) (hv : userFuncPage ≤ v) : m'.lookup Q v = m.lookup Q v := by
  refine lookup_congr (congrFun (hf.kept Q (held_directory (h.directory Q hQ))) _) fun hp => ?_
  exact congrFun (hf.kept _ (held_table (h.table Q hQ _ (page_index hv) hp))) _

/-- The parent's user pages all lie from USER_FUNC_VADDR on. -/
def HighPages (m : Memory) (P : Nat) : Prop := ∀ v < 1048576, accessible m P v = true → userFuncPage ≤ v

variable (hf : Forked R own dirs P C m own' m') (h : Owned R own dirs [] m) (hP : P ∈ dirs)
  (hhigh : HighPages m P)
include hf h hP hhigh

theorem Forked.child_accessible (hlt : v < 1048576) :
    accessible m' C v = true ↔ accessible m P v = true := by
  by_cases hv : userFuncPage ≤ v
  · exact hf.accessible_high h hP hv hlt
  · have hv := Nat.lt_of_not_le hv
    refine ⟨hf.accessible_low h hP hv (hf.entry_low h hP (kernel_index hv)), fun ha => ?_⟩
    exact absurd (hhigh v hlt ha) (Nat.not_le.mpr hv)

theorem Forked.parent_accessible (hlt : v < 1048576) :
    accessible m' P v = true ↔ accessible m P v = true := by
  have hdir := hf.kept P (held_directory (h.directory P hP))
  by_cases hv : userFuncPage ≤ v
  · rw [hf.owned.accessible_iff (List.mem_cons_of_mem C hP) hv, h.accessible_iff hP hv,
      hf.lookup_parent h hP hv]
  · have hv := Nat.lt_of_not_le hv
    refine ⟨hf.accessible_low h hP hv (congrFun hdir _), fun ha => ?_⟩
    exact absurd (hhigh v hlt ha) (Nat.not_le.mpr hv)

theorem Forked.parent_page (hlt : v < 1048576) (ha : accessible m P v = true) :
    m'.pte P v = m.pte P v ∧ own (frameOf (m.pte P v)) = some (.page P (v / 1024) (v % 1024)) := by
  have hv := hhigh v hlt ha
  obtain ⟨-, hp, hu⟩ := (h.accessible_iff hP hv).mp ha
  have ha' := (hf.parent_accessible h hP hhigh hlt).mpr ha
  rw [← (accessible_present ha').2, ← (accessible_present ha).2, hf.lookup_parent h hP hv]
  exact ⟨rfl, h.lookup_page hP hv hp hu⟩

theorem Forked.sameView : SameView P m m' := by
  intro v hlt
  refine ⟨Bool.eq_iff_iff.mpr (hf.parent_accessible h hP hhigh hlt), fun ha => ?_⟩
  obtain ⟨hpte, hown⟩ := hf.parent_page h hP hhigh hlt ha
  exact ⟨hpte, hf.kept _ (held_page hown)⟩

theorem Forked.child_page (hlt : v < 1048576) (ha : accessible m P v = true) : ∃ d,
    m'.pte C v = entry d (flagsOf (m.pte P v)) ∧ own' d = some (.page C (v / 1024) (v % 1024)) ∧
      m.bitmap d = false ∧ m'.phys d = m.phys (frameOf (m.pte P v)) := by
  have hv := hhigh v hlt ha
  obtain ⟨-, hp, hu⟩ := (h.accessible_iff hP hv).mp ha
  obtain ⟨d, he, hd, hb, hw⟩ := (hf.lookup_child hv hlt).2 hp
  have ha' := (hf.child_accessible h hP hhigh hlt).mpr ha
  rw [(accessible_present ha').2, (accessible_present ha).2] at he
  rw [(accessible_present ha).2] at hw hu
  exact ⟨d, he, hd, hb, hw hu⟩

theorem Forked.pageForked (hlt : v < 1048576) (ha : accessible m P v = true) :
    PageForked m P C v m' := by
  obtain ⟨d, he, hd, hb, hw⟩ := hf.child_page h hP hhigh hlt ha
  obtain ⟨-, hold⟩ := hf.parent_page h hP hhigh hlt ha
  have hfr : frameOf (m'.pte C v) = d := by rw [he, frameOf_entry (flagsOf_lt _)]
  have hne : C ≠ P := Owned.ne_of_none' hf.fresh.1 (h.directory P hP)
  refine ⟨(hf.child_accessible h hP hhigh hlt).mpr ha, hf.entry_flags h hP (by omega), ?_, ?_, ?_, ?_⟩
  · rw [he, flagsOf_entry (flagsOf_lt _)]
  · rw [hfr]
    exact owner_ne hd (hf.owners _ _ hold) (by simp [hne])
  · rw [hfr, hb]
  · rw [hfr, hw]

theorem Forked.apart {w : Nat} (hlt : v < 1048576) (hlt' : w < 1048576)
    (ha : accessible m' C v = true) (ha' : accessible m' P w = true) :
    frameOf (m'.pte C v) ≠ frameOf (m'.pte P w) := by
  have hold := (hf.child_accessible h hP hhigh hlt).mp ha
  have hold' := (hf.parent_accessible h hP hhigh hlt').mp ha'
  obtain ⟨d, he, hd, -, -⟩ := hf.child_page h hP hhigh hlt hold
  obtain ⟨hpte, hown⟩ := hf.parent_page h hP hhigh hlt' hold'
  have hne : C ≠ P := Owned.ne_of_none' hf.fresh.1 (h.directory P hP)
  rw [he, frameOf_entry (flagsOf_lt _), hpte]
  exact owner_ne hd (hf.owners _ _ hown) (by simp [hne])

theorem Forked.copies : ForkCopies m P C m' where
  copied := fun _ hlt ha => hf.pageForked h hP hhigh hlt ha
  inaccessible := fun _ hlt ha => by
    rw [Bool.eq_false_iff] at ha ⊢
    exact mt (hf.child_accessible h hP hhigh hlt).mp ha
  absent := fun _ hlt hv hp => (hf.lookup_flags hv hlt).1.trans hp
  parent := hf.sameView h hP hhigh
  childStores := fun _ hw => (SameView.of_writes hf.owned List.mem_cons_self
    (List.mem_cons_of_mem C hP) (fun _ hv _ hw ha ha' => hf.apart h hP hhigh hv hw ha ha') hw).1
  parentStores := fun _ hw => (SameView.of_writes hf.owned (List.mem_cons_of_mem C hP)
    List.mem_cons_self (fun _ hv _ hw ha ha' => (hf.apart h hP hhigh hw hv ha' ha).symm) hw).1

end Fork

/-- In a sealed space nothing is accessible below USER_FUNC_VADDR. -/
theorem Owned.highPages {R : Regime} {own : Owners} {dirs : List Nat} {m : Memory} {P : Nat}
    (h : Owned R own dirs [] m) (hs : R.sealed) (hP : P ∈ dirs) : HighPages m P := by
  intro v _ ha
  by_contra hv
  simp only [accessible, Bool.and_eq_true] at ha
  obtain ⟨⟨⟨hp, hu⟩, -⟩, -⟩ := ha
  rw [(h.low P hP _ (kernel_index (Nat.lt_of_not_le hv)) hp).2 hs] at hu
  cases hu

/-- In every reachable state, fork copies the caller's address space if its user pages all lie from
USER_FUNC_VADDR on and no allocation fails. -/
theorem fork_copies {M : Machine} {k k' : Kernel} {ev : Event} {program : Option Program}
    {regs : Registers} {cur : Pcb} (h : Reach kernelStep anyStep (bootKernel M) k)
    (hcall : Calls ev .fork) (hcur : k.sched.currentProcess = some cur)
    (hhigh : HighPages k.memory (frameOf cur.pageDirectory))
    (he : kernelEntry k ev program = some (k', regs)) (hm : k'.memory.exhausted = false) :
    ∃ child, k'.sched.procs = k.sched.procs ++ [child] ∧
      ForkCopies k.memory (frameOf cur.pageDirectory) (frameOf child.pageDirectory) k'.memory := by
  have hstep : kernelStep k (.enter ev program) = some k' := by rw [kernelStep, he]; rfl
  obtain ⟨own, hs⟩ := reach_sound h (kernelStep_served hstep hm)
  obtain ⟨cur', hc, -, hcur', own', ht⟩ := hs.turn ((anyRun_admits M).plain k ev program trivial)
    ((anyRun_admits M).fits k own ev program hs trivial) he hm
  rw [hcur] at hcur'
  cases hcur'
  cases ht with
  | @fork child _ _ _ new space =>
    exact ⟨child, new.procs, space.copies hs.owned (mem_spaces hc) hhigh⟩
  | exec call _ _ => exact absurd (hcall.unique call) (by decide)
  | sbrk call _ _ _ => exact absurd (hcall.unique call) (by decide)
  | still call _ _ => exact absurd hcall call.1
  | removed call _ _ _ _ => exact absurd hcall call.1

def sampleFork : Event := forkAt 0x200000

theorem sampleFork_new :
    sampleFork.env.pcbAddr ∉ (bootKernel sampleMachine).sched.procs.map Pcb.addr := by
  rw [bootKernel, boot_addrs]
  decide

theorem sampleFork_runs : ∃ cur k' regs child,
    (bootKernel sampleMachine).sched.currentProcess = some cur ∧
    frameOf cur.pageDirectory = (mainSpace sampleMachine).1 ∧
    kernelEntry (bootKernel sampleMachine) sampleFork none = some (k', regs) ∧
    k'.memory = (forkDirectory (mainSpace sampleMachine).1 (bootKernel sampleMachine).memory).2 ∧
    Enlisted (bootKernel sampleMachine).sched child k'.sched ∧
    child.pid = (bootKernel sampleMachine).sched.pidStatic := by
  obtain ⟨cur, hcur, hdir, -⟩ := bootKernel_main sampleMachine
  have hsane : Sane (bootKernel sampleMachine).sched := by
    rw [bootKernel]
    exact boot_sane _
  obtain ⟨k', regs, child, he, hmem, hchild, hnew⟩ :=
    kernelEntry_fork none hsane.listed hcur (by decide) sampleFork_new
  rw [hdir] at hmem
  exact ⟨cur, k', regs, child, hcur, hdir, he, hmem, hnew, hchild.pid⟩

theorem sampleFork_copied : ∃ k' regs child,
    kernelEntry (bootKernel sampleMachine) sampleFork none = some (k', regs) ∧
    k'.sched.procs = (bootKernel sampleMachine).sched.procs ++ [child] ∧
    ForkCopies (bootKernel sampleMachine).memory (mainSpace sampleMachine).1
      (frameOf child.pageDirectory) k'.memory := by
  obtain ⟨cur, k', regs, child, hcur, hdir, he, hmem, -, -⟩ := sampleFork_runs
  have hx : k'.memory.exhausted = false := by rw [hmem, sample_fork_served]
  obtain ⟨n, -, -, -, hboot⟩ := sample_filled
  obtain ⟨own, hs⟩ := boot_sound (R := sealedRun sampleMachine) (fun _ => trivial)
    (fun _ => Iff.rfl) hboot
  have hhigh := hs.owned.highPages trivial (mem_spaces (Sched.deref_mem hcur).1)
  obtain ⟨c, hc, hcopies⟩ := fork_copies .refl (by decide) hcur hhigh he hx
  rw [hdir] at hcopies
  exact ⟨k', regs, c, he, hc, hcopies⟩

end AdamOS.Paging
