import AdamOS.Kernel.UserIsolation

/-! heap_break and the pages of the heap. The break lies in the PCB and the pages in the page
directory: fork copies the pages and sets the break of the child to 0, exec takes the pages and leaves
the break, and an sbrk that lowers the break leaves the pages. -/
namespace AdamOS.Paging
open AdamOS.Process AdamOS.Scheduler AdamOS.Lifecycle AdamOS.Word AdamOS.Loop AdamOS.Transition

/- The user pages from USER_HEAP_VADDR up to USER_STACK_VADDR are those below the break. -/
def HeapCovered (m : Memory) (p : Pcb) : Prop :=
  ∀ v, userHeapPage ≤ v → v < userStackPage →
    (accessible m (frameOf p.pageDirectory) v = true ↔ v * pageSize < p.heapBreak)

/- What was mapped from USER_FUNC_VADDR on is mapped as it was, and what user mode could reach is in
   the same frame and holds what it held. -/
structure MappingsKept (P : Nat) (m m' : Memory) : Prop where
  entries : ∀ v < 1048576, userFuncPage ≤ v → present (m.lookup P v) = true →
    m'.lookup P v = m.lookup P v
  pages : ∀ v < 1048576, accessible m P v = true → accessible m' P v = true ∧
    m'.pte P v = m.pte P v ∧ m'.phys (frameOf (m.pte P v)) = m.phys (frameOf (m.pte P v))

def heapPages (brk : Nat) : Nat := min ((brk + pageSize - 1) / pageSize) userStackPage - userHeapPage

/- An sbrk that maps no page leaves the break over the same pages. One that maps pages starts at
   USER_HEAP_VADDR or above it, ends at USER_STACK_VADDR or below it, and keeps clear of the tables of
   the frame buffer. -/
def SbrkInside (M : Machine) (brk offset : Nat) : Prop :=
  if sbrkPages brk offset = 0 then heapPages (newBreak brk offset) = heapPages brk
  else userHeapPage ≤ firstPage brk ∧ newBreak brk offset ≤ userStackPage * pageSize ∧
    ∀ i < sbrkPages brk offset, ¬deviceIndex M ((firstPage brk + i) / 1024)

/- Only a process whose heap has no page forks or executes a program that is found, and every sbrk stays
   inside the heap. -/
def KeepsHeap (M : Machine) (k : Kernel) : Action → Prop
  | .enter ev program => ∀ cur, k.sched.currentProcess = some cur →
    (Calls ev .fork ∨ Calls ev .exec ∧ program ≠ none → heapPages cur.heapBreak = 0) ∧
      (Calls ev .sbrk → SbrkInside M cur.heapBreak (wrap ev.regs.ebx))
  | .store .. => True

structure HeapExact (guard : Kernel → Action → Prop) (k : Kernel) : Prop where
  covered : ∀ p ∈ k.sched.procs, HeapCovered k.memory p
  added : ∀ ev program k' cur, guard k (.enter ev program) → Calls ev .sbrk →
    k.sched.currentProcess = some cur → kernelStep k (.enter ev program) = some k' →
    k'.memory.exhausted = false → MappingsKept (frameOf cur.pageDirectory) k.memory k'.memory

section Arithmetic
variable {brk offset v i : Nat}

theorem heapPages_iff (hv : userHeapPage ≤ v) (hlt : v < userStackPage) :
    v * pageSize < brk ↔ v < userHeapPage + heapPages brk := by
  simp only [heapPages, pageSize, userHeapPage, userStackPage] at *
  omega

theorem newBreak_covers (hb : brk < 4294967296) (hN : sbrkPages brk offset ≠ 0)
    (hF : userHeapPage ≤ firstPage brk) (hv : userHeapPage ≤ v) :
    v * pageSize < newBreak brk offset ↔
      v * pageSize < brk ∨ ∃ i < sbrkPages brk offset, v = firstPage brk + i := by
  have h0 : offset ≠ 0 := fun h0 => hN (by rw [sbrkPages, if_pos h0])
  have hiff : (∃ i < sbrkPages brk offset, v = firstPage brk + i) ↔
      firstPage brk ≤ v ∧ v < firstPage brk + sbrkPages brk offset := by
    constructor
    · rintro ⟨i, hi, rfl⟩
      omega
    · rintro ⟨hle, hlt⟩
      exact ⟨v - firstPage brk, by omega, by omega⟩
  rw [hiff]
  rw [sbrkPages, if_neg h0, pagesBelow] at *
  generalize newBreak brk offset = new at *
  simp only [firstPage, oldBreak, wrap, pageSize, userHeapPage] at *
  split at hF <;> split <;> split at hN <;> omega

theorem firstPage_above (hb : brk < 4294967296) (hF : userHeapPage ≤ firstPage brk) :
    ¬(firstPage brk + i) * pageSize < brk := by
  simp only [firstPage, oldBreak, wrap, pageSize, userHeapPage] at *
  split at hF <;> split <;> omega

end Arithmetic

section Covers
variable {M : Machine} {R : Regime} {own own' : Owners} {dirs dirs' : List Nat} {m m' : Memory}
  {P Q C page n : Nat} {w : Nat → Nat → Nat} {p q : Pcb}

/-- A process with the entries that it had, and a break over the same pages. -/
theorem HeapCovered.same (hc : HeapCovered m p) (h : Owned R own dirs [] m)
    (h' : Owned R own' dirs' [] m') (hp : frameOf p.pageDirectory ∈ dirs)
    (hp' : frameOf p.pageDirectory ∈ dirs') (hd : q.pageDirectory = p.pageDirectory)
    (hb : heapPages q.heapBreak = heapPages p.heapBreak) (hl : ∀ v, userFuncPage ≤ v →
      m'.lookup (frameOf p.pageDirectory) v = m.lookup (frameOf p.pageDirectory) v) :
    HeapCovered m' q := by
  intro v hv hlt
  have hf : userFuncPage ≤ v := Nat.le_trans (by decide) hv
  rw [hd, heapPages_iff hv hlt, hb, ← heapPages_iff hv hlt, ← hc v hv hlt, h'.accessible_iff hp' hf,
    h.accessible_iff hp hf, hl v hf]

/-- A heap without pages, and a break that covers none. -/
theorem HeapCovered.empty (hb : heapPages p.heapBreak = 0)
    (hno : ∀ v, userHeapPage ≤ v → v < userStackPage →
      accessible m (frameOf p.pageDirectory) v = false) : HeapCovered m p := by
  intro v hv hlt
  rw [hno v hv hlt, heapPages_iff hv hlt, hb]
  exact iff_of_false Bool.false_ne_true (Nat.not_lt.mpr hv)

theorem HeapCovered.inaccessible (hc : HeapCovered m p) (hb : heapPages p.heapBreak = 0) {v : Nat}
    (hv : userHeapPage ≤ v) (hlt : v < userStackPage) :
    accessible m (frameOf p.pageDirectory) v = false := by
  rw [Bool.eq_false_iff, Ne, hc v hv hlt, heapPages_iff hv hlt, hb]
  exact Nat.not_lt.mpr hv

theorem Owned.lookup_zero (h : Owned R own dirs [] m) (hP : P ∈ dirs) {v : Nat} (hv : userFuncPage ≤ v)
    (h0 : ¬R.device (v / 1024) → m.lookup P v = 0) : accessible m P v = false := by
  rw [Bool.eq_false_iff, Ne, h.accessible_iff hP hv]
  rintro ⟨hd, hp, -⟩
  rw [h0 hd, present_zero] at hp
  cases hp

theorem Execed.heap_inaccessible (hx : Execed R own dirs m P own' m') (hP : P ∈ dirs) {v : Nat}
    (hv : userHeapPage ≤ v) (hlt : v < userStackPage) : accessible m' P v = false :=
  hx.owned.lookup_zero hP (Nat.le_trans (by decide) hv) (hx.heap v hv hlt)

/-- From USER_FUNC_VADDR on, what is mapped beside no frame buffer is the user's. -/
theorem Owned.present_user (h : Owned R own dirs [] m) (hP : P ∈ dirs) {v : Nat} (hv : userFuncPage ≤ v)
    (hd : ¬R.device (v / 1024)) (hp : present (m.lookup P v) = true) : accessible m P v = true := by
  refine (h.accessible_iff hP hv).mpr ⟨hd, hp, ?_⟩
  unfold Memory.lookup at hp ⊢
  by_cases hpd : present (m.phys P (v / 1024)) = true
  · rw [if_pos hpd] at hp ⊢
    exact h.userTable _ P _ _ (h.table P hP _ (Paging.page_index hv) hpd) hd hp
  · rw [if_neg hpd] at hp
    cases hp

theorem PagesLoaded.accessible_page (hl : PagesLoaded R own dirs m P page w n own' m') (hP : P ∈ dirs)
    {i : Nat} (hi : i < n) (hv : userFuncPage ≤ page + i) (hd : ¬R.device ((page + i) / 1024)) :
    accessible m' P (page + i) = true := by
  obtain ⟨f, -, -, he, -⟩ := hl.frames i hi hv
  refine (hl.owned.accessible_iff hP hv).mpr ⟨hd, ?_, ?_⟩
  · rw [he, present_entry]
    decide
  · rw [he, user_entry]
    decide

/-- Loading pages that were not mapped keeps the mappings. -/
theorem PagesLoaded.mappingsKept (hl : PagesLoaded R own dirs m P page w n own' m')
    (h : Owned R own dirs [] m) (hP : P ∈ dirs) (hhigh : HighPages m P)
    (hnew : ∀ i < n, present (m.lookup P (page + i)) = false) : MappingsKept P m m' := by
  have hkeep : ∀ v, userFuncPage ≤ v → present (m.lookup P v) = true →
      m'.lookup P v = m.lookup P v := by
    intro v hv hp
    refine hl.others P hP v hv (.inr fun i hi he => ?_)
    rw [he, hnew i hi] at hp
    cases hp
  refine ⟨fun v _ => hkeep v, fun v hlt ha => ?_⟩
  have hv := hhigh v hlt ha
  obtain ⟨hd, hp, hu⟩ := (h.accessible_iff hP hv).mp ha
  have he := hkeep v hv hp
  have ha' : accessible m' P v = true := by
    rw [hl.owned.accessible_iff hP hv, he]
    exact ⟨hd, hp, hu⟩
  refine ⟨ha', by rw [← (accessible_present ha').2, ← (accessible_present ha).2, he], ?_⟩
  rw [← (accessible_present ha).2]
  exact hl.grows.pages _ _ _ _ (h.lookup_page hP hv hp hu)

end Covers

section Turns
variable {M : Machine} {R : Regime} {own own' : Owners} {k k' : Kernel} {cur : Pcb} {ev : Event}

structure HeapKept (k : Kernel) : Prop where
  covered : ∀ p ∈ k.sched.procs, HeapCovered k.memory p
  bound : ∀ p ∈ k.sched.procs, p.heapBreak < 4294967296

theorem oldBreak_lt {brk : Nat} (hb : brk < 4294967296) : oldBreak brk < 4294967296 := by
  unfold oldBreak
  split
  · decide
  · exact hb

theorem heapPages_oldBreak (brk : Nat) : heapPages (oldBreak brk) = heapPages brk := by
  unfold oldBreak
  split
  · rename_i h0
    rw [h0]
    rfl
  · rfl

theorem Forked.heapKept {child : Pcb} (h : Sound R k own) (hk : HeapKept k) (hc : cur ∈ k.sched.procs)
    (h0 : heapPages cur.heapBreak = 0) (new : Enlisted k.sched child k'.sched)
    (space : Forked R own (spaces k.sched.procs) (frameOf cur.pageDirectory)
      (frameOf child.pageDirectory) k.memory own' k'.memory) : HeapKept k' := by
  have hold : ∀ p ∈ k.sched.procs, HeapCovered k'.memory p := fun p hp =>
    (hk.covered p hp).same h.owned space.owned (mem_spaces hp)
      (List.mem_cons_of_mem _ (mem_spaces hp)) rfl rfl
      fun v hv => space.lookup_parent h.owned (mem_spaces hp) hv
  have hchild : HeapCovered k'.memory child := by
    refine .empty (by rw [new.heapBreak]; rfl) fun v hv hlt => ?_
    have hcopy := space.accessible_high h.owned (mem_spaces hc) (Nat.le_trans (by decide) hv)
      (Nat.lt_trans hlt (by decide))
    rw [Bool.eq_iff_iff, hcopy, (hk.covered cur hc).inaccessible h0 hv hlt]
  constructor
  · rw [new.procs]
    exact List.forall_mem_append.mpr ⟨hold, List.forall_mem_singleton.mpr hchild⟩
  · rw [new.procs]
    refine List.forall_mem_append.mpr ⟨hk.bound, List.forall_mem_singleton.mpr ?_⟩
    rw [new.heapBreak]
    decide

theorem Execed.heapKept (h : Sound R k own) (hk : HeapKept k) (hc : cur ∈ k.sched.procs)
    (h0 : heapPages cur.heapBreak = 0) (same : k'.sched = k.sched)
    (space : Execed R own (spaces k.sched.procs) k.memory (frameOf cur.pageDirectory) own' k'.memory) :
    HeapKept k' := by
  refine ⟨fun p hp => ?_, fun p hp => hk.bound p (same ▸ hp)⟩
  rw [same] at hp
  by_cases hpc : p = cur
  · rw [hpc]
    exact .empty h0 fun v hv hlt => space.heap_inaccessible (mem_spaces hc) hv hlt
  · have hne : frameOf p.pageDirectory ≠ frameOf cur.pageDirectory :=
      fun he => hpc (spaces_inj h.nodup hp hc he)
    exact (hk.covered p hp).same h.owned space.owned (mem_spaces hp) (mem_spaces hp) rfl rfl
      fun v hv => space.others _ (mem_spaces hp) hne v hv

theorem Sbrked.heapCovered {eax brk offset : Nat} {m' : Memory} {w : Nat → Nat → Nat} (h : Sound R k own)
    (hk : HeapKept k) (hc : cur ∈ k.sched.procs) (hdev : ∀ i, R.device i ↔ deviceIndex M i)
    (hin : SbrkInside M cur.heapBreak offset)
    (grown : Sbrked (frameOf cur.pageDirectory) cur.heapBreak offset k.memory eax brk m')
    (space : PagesLoaded R own (spaces k.sched.procs) k.memory (frameOf cur.pageDirectory)
      (firstPage cur.heapBreak) w (sbrkPages cur.heapBreak offset) own' m') :
    HeapCovered m' (setHeapBreak brk cur) := by
  have hP := mem_spaces hc
  unfold SbrkInside at hin
  by_cases hN : sbrkPages cur.heapBreak offset = 0
  · rw [if_pos hN] at hin
    refine (hk.covered cur hc).same (q := setHeapBreak brk cur) h.owned space.owned hP hP rfl ?_
      fun v hv => space.others _ hP v hv (.inr fun i hi => absurd hi (by omega))
    change heapPages brk = _
    rw [grown.brk]
    split
    · exact heapPages_oldBreak _
    · exact hin
  · rw [if_neg hN] at hin
    obtain ⟨hF, -, hclear⟩ := hin
    have h0 : offset ≠ 0 := fun h0 => hN (by rw [sbrkPages, if_pos h0])
    intro v hv hlt
    have hcover := newBreak_covers (hk.bound cur hc) hN hF hv
    have hf : userFuncPage ≤ v := Nat.le_trans (by decide) hv
    change accessible m' (frameOf cur.pageDirectory) v = true ↔ v * pageSize < brk
    rw [grown.brk, if_neg h0, hcover]
    by_cases hi : ∃ i < sbrkPages cur.heapBreak offset, v = firstPage cur.heapBreak + i
    · obtain ⟨i, hi, rfl⟩ := hi
      exact iff_of_true (space.accessible_page hP hi hf (mt (hdev _).mp (hclear i hi)))
        (.inr ⟨i, hi, rfl⟩)
    · rw [or_iff_left hi, ← hk.covered cur hc v hv hlt, space.owned.accessible_iff hP hf,
        h.owned.accessible_iff hP hf,
        space.others _ hP v hf (.inr fun i hlt he => hi ⟨i, hlt, he⟩)]

theorem Sbrked.heapKept {eax brk offset : Nat} {w : Nat → Nat → Nat} (h : Sound R k own)
    (hk : HeapKept k) (hc : cur ∈ k.sched.procs) (ha : cur.addr = k.sched.current)
    (hdev : ∀ i, R.device i ↔ deviceIndex M i) (hin : SbrkInside M cur.heapBreak offset)
    (grown : Sbrked (frameOf cur.pageDirectory) cur.heapBreak offset k.memory eax brk k'.memory)
    (sched : k'.sched = k.sched.modify k.sched.current (setHeapBreak brk))
    (space : PagesLoaded R own (spaces k.sched.procs) k.memory (frameOf cur.pageDirectory)
      (firstPage cur.heapBreak) w (sbrkPages cur.heapBreak offset) own' k'.memory) : HeapKept k' := by
  have hbrk : brk < 4294967296 := by
    rw [grown.brk]
    split
    · exact oldBreak_lt (hk.bound cur hc)
    · exact wrap_lt _
  have hprocs : ∀ q ∈ k'.sched.procs, q = setHeapBreak brk cur ∨ q ∈ k.sched.procs ∧ q ≠ cur := by
    intro q hq
    rw [sched, modify_procs] at hq
    obtain ⟨p, hp, rfl⟩ := List.mem_map.mp hq
    by_cases hpa : p.addr = k.sched.current
    · rw [onAddr_of_eq hpa, addr_inj h.sane.listed.nodup hp hc (hpa.trans ha.symm)]
      exact .inl rfl
    · rw [onAddr_of_ne hpa]
      exact .inr ⟨hp, fun he => hpa (he ▸ ha)⟩
  refine ⟨fun q hq => ?_, fun q hq => ?_⟩
  · rcases hprocs q hq with rfl | ⟨hp, hne⟩
    · exact grown.heapCovered h hk hc hdev hin space
    · have hne : frameOf q.pageDirectory ≠ frameOf cur.pageDirectory :=
        fun he => hne (spaces_inj h.nodup hp hc he)
      exact (hk.covered q hp).same h.owned space.owned (mem_spaces hp) (mem_spaces hp) rfl rfl
        fun v hv => space.others _ (mem_spaces hp) v hv (.inl hne)
  · rcases hprocs q hq with rfl | ⟨hp, -⟩
    · exact hbrk
    · exact hk.bound q hp

/-- A process that stays keeps its break and its pages. -/
theorem Retained.heapKept {gone : Option Nat} {F : Pcb → Pcb} {dirs' : List Nat} (h : Sound R k own)
    (hk : HeapKept k) (list : Retained k.sched gone k'.sched F)
    (howned : Owned R own' dirs' [] k'.memory)
    (hdirs : ∀ p ∈ k.sched.procs, frameOf p.pageDirectory ∈ dirs')
    (hl : ∀ p ∈ k.sched.procs, gone ≠ some p.addr → ∀ v, userFuncPage ≤ v →
      k'.memory.lookup (frameOf p.pageDirectory) v = k.memory.lookup (frameOf p.pageDirectory) v) :
    HeapKept k' := by
  have hprocs : ∀ q ∈ k'.sched.procs, ∃ p ∈ k.sched.procs, gone ≠ some p.addr ∧ q = F p := by
    intro q hq
    rw [list.procs] at hq
    obtain ⟨p, hp, rfl⟩ := List.mem_map.mp hq
    obtain ⟨hp, hne⟩ := List.mem_filter.mp hp
    exact ⟨p, hp, of_decide_eq_true hne, rfl⟩
  refine ⟨fun q hq => ?_, fun q hq => ?_⟩
  · obtain ⟨p, hp, hne, rfl⟩ := hprocs q hq
    exact (hk.covered p hp).same h.owned howned (mem_spaces hp) (hdirs p hp) (list.directory p hp)
      (congrArg heapPages (list.heapBreak p hp)) (hl p hp hne)
  · obtain ⟨p, hp, -, rfl⟩ := hprocs q hq
    rw [list.heapBreak p hp]
    exact hk.bound p hp

theorem Turn.heapKept (h : Sound R k own) (ht : Turn R own k cur ev own' k') (hk : HeapKept k)
    (hc : cur ∈ k.sched.procs) (ha : cur.addr = k.sched.current)
    (hdev : ∀ i, R.device i ↔ deviceIndex M i)
    (h0 : Calls ev .fork ∨ Calls ev .exec → heapPages cur.heapBreak = 0)
    (hin : Calls ev .sbrk → SbrkInside M cur.heapBreak (wrap ev.regs.ebx)) : HeapKept k' := by
  cases ht with
  | fork call new space => exact space.heapKept h hk hc (h0 (.inl call)) new
  | exec call same space => exact space.heapKept h hk hc (h0 (.inr call)) same
  | sbrk call grown sched space => exact grown.heapKept h hk hc ha hdev (hin call) sched space
  | still _ list same =>
    exact list.heapKept h hk (same ▸ h.owned) (fun p hp => mem_spaces hp) fun p _ _ v _ => by rw [same]
  | @removed p _ _ _ _ listed list cleared space =>
    refine list.heapKept h hk space.owned (fun q hq => mem_spaces hq) fun q hq hne v hv => ?_
    rw [cleared]
    refine h.owned.lookup_cleared_other (mem_spaces listed) (mem_spaces hq) (fun he => hne ?_) hv
    rw [spaces_inj h.nodup hq listed he]

end Turns

section Runs
variable {M : Machine} {own own' : Owners} {k k' : Kernel} {cur : Pcb} {ev : Event}
  {program : Option Program} {regs : Registers}

/-- An exec of a file that is not there changes nothing. -/
theorem exec_missing (hcall : Calls ev .exec) (he : kernelEntry k ev none = some (k', regs)) :
    k' = k := by
  obtain ⟨cur, env, m, out, -, hp, hout, hsched, -, hmem⟩ := kernelEntry_eq he
  simp only [pagingOf, called_iff.mpr hcall] at hp
  obtain ⟨-, rfl⟩ := Prod.mk.inj (Option.some.inj hp)
  obtain ⟨hrel, hsame⟩ := exec_sched (hcall.withEnv env) hout
  rw [hrel] at hmem
  cases k'
  cases k
  simp only [Kernel.mk.injEq]
  exact ⟨hsched.trans hsame, hmem⟩

theorem keepsHeap_admits (M : Machine) : Admits (sealedRun M) (KeepsHeap M) where
  plain := fun _ _ _ _ _ _ ht => ht.elim
  fits := by
    intro k own ev program h hg hcall cur hc ha
    have hcur : k.sched.currentProcess = some cur := by
      rw [Sched.currentProcess, ← ha]
      exact Sched.deref_of_mem h.sane.listed.nodup hc
    have hin := (hg cur hcur).2 hcall
    refine ⟨h.furnished cur hc, fun _ _ _ ht => ht, fun ht => ht.elim, fun _ i hi hlow => ?_,
      fun ht => ht.elim⟩
    unfold SbrkInside at hin
    rw [if_neg (by omega)] at hin
    have hF := hin.1
    simp only [userHeapPage, userFuncPage] at *
    omega
  stays := fun ht => ht.elim

theorem Stored.heapKept {page j w : Nat} (h : Sound (sealedRun M) k own) (hk : HeapKept k)
    (hs : Stored k cur page j w k') : HeapKept k' := by
  have hafter := hs.sound h
  refine ⟨fun p hp => ?_, fun p hp => hk.bound p (hs.sched ▸ hp)⟩
  have hP' := mem_spaces hp
  rw [hs.sched] at hp
  have hP := mem_spaces hp
  refine (hk.covered p hp).same h.owned hafter.owned hP hP' rfl rfl fun v hv => ?_
  refine lookup_congr (congrFun (hs.kept h (h.owned.directory _ hP) (by simp)) _) fun hpr => ?_
  exact congrFun (hs.kept h (h.owned.table _ hP _ (page_index hv) hpr) (by simp)) _

theorem HeapKept.step {a : Action} (hk : HeapKept k) (h : Sound (sealedRun M) k own)
    (hg : KeepsHeap M k a) (hs : kernelStep k a = some k') (hm : k'.memory.exhausted = false) :
    HeapKept k' := by
  cases a with
  | enter ev program =>
    obtain ⟨⟨k₁, regs⟩, he, rfl⟩ := Option.map_eq_some_iff.mp hs
    by_cases hmiss : Calls ev .exec ∧ program = none
    · obtain ⟨hcall, rfl⟩ := hmiss
      rw [exec_missing hcall he]
      exact hk
    have hR := keepsHeap_admits M
    obtain ⟨cur, hc, ha, hcur, own', ht⟩ :=
      h.turn (hR.plain k ev program hg) (hR.fits k own ev program h hg) he hm
    obtain ⟨hempty, hin⟩ := hg cur hcur
    refine ht.heapKept h hk hc ha (fun _ => Iff.rfl) (fun hcall => hempty ?_) hin
    exact hcall.imp id fun hx => ⟨hx, fun hp => hmiss ⟨hx, hp⟩⟩
  | store page j w =>
    obtain ⟨cur, hst⟩ := userStore_stored hs
    exact hst.heapKept h hk

theorem boot_heapKept (hm : (bootKernel M).memory.exhausted = false) : HeapKept (bootKernel M) := by
  obtain ⟨own, hb⟩ := boot_booted (R := sealedRun M) (fun _ => trivial) (fun _ => Iff.rfl) hm
  have hsound := hb.sound fun _ => Iff.rfl
  have hbreak : ∀ p ∈ (bootKernel M).sched.procs, p.heapBreak = 0 := by
    rw [bootKernel]
    simp [boot, bootMain, bootIdle, createProcessControlBlock, setStatus]
  have hspace : ∀ P ∈ spaces (bootKernel M).sched.procs, BootSpace M (bootKernel M).memory P := by
    intro P hP
    rw [bootKernel_spaces] at hP
    rw [bootKernel_memory]
    rcases List.mem_cons.mp hP with hP | hP
    · rw [hP]
      exact hb.main
    · rw [List.mem_singleton.mp hP]
      exact hb.idle
  refine ⟨fun p hp => ?_, fun p hp => hbreak p hp ▸ Nat.zero_lt_succ _⟩
  have hP := mem_spaces hp
  have hs := hspace _ hP
  refine .empty (by rw [hbreak p hp]; rfl) fun v hv hlt => ?_
  have hf : userFuncPage ≤ v := Nat.le_trans (by decide) hv
  rw [Bool.eq_false_iff, Ne, hsound.owned.accessible_iff hP hf]
  rintro ⟨hd, hpr, -⟩
  rcases (hs.pages v hf).mp hpr with (hkernel | rfl) | rfl
  · exact hd (kernelPage_device hkernel hs.frame hf)
  · exact absurd hv (by decide)
  · exact Nat.lt_irrefl _ hlt

theorem reach_heapKept (h : Reach kernelStep (KeepsHeap M) (bootKernel M) k)
    (hm : k.memory.exhausted = false) : ∃ own, Sound (sealedRun M) k own ∧ HeapKept k := by
  have hboot := run_served h hm
  refine h.invariant (fun k => k.memory.exhausted = false → ∃ own, Sound (sealedRun M) k own ∧ HeapKept k)
    (fun _ => ?_) ?_ hm
  · obtain ⟨own, hs⟩ := boot_sound (R := sealedRun M) (fun _ => trivial) (fun _ => Iff.rfl) hboot
    exact ⟨own, hs, boot_heapKept hboot⟩
  · intro k a k' ih hg hs hm
    obtain ⟨own, hsound, hk⟩ := ih (kernelStep_served hs hm)
    obtain ⟨own', hsound'⟩ := hsound.step (keepsHeap_admits M) hg hs hm
    exact ⟨own', hsound', hk.step hsound hg hs hm⟩

theorem Sound.sbrk_new {offset i : Nat} (h : Sound (sealedRun M) k own) (hk : HeapKept k)
    (hc : cur ∈ k.sched.procs) (hin : SbrkInside M cur.heapBreak offset)
    (hi : i < sbrkPages cur.heapBreak offset) :
    present (k.memory.lookup (frameOf cur.pageDirectory) (firstPage cur.heapBreak + i)) = false := by
  have hN : sbrkPages cur.heapBreak offset ≠ 0 := by omega
  unfold SbrkInside at hin
  rw [if_neg hN] at hin
  obtain ⟨hF, hend, hclear⟩ := hin
  have hv : userHeapPage ≤ firstPage cur.heapBreak + i := Nat.le_trans hF (Nat.le_add_right ..)
  have hlt := (newBreak_covers (hk.bound cur hc) hN hF hv).mpr (.inr ⟨i, hi, rfl⟩)
  have hstack : firstPage cur.heapBreak + i < userStackPage :=
    Nat.lt_of_mul_lt_mul_right (Nat.lt_of_lt_of_le hlt hend)
  rw [Bool.eq_false_iff]
  intro hp
  have ha := h.owned.present_user (mem_spaces hc) (Nat.le_trans (by decide) hv) (hclear i hi) hp
  exact firstPage_above (hk.bound cur hc) hF ((hk.covered cur hc _ hv hstack).mp ha)

/-- In every run in which no heap with pages is copied or cleared and every sbrk stays inside the heap,
the break covers the pages of the heap, and sbrk replaces no mapping, until an allocation fails. -/
theorem heap_break_covers (h : Reach kernelStep (KeepsHeap M) (bootKernel M) k)
    (hm : k.memory.exhausted = false) : HeapExact (KeepsHeap M) k := by
  obtain ⟨own, hs, hk⟩ := reach_heapKept h hm
  refine ⟨hk.covered, fun ev program k' cur hg hcall hcur hstep hm' => ?_⟩
  have hR := keepsHeap_admits M
  obtain ⟨⟨k₁, regs⟩, he, rfl⟩ := Option.map_eq_some_iff.mp hstep
  obtain ⟨cur', hc, -, hcur', own', ht⟩ :=
    hs.turn (hR.plain k ev program hg) (hR.fits k own ev program hs hg) he hm'
  rw [hcur, Option.some.injEq] at hcur'
  subst hcur'
  cases ht with
  | sbrk _ _ _ space =>
    exact space.mappingsKept hs.owned (mem_spaces hc) (hs.owned.highPages trivial (mem_spaces hc))
      fun i hi => hs.sbrk_new hk hc ((hg cur hcur).2 hcall) hi
  | fork call _ _ => exact absurd (hcall.unique call) (by decide)
  | exec call _ _ => exact absurd (hcall.unique call) (by decide)
  | still call _ _ => exact absurd hcall call.2
  | removed call _ _ _ _ => exact absurd hcall call.2

end Runs

/-! ### A heap that is copied -/

theorem sample_device {i : Nat} (h : deviceIndex sampleMachine i) : 1012 ≤ i := by
  obtain ⟨v, ⟨hv, -⟩, -, rfl⟩ := h
  rw [sample_fbPage] at hv
  omega

def heapCost (i : Nat) : Nat := if i = 288 then 2 else sampleCost i

theorem heapPage_loaded : ∃ k₁,
    kernelStep (bootKernel sampleMachine) (.enter pageSbrk none) = some k₁ ∧
    Tabled sampleMachine k₁ ∧ Running k₁ (mainSpace sampleMachine).1 0x48001000 ∧
    k₁.sched.procs.map Pcb.addr = (bootKernel sampleMachine).sched.procs.map Pcb.addr ∧
    (∃ n ≤ 1043, Filled k₁.memory n) ∧
    spaceCost k₁.memory (mainSpace sampleMachine).1 1024 ≤ 125 ∧
    accessible k₁.memory (mainSpace sampleMachine).1 userHeapPage = true := by
  obtain ⟨n, -, hn, hf, ht, hspace, -, -⟩ := sample_main
  have hhigh : highFrame = 2048 := rfl
  obtain ⟨k₁, own, hs₁, hr₁, h₁, n₁, hn₁, hf₁⟩ := (bootKernel_running sampleMachine).load ht hf (by omega)
    (show Calls pageSbrk .sbrk by decide) (by decide) (by decide) (by decide)
  rw [show newBreak 0 (wrap pageSbrk.regs.ebx) = 0x48001000 by decide] at hr₁
  rw [show firstPage 0 = userHeapPage by decide] at h₁
  obtain ⟨own', hl⟩ := h₁.loaded
  have hP := (bootKernel_running sampleMachine).listed
  have hnew : ∀ v, userFuncPage ≤ v → v ≠ userHeapPage →
      present (k₁.memory.lookup (mainSpace sampleMachine).1 v) = true →
      present ((bootKernel sampleMachine).memory.lookup (mainSpace sampleMachine).1 v) = true :=
    fun v hv hne hp => hl.others _ hP v hv (.inr hne) ▸ hp
  refine ⟨k₁, hs₁, h₁.tabled, hr₁, h₁.addrs, ⟨n₁, by omega, hf₁⟩, ?_, ?_⟩
  · have hsum : ((List.range 1024).map heapCost).sum = 125 := by decide +kernel
    refine hsum ▸ spaceCost_le (fun i => ?_) 1024
    unfold heapCost
    by_cases hi : i = 288
    · rw [if_pos hi, indexCost]
      split
      · rename_i hc
        refine Nat.add_le_add_left (tablePages_first hc.1 fun j hj hp => ?_) 1
        by_contra hj0
        have hv : userFuncPage ≤ i * 1024 + j := by
          simp only [userFuncPage]
          omega
        have hne : i * 1024 + j ≠ userHeapPage := by
          simp only [userHeapPage]
          omega
        have hpage := sample_page hspace hv ((hspace.pages _ hv).mp (hnew _ hv hne hp))
        simp only [userFuncPage, userStackPage] at hpage
        omega
      · exact Nat.zero_le _
    · rw [if_neg hi]
      refine Nat.le_trans (indexCost_shrinks (fun _ hp => ?_) fun v hv hvi => hnew v hv ?_)
        (sample_indexCost hspace i)
      · rwa [hl.elsewhere _ hP i (.inr hi)] at hp
      · rintro rfl
        exact hi hvi.symm
  · obtain ⟨f, -, -, he, -⟩ := hl.frame
    have hlook : k₁.memory.lookup (mainSpace sampleMachine).1 userHeapPage = entry f pageFlagUser := by
      rw [Memory.lookup, if_pos hl.link, he]
    refine (hl.owned.accessible_iff hP (by decide)).mpr
      ⟨fun hd => absurd (sample_device hd) (by decide), ?_, ?_⟩
    · rw [hlook, present_entry]
      decide
    · rw [hlook, user_entry]
      decide

theorem pageSbrk_keeps : KeepsHeap sampleMachine (bootKernel sampleMachine) (.enter pageSbrk none) := by
  intro cur hcur
  obtain ⟨cur', hcur', -, hbreak⟩ := bootKernel_main sampleMachine
  rw [hcur, Option.some.injEq] at hcur'
  rw [hcur', hbreak]
  refine ⟨fun hcall => absurd hcall (by decide), fun _ => ?_⟩
  have hpages : sbrkPages 0 (wrap pageSbrk.regs.ebx) = 1 := by decide
  unfold SbrkInside
  rw [hpages, if_neg (by decide)]
  refine ⟨by decide, by decide, fun i hi hd => ?_⟩
  obtain rfl : i = 0 := by omega
  exact absurd (sample_device hd) (by decide)

theorem pageSbrk_covered : ∃ k₁,
    kernelStep (bootKernel sampleMachine) (.enter pageSbrk none) = some k₁ ∧
    (∀ p ∈ k₁.sched.procs, HeapCovered k₁.memory p) ∧
    MappingsKept (mainSpace sampleMachine).1 (bootKernel sampleMachine).memory k₁.memory := by
  obtain ⟨k₁, hs₁, ht₁, -, -, -, -, -⟩ := heapPage_loaded
  obtain ⟨cur, hcur, hdir, -⟩ := bootKernel_main sampleMachine
  have hboot := (heap_break_covers .refl (kernelStep_served hs₁ ht₁.met)).added pageSbrk none k₁ cur
    pageSbrk_keeps (by decide) hcur hs₁ ht₁.met
  rw [hdir] at hboot
  exact ⟨k₁, hs₁, (heap_break_covers (.tail _ .refl pageSbrk_keeps hs₁) ht₁.met).covered, hboot⟩

/-- A child has its parent's heap and no break. -/
theorem fork_forgets_break : ¬ ∀ M k, Reach kernelStep anyStep (bootKernel M) k →
    k.memory.exhausted = false → k.memory.nullTable = false → HeapExact anyStep k := by
  intro h
  obtain ⟨k₁, hs₁, ht₁, hr₁, ha₁, ⟨n₁, hn₁, hf₁⟩, hcost, hacc⟩ := heapPage_loaded
  have hhigh : highFrame = 2048 := rfl
  have hnum : numFrames = 32768 := rfl
  obtain ⟨own₁, hsound₁⟩ := ht₁.sound
  have hnew : sampleFork.env.pcbAddr ∉ k₁.sched.procs.map Pcb.addr := by
    rw [ha₁]
    exact sampleFork_new
  obtain ⟨k₂, child, hs₂, -, hen, hdir, hm₂⟩ := hr₁.fork (show Calls sampleFork .fork by decide) hnew
  obtain ⟨hf₂, -⟩ := hsound₁.owned.forkDirectory_filled hr₁.listed hf₁ ht₁.met (by omega)
  rw [← hm₂] at hf₂
  have ht₂ := ht₁.next hs₂ (hf₂.lowFrames (by omega))
  have hmet := ht₂.met
  rw [hm₂] at hmet
  obtain ⟨own₂, hforked⟩ := hsound₁.owned.forked hr₁.listed hmet
  rw [← hm₂, ← hdir] at hforked
  have hchild := (hforked.accessible_high hsound₁.owned hr₁.listed (by decide) (by decide)).mpr hacc
  have hreach : Reach kernelStep anyStep (bootKernel sampleMachine) k₂ :=
    .tail _ (.tail _ .refl trivial hs₁) trivial hs₂
  have hmem : child ∈ k₂.sched.procs := by
    rw [hen.procs]
    exact List.mem_append_right _ (List.mem_singleton_self child)
  have hcovered := (h sampleMachine k₂ hreach ht₂.met ht₂.found).covered child hmem userHeapPage
    (by decide) (by decide)
  rw [hen.heapBreak] at hcovered
  exact absurd (hcovered.mp hchild) (by decide)

end AdamOS.Paging
