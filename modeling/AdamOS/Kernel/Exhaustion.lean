import AdamOS.Kernel.UserIsolation
import Mathlib.Data.Finset.Card

/-! Running out of frames. allocate_frame reports it by the address 0 and no caller looks at the
result: fork, exec and sbrk go on as if frame 0 were theirs. -/
namespace AdamOS.Paging
open AdamOS.Process AdamOS.Scheduler AdamOS.Lifecycle AdamOS.Word AdamOS.Loop AdamOS.Transition

def Kernel.fresh (k : Kernel) : Kernel := { k with memory := { k.memory with exhausted := false } }

/- allocate_frame returns 0 during the entry, which leaves `k'` and the frame `regs`. -/
def RunsOut (k : Kernel) (ev : Event) (program : Option Program) (k' : Kernel)
    (regs : Registers) : Prop :=
  Allocates ev ∧ kernelEntry k.fresh ev program = some (k', regs) ∧ k'.memory.exhausted = true

/- The entry fails and changes nothing: the process list with the caller's heap_break, and what
   every process has mapped. Frame 0 is neither a table nor a user's page. -/
structure CleanFailure (k k' : Kernel) (regs : Registers) : Prop where
  error : regs.eax = minusOne
  procs : k'.sched.procs = k.sched.procs
  entries : ∀ p ∈ k.sched.procs, ∀ page < 1048576,
    k'.memory.phys (frameOf p.pageDirectory) (page / 1024) =
      k.memory.phys (frameOf p.pageDirectory) (page / 1024) ∧
    k'.memory.pte (frameOf p.pageDirectory) page = k.memory.pte (frameOf p.pageDirectory) page
  noZero : ∀ p ∈ k'.sched.procs, ∀ page < 1048576,
    present (k'.memory.phys (frameOf p.pageDirectory) (page / 1024)) = true →
      frameOf (k'.memory.phys (frameOf p.pageDirectory) (page / 1024)) ≠ 0 ∧
      (accessible k'.memory (frameOf p.pageDirectory) page = true →
        frameOf (k'.memory.pte (frameOf p.pageDirectory) page) ≠ 0)

/-! ### What the three calls do whatever allocate_frame returns -/

theorem fork_procs {s : Sched} {ev : Event} {out : Outcome} (hc : Calls ev .fork)
    (h : handle s ev = some out) : out.sched.procs ≠ s.procs := by
  rw [handle_syscall hc, syscallHandlerMain, hc.2] at h
  obtain ⟨cur, hcur, h1⟩ := Option.bind_eq_some_iff.mp h
  have hne : s.procs ≠ [] := List.ne_nil_of_mem (Sched.deref_mem hcur).1
  split at h1
  · cases h1
  · cases h1
    intro he
    have hlen := congrArg List.length he
    obtain ⟨p, ps, hps⟩ := List.exists_cons_of_ne_nil hne
    simp [schedulerEnqueue, hps] at hlen

theorem exec_outcome {s : Sched} {ev : Event} {out : Outcome} (hc : Calls ev .exec)
    (h : handle s ev = some out) : out.regs = ev.env.execRegs ∧ out.released = none := by
  rw [handle_syscall hc, syscallHandlerMain, hc.2] at h
  cases h
  exact ⟨rfl, rfl⟩

/-- sbrk stores the break that paging computed; the process list stays as it was only if that is
the old one. -/
theorem sbrk_outcome {s : Sched} {ev : Event} {out : Outcome} {cur : Pcb} (hc : Calls ev .sbrk)
    (hcur : s.currentProcess = some cur) (h : handle s ev = some out) : out.released = none ∧
      (out.sched.procs = s.procs → ev.env.heapBreak = cur.heapBreak) := by
  rw [handle_syscall hc, syscallHandlerMain, hc.2] at h
  cases h
  refine ⟨rfl, fun hsame => ?_⟩
  obtain ⟨hm, ha⟩ := Sched.deref_mem hcur
  let grow (p : Pcb) : Pcb := { p with heapBreak := ev.env.heapBreak }
  have hmap : s.procs.map (onAddr s.current grow) = s.procs.map id :=
    hsame.trans (List.map_id _).symm
  have hfix : onAddr s.current grow cur = cur := List.map_inj_left.mp hmap cur hm
  rw [onAddr_of_eq ha] at hfix
  exact congrArg Pcb.heapBreak hfix

theorem newBreak_ne {heapBreak offset : Nat} (h0 : offset ≠ 0) (hlt : offset < 4294967296)
    (hb : heapBreak ≠ 0) : newBreak heapBreak offset ≠ heapBreak := by
  rw [newBreak, oldBreak, if_neg hb, wrap]
  omega

theorem sbrk_moves {pd heapBreak offset : Nat} {m m' : Memory} {eax brk : Nat}
    (hlt : offset < 4294967296) (h : sbrk pd heapBreak offset m = some (eax, brk, m'))
    (hm : m.exhausted = false) (hm' : m'.exhausted = true) : brk ≠ heapBreak := by
  unfold sbrk at h
  by_cases h0 : offset = 0
  · rw [if_pos h0] at h
    cases h
    rw [hm] at hm'
    cases hm'
  rw [if_neg h0] at h
  obtain ⟨m₁, hgrow, he⟩ := Option.map_eq_some_iff.mp h
  cases he
  by_cases hb : heapBreak = 0
  · -- below a break of 0 there are no pages to map
    subst hb
    intro hz
    rw [hz, growHeap, if_neg (Nat.not_lt_zero _)] at hgrow
    cases hgrow
    rw [hm] at hm'
    cases hm'
  · exact newBreak_ne h0 hlt hb

/-- No call that runs out of frames fails cleanly. -/
theorem exhaustion_unclean {k k' : Kernel} {ev : Event} {program : Option Program}
    {regs : Registers} (h : RunsOut k ev program k' regs) : ¬CleanFailure k k' regs := by
  obtain ⟨hcall, hentry, hout⟩ := h
  intro hclean
  obtain ⟨cur, env, m, out, hcur, hpaging, hhandle, hs, hr, hmem⟩ := kernelEntry_eq hentry
  have hsame : out.sched.procs = k.fresh.sched.procs := hs ▸ hclean.procs
  rcases hcall with hc | hc | hc
  · exact fork_procs (hc.withEnv env) hhandle hsame
  · obtain ⟨heax, hrel⟩ := exec_outcome (hc.withEnv env) hhandle
    have herror := hclean.error
    rw [hr, heax] at herror
    rw [hmem, hrel] at hout
    simp only [pagingOf, called_eq hc] at hpaging
    cases program with
    | none =>
      -- no file: nothing was allocated
      cases hpaging
      cases hout
    | some p =>
      cases hpaging
      cases herror
  · obtain ⟨hrel, hmoved⟩ := sbrk_outcome (hc.withEnv env) hcur hhandle
    have hbrk := hmoved hsame
    rw [hmem, hrel] at hout
    simp only [pagingOf, called_eq hc] at hpaging
    obtain ⟨⟨eax, brk, m'⟩, hsbrk, he⟩ := Option.map_eq_some_iff.mp hpaging
    cases he
    exact sbrk_moves (wrap_lt _) hsbrk rfl hout hbrk

/-! ### Counting the free frames -/

def freeFrames (m : Memory) : Finset Nat :=
  (Finset.range numFrames).filter fun f => f ≠ 0 ∧ m.bitmap f = false

theorem freeFrames_lt (m : Memory) : (freeFrames m).card < numFrames := by
  have hss : freeFrames m ⊂ Finset.range numFrames :=
    Finset.filter_ssubset.mpr ⟨0, Finset.mem_range.mpr (by decide), fun h => h.1 rfl⟩
  have hlt := Finset.card_lt_card hss
  rwa [Finset.card_range] at hlt

theorem allocateFrame_free {m : Memory} (h : (allocateFrame m).2.exhausted = false) :
    (freeFrames (allocateFrame m).2).card + 1 = (freeFrames m).card := by
  obtain ⟨h0, hlt, hfree, he⟩ := allocateFrame_spec h
  generalize (allocateFrame m).1 = f at *
  have hmem : f ∈ freeFrames m :=
    Finset.mem_filter.mpr ⟨Finset.mem_range.mpr hlt, by omega, hfree⟩
  have herase : freeFrames (m.mark f true) = (freeFrames m).erase f := by
    ext g
    simp only [freeFrames, Finset.mem_erase, Finset.mem_filter]
    by_cases hg : g = f
    · subst hg
      simp
    · rw [m.mark_of_ne true hg]
      simp [hg]
  rw [he, herase, Finset.card_erase_add_one hmem]

theorem mapPage_free {pd page f flags : Nat} {m : Memory}
    (h : (mapPage pd page f flags m).exhausted = false) :
    (freeFrames (mapPage pd page f flags m)).card ≤ (freeFrames m).card := by
  have hcongr : ∀ {r r' : Memory}, r'.bitmap = r.bitmap → freeFrames r' = freeFrames r :=
    fun hb => by rw [freeFrames, freeFrames, hb]
  unfold mapPage at h ⊢
  by_cases hp : present (m.phys pd (page / 1024)) = true
  · simp only [hp, if_true] at h ⊢
    rw [hcongr (Memory.put_bitmap ..)]
  · simp only [hp, if_false, Bool.false_eq_true, createPageTable, Memory.put_exhausted,
      Memory.fill_exhausted, identityMapIn_exhausted] at h ⊢
    have halloc := allocateFrame_free h
    have hb : (identityMapIn pd (allocateFrame m).1 (((allocateFrame m).2.fill (allocateFrame m).1
        fun _ => 0).put pd (page / 1024) (entry (allocateFrame m).1 (flags ||| 1)))).bitmap =
        (allocateFrame m).2.bitmap := by
      rw [identityMapIn_bitmap, Memory.put_bitmap, Memory.fill_bitmap]
    rw [hcongr (Memory.put_bitmap ..), hcongr hb]
    omega

theorem loadPage_free {pd page : Nat} {w : Nat → Nat} {m : Memory}
    (h : (loadPage pd page w m).exhausted = false) :
    (freeFrames (loadPage pd page w m)).card + 1 ≤ (freeFrames m).card := by
  unfold loadPage at h ⊢
  rw [writePage_exhausted] at h
  have halloc := allocateFrame_free (mapPage_served h)
  have hmap := mapPage_free h
  have hb : freeFrames (writePage pd page w (mapPage pd page (allocateFrame m).1 pageFlagUser
      (allocateFrame m).2)) = freeFrames (mapPage pd page (allocateFrame m).1 pageFlagUser
      (allocateFrame m).2) := by
    rw [freeFrames, freeFrames, writePage, Memory.fill_bitmap]
  rw [hb]
  omega

theorem loadPages_free {n pd page : Nat} {m : Memory}
    (h : (loop n (fun i => loadPage pd (page + i) fun _ => 0) m).exhausted = false) :
    (freeFrames (loop n (fun i => loadPage pd (page + i) fun _ => 0) m)).card + n ≤
      (freeFrames m).card := by
  induction n with
  | zero => rw [loop_zero, Nat.add_zero]
  | succ n ih =>
    rw [loop_succ] at h ⊢
    have hn := ih (loadPage_served h)
    have hlast := loadPage_free h
    omega

/-! ### A heap that grows and shrinks -/

def heapIndex : Nat := userHeapPage / 1024

structure HeapTable (P : Nat) (m : Memory) : Prop where
  pos : 0 < P
  used : m.bitmap P = true
  table : present (m.phys P heapIndex) = true
  apart : frameOf (m.phys P heapIndex) ≠ P

/-- Whether or not there is a frame, a heap page is mapped in that table. -/
theorem HeapTable.loadPage {P page : Nat} {w : Nat → Nat} {m : Memory} (h : HeapTable P m)
    (hpage : page / 1024 = heapIndex) :
    HeapTable P (loadPage P page w m) ∧ (Paging.loadPage P page w m).nullTable = m.nullTable := by
  have hne : P ≠ (allocateFrame m).1 ∧ (allocateFrame m).2.bitmap P = true ∧
      (allocateFrame m).2.phys = m.phys ∧ (allocateFrame m).2.nullTable = m.nullTable := by
    refine ⟨?_, allocateFrame_bits h.used, ?_, allocateFrame_nullTable m⟩
    · unfold allocateFrame
      cases hf : firstFree m with
      | none => exact Nat.ne_of_gt h.pos
      | some f =>
        rintro rfl
        have hfree := (firstFree_some hf).2.2
        rw [h.used] at hfree
        cases hfree
    · unfold allocateFrame
      cases firstFree m <;> rfl
  unfold Paging.loadPage
  dsimp only
  generalize (allocateFrame m).1 = f at *
  generalize (allocateFrame m).2 = m₁ at *
  obtain ⟨hf, hused, hphys, hnull⟩ := hne
  have htable : present (m₁.phys P (page / 1024)) = true := by rw [hphys, hpage, h.table]
  have hT : frameOf (m₁.phys P (page / 1024)) ≠ P := by rw [hphys, hpage]; exact h.apart
  rw [mapPage_found htable]
  generalize hTable : frameOf (m₁.phys P (page / 1024)) = T at *
  have hdir : (m₁.put T (page % 1024) (entry f (pageFlagUser ||| 1))).phys P = m.phys P := by
    rw [Memory.put_frame_ne _ _ _ hT.symm, hphys]
  have hpage' : frameOf ((m₁.put T (page % 1024) (entry f (pageFlagUser ||| 1))).pte P page) = f := by
    rw [Memory.pte, hdir, ← hphys, hTable, Memory.put_self, frameOf_entry (by decide)]
  rw [writePage, hpage', Memory.fill_nullTable, Memory.put_nullTable]
  refine ⟨⟨h.pos, hused, ?_, ?_⟩, hnull⟩
  · rw [Memory.fill_ne _ _ hf, hdir, h.table]
  · rw [Memory.fill_ne _ _ hf, hdir]
    exact h.apart

theorem HeapTable.loadPages {P : Nat} {m : Memory} (h : HeapTable P m) {n : Nat} (hn : n ≤ 1024) :
    HeapTable P (loop n (fun i => Paging.loadPage P (userHeapPage + i) fun _ => 0) m) ∧
      (loop n (fun i => Paging.loadPage P (userHeapPage + i) fun _ => 0) m).nullTable = m.nullTable := by
  refine loop_keeps (fun b : Memory => HeapTable P b ∧ b.nullTable = m.nullTable) ⟨h, rfl⟩ ?_
  intro i hi b hb
  have hpage : (userHeapPage + i) / 1024 = heapIndex := by
    simp only [userHeapPage, heapIndex]
    omega
  obtain ⟨hT, hnull⟩ := hb.1.loadPage (w := fun _ => 0) hpage
  exact ⟨hT, hnull.trans hb.2⟩

/- main asks for 4 MB, and gives them back. -/
def growSbrk : Event := call 27 0x400000 0
def shrinkSbrk : Event := call 27 0xFFC00000 0

theorem sbrk_eax {k k' : Kernel} {P brk : Nat} {ev : Event} {regs : Registers} (h : Running k P brk)
    (hc : Calls ev .sbrk) (he : kernelEntry k ev none = some (k', regs)) : regs.eax = oldBreak brk := by
  obtain ⟨-, cur, hcur, -, rfl⟩ := h
  obtain ⟨cur', env, m, out, hcur', hp, hout, -, hr, -⟩ := kernelEntry_eq he
  rw [hcur, Option.some.injEq] at hcur'
  subst hcur'
  obtain ⟨out', hout', -, heax⟩ := sbrk_returns (s := k.sched) (hc.withEnv env)
  rw [hout, Option.some.injEq] at hout'
  simp only [pagingOf, called_eq hc] at hp
  obtain ⟨⟨eax, brk, m'⟩, hs, henv⟩ := Option.map_eq_some_iff.mp hp
  cases henv
  rw [hr, hout', heax]
  unfold Paging.sbrk at hs
  split at hs
  · cases hs
    rfl
  · obtain ⟨_, -, hret⟩ := Option.map_eq_some_iff.mp hs
    cases hret
    rfl

structure RanOut (M : Machine) (k k' : Kernel) (regs : Registers) : Prop where
  reached : Reach kernelStep anyStep (bootKernel M) k
  runsOut : RunsOut k growSbrk none k' regs
  tables : k'.memory.nullTable = false
  eax : regs.eax = userHeapPage * pageSize

/- The break is back at USER_HEAP_VADDR after rounds that left fewer than `room` frames free. -/
structure Rounds (M : Machine) (P room : Nat) (k : Kernel) : Prop where
  reached : Reach kernelStep anyStep (bootKernel M) k
  running : Running k P (userHeapPage * pageSize)
  heap : HeapTable P k.memory
  tables : k.memory.nullTable = false
  met : k.memory.exhausted = false
  room : (freeFrames k.memory).card < room

/-- A round takes 1024 frames or runs out of them. -/
theorem Rounds.next {M : Machine} {P room : Nat} {k : Kernel} (h : Rounds M P (room + 1024) k) :
    (∃ k k' regs, RanOut M k k' regs) ∨ ∃ k', Rounds M P room k' := by
  obtain ⟨k₁, hs₁, hr₁, -, -, hm₁⟩ := h.running.sbrk (show Calls growSbrk .sbrk by decide) (by decide)
    (by decide)
  rw [show newBreak (userHeapPage * pageSize) (wrap growSbrk.regs.ebx) = 0x48400000 by decide] at hr₁
  rw [show sbrkPages (userHeapPage * pageSize) (wrap growSbrk.regs.ebx) = 1024 by decide,
    show firstPage (userHeapPage * pageSize) = userHeapPage by decide] at hm₁
  obtain ⟨hheap, hnull⟩ := h.heap.loadPages (Nat.le_refl 1024)
  rw [← hm₁] at hheap hnull
  cases hx : k₁.memory.exhausted with
  | true =>
    obtain ⟨⟨k', regs⟩, he, rfl⟩ := Option.map_eq_some_iff.mp hs₁
    have hfresh : k.fresh = k := by
      have hmet := h.met
      obtain ⟨sched, bitmap, phys, exhausted, nullTable⟩ := k
      cases hmet
      rfl
    exact .inl ⟨k, k', regs, h.reached, ⟨.inr (.inr (by decide)), by rw [hfresh, he], hx⟩,
      by rw [hnull, h.tables], sbrk_eax h.running (by decide) he⟩
  | false =>
    obtain ⟨k₂, hs₂, hr₂, -, -, hm₂⟩ := hr₁.sbrk (show Calls shrinkSbrk .sbrk by decide) (by decide)
      (by decide)
    rw [show newBreak 0x48400000 (wrap shrinkSbrk.regs.ebx) = userHeapPage * pageSize by decide] at hr₂
    rw [show sbrkPages 0x48400000 (wrap shrinkSbrk.regs.ebx) = 0 by decide, loop_zero] at hm₂
    have hcount := loadPages_free (hm₁ ▸ hx)
    rw [← hm₁] at hcount
    have hroom := h.room
    rw [← hm₂] at hheap hnull hx hcount
    exact .inr ⟨k₂, .tail _ (.tail _ h.reached trivial hs₁) trivial hs₂, hr₂, hheap,
      by rw [hnull, h.tables], hx, by omega⟩

theorem Rounds.runs_out {M : Machine} {P n : Nat} {k : Kernel} (h : Rounds M P (1024 * n) k) :
    ∃ k k' regs, RanOut M k k' regs := by
  induction n generalizing k with
  | zero => exact absurd h.room (Nat.not_lt_zero _)
  | succ n ih =>
    rcases h.next with hout | ⟨k', hk'⟩
    · exact hout
    · exact ih hk'

def pageBack : Event := call 27 0xFFFFF000 0

/-- A first page makes the heap's table in a low frame. -/
theorem sample_rounds : ∃ P k, Rounds sampleMachine P (1024 * 32) k := by
  have hhigh : highFrame = 2048 := rfl
  obtain ⟨n, -, hn, hf, ht, -, hP, -⟩ := sample_main
  obtain ⟨k₁, own, hs₁, hr₁, h₁, -⟩ := (bootKernel_running sampleMachine).load ht hf (by omega)
    (show Calls pageSbrk .sbrk by decide) (by decide) (by decide) (by decide)
  obtain ⟨k₂, hs₂, hr₂, -, -, hm₂⟩ := hr₁.sbrk (show Calls pageBack .sbrk by decide) (by decide)
    (by decide)
  rw [show sbrkPages (newBreak 0 (wrap pageSbrk.regs.ebx)) (wrap pageBack.regs.ebx) = 0 by decide,
    loop_zero] at hm₂
  rw [show newBreak (newBreak 0 (wrap pageSbrk.regs.ebx)) (wrap pageBack.regs.ebx) =
    userHeapPage * pageSize by decide] at hr₂
  obtain ⟨own', hl⟩ := h₁.loaded
  have hlisted := (bootKernel_running sampleMachine).listed
  have hdir := hl.owned.directory _ hlisted
  refine ⟨_, k₂, .tail _ (.tail _ .refl trivial hs₁) trivial hs₂, hr₂, ?_, by rw [hm₂, h₁.tabled.found],
    by rw [hm₂, h₁.tabled.met], by rw [hm₂]; exact freeFrames_lt _⟩
  rw [hm₂]
  have htable := hl.owned.table _ hlisted heapIndex (by decide) hl.link
  exact ⟨by omega, (hl.owned.backed _ _ hdir).1, hl.link, (owner_ne hdir htable (by simp)).symm⟩

/-- main grows its heap by 4 MB and shrinks it again until the frames run out. -/
theorem growth_unclean : ∃ k k' regs, Reach kernelStep anyStep (bootKernel sampleMachine) k ∧
    RunsOut k growSbrk none k' regs ∧ k'.memory.nullTable = false ∧ ¬CleanFailure k k' regs := by
  obtain ⟨P, k₀, h₀⟩ := sample_rounds
  obtain ⟨k, k', regs, h⟩ := h₀.runs_out
  exact ⟨k, k', regs, h.reached, h.runsOut, h.tables, exhaustion_unclean h.runsOut⟩

/-- The growth that runs out returns the old break as if all had gone well. -/
theorem growth_succeeds : ¬ ∀ M k ev program k' regs, Reach kernelStep anyStep (bootKernel M) k →
    RunsOut k ev program k' regs → k'.memory.nullTable = false → CleanFailure k k' regs := by
  intro hall
  obtain ⟨P, k₀, h₀⟩ := sample_rounds
  obtain ⟨k, k', regs, h⟩ := h₀.runs_out
  have herror := (hall sampleMachine k _ _ k' regs h.reached h.runsOut h.tables).error
  rw [h.eax] at herror
  exact absurd herror (by decide)

end AdamOS.Paging
