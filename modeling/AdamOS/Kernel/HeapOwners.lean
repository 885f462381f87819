import AdamOS.Files.ReadWrite
import AdamOS.Kernel.FrameCalls
import AdamOS.Kernel.HeapHandlers
import AdamOS.Kernel.SpaceRun
import Mathlib.Tactic.Ring

/-! Who owns the blocks of the kernel heap. Every entry gives back what it takes away from its owner
and hands the blocks it keeps to a descriptor, a process or a window. -/
namespace AdamOS.HeapUse
open AdamOS.Desktop AdamOS.Drawing AdamOS.Fat16 AdamOS.Files AdamOS.Kmalloc AdamOS.Kmalloc.KernelHeap
open AdamOS.Lifecycle AdamOS.ListUpdate AdamOS.Paging AdamOS.Process AdamOS.Scheduler AdamOS.TextTerminal
open AdamOS.Transition AdamOS.Windows AdamOS.Word

def fdBlocks (dataAt : Nat → Nat) (fd : FileDescriptor) : List Nat :=
  if fd.isOpen = true ∧ fd.type = .file then [dataAt fd.data, fd.data] else []

def processBlocks (dataAt : Nat → Nat) (p : Pcb) : List Nat :=
  p.fds.flatMap (fdBlocks dataAt) ++ [sub32 p.kernelStack pageSize, p.addr]

def windowBlocks (w : Window) : List Nat := [w.pixelBuffer, w.addr]

def owned (boot : List Nat) (dataAt : Nat → Nat) (procs : List Pcb) (windows : List Window) : List Nat :=
  procs.flatMap (processBlocks dataAt) ++ (windows.flatMap windowBlocks ++ boot)

/- The blocks in use are those of the boot, of the listed processes and of the listed windows, each of
   them once, and kfree was called with blocks in use only. -/
structure HeapOwned (boot : List Nat) (k : Kernel) : Prop where
  exact : (k.store.heap.state.live.map Prod.fst).Perm
    (owned boot k.store.dataAt k.desktop.sched.procs k.desktop.windows.windows)
  once : (k.store.heap.state.live.map Prod.fst).Nodup
  misfreed : k.store.heap.misfreed = []

/-! ### What is given back -/

section Freed
variable {dataAt : Nat → Nat} {heap : KernelHeap}

theorem foldl_kfreeAll {α : Type*} {f : KernelHeap → α → KernelHeap} {g : α → List Nat}
    (h : ∀ heap a, f heap a = kfreeAll (g a) heap) (as : List α) (heap : KernelHeap) :
    as.foldl f heap = kfreeAll (as.flatMap g) heap := by
  induction as generalizing heap with
  | nil => rfl
  | cons a as ih => rw [List.foldl_cons, h, ih, List.flatMap_cons, kfreeAll_append]

theorem freeDescriptor_eq (dataAt : Nat → Nat) (heap : KernelHeap) (fd : FileDescriptor) :
    freeDescriptor dataAt heap fd = kfreeAll (fdBlocks dataAt fd) heap := by
  unfold freeDescriptor fdBlocks
  split <;> rfl

theorem freeProcess_eq (p : Pcb) :
    freeProcess dataAt p heap = kfreeAll (processBlocks dataAt p) heap := by
  rw [freeProcess, foldl_kfreeAll (freeDescriptor_eq dataAt), processBlocks, kfreeAll_append]
  rfl

theorem freeReleased_eq (released : Option Pcb) :
    freeReleased dataAt released heap = kfreeAll (released.toList.flatMap (processBlocks dataAt)) heap := by
  cases released with
  | none => rfl
  | some p => rw [Option.toList_some, List.flatMap_singleton, ← freeProcess_eq]; rfl

theorem freeWindows_eq (removed : List Window) :
    removed.foldl freeWindow heap = kfreeAll (removed.flatMap windowBlocks) heap :=
  foldl_kfreeAll (f := freeWindow) (g := windowBlocks) (fun _ _ => rfl) removed heap

end Freed

/-! ### Processes -/

section Processes
variable {dataAt : Nat → Nat} {s t : Sched} {ev : Lifecycle.Event} {out : Outcome} {cur : Pcb}

theorem processBlocks_congr {p q : Pcb} (ha : q.addr = p.addr) (h : assets q = assets p) :
    processBlocks dataAt q = processBlocks dataAt p := by
  have hfds : q.fds = p.fds := congrArg Assets.fds h
  have hstack : q.kernelStack = p.kernelStack := congrArg Assets.kernelStack h
  unfold processBlocks
  rw [hfds, hstack, ha]

/- Sixteen descriptors, and from 2 on the open ones are files. -/
structure Table (fds : List FileDescriptor) : Prop where
  length : fds.length = maxFds
  files {i : Nat} {fd : FileDescriptor} : 2 ≤ i → fds[i]? = some fd → fd.isOpen = true → fd.type = .file

theorem initialFds_table : Table initialFds where
  length := rfl
  files {i fd} hi hfd hopen := by
    obtain ⟨j, rfl⟩ := Nat.exists_eq_add_of_le hi
    have hclosed : fd = closedFd := by
      rw [initialFds, Nat.add_comm, List.getElem?_cons_succ, List.getElem?_cons_succ] at hfd
      exact List.eq_of_mem_replicate (List.mem_of_getElem? hfd)
    rw [hclosed] at hopen
    cases hopen

structure Conserves (s t : Sched) (released : Option Pcb) : Prop where
  blocks (dataAt : Nat → Nat) : (s.procs.flatMap (processBlocks dataAt)).Perm
    (released.toList.flatMap (processBlocks dataAt) ++ t.procs.flatMap (processBlocks dataAt))
  tables : (∀ p ∈ s.procs, Table p.fds) → ∀ p ∈ t.procs, Table p.fds

theorem Conserves.of_map {F : Pcb → Pcb} (hp : t.procs = s.procs.map F)
    (hF : ∀ p ∈ s.procs, (F p).addr = p.addr ∧ (F p).kernelStack = p.kernelStack ∧ (F p).fds = p.fds) :
    Conserves s t none where
  blocks dataAt := by
    rw [hp, List.flatMap_map]
    refine List.Perm.of_eq (List.flatMap_congr fun p hm => ?_)
    obtain ⟨ha, hk, hf⟩ := hF p hm
    simp only [processBlocks, ha, hk, hf]
  tables h p hm := by
    rw [hp] at hm
    obtain ⟨q, hq, rfl⟩ := List.mem_map.mp hm
    exact (hF q hq).2.2 ▸ h q hq

theorem Conserves.of_procs (hp : t.procs = s.procs) : Conserves s t none :=
  .of_map (hp.trans (List.map_id _).symm) fun _ _ => ⟨rfl, rfl, rfl⟩

theorem Conserves.of_rewritten {released : Option Pcb} {gone : Option Nat} {F : Pcb → Pcb}
    (h : Rewritten s ev t released gone F) (hn : (s.procs.map Pcb.addr).Nodup)
    (ha : ∀ p ∈ s.procs, assets (F p) = assets p) : Conserves s t released where
  blocks dataAt := by
    have hkept : ∀ ps : List Pcb, (∀ p ∈ ps, p ∈ s.procs) →
        (ps.map F).flatMap (processBlocks dataAt) = ps.flatMap (processBlocks dataAt) := by
      intro ps hsub
      rw [List.flatMap_map]
      exact List.flatMap_congr fun p hp => processBlocks_congr (h.addr p (hsub p hp)) (ha p (hsub p hp))
    rw [h.procs, hkept _ fun p hp => (List.mem_filter.mp hp).1]
    rcases h.released with ⟨rfl, rfl⟩ | ⟨p, hp, g, rfl, rfl, hga, hgs⟩
    · rw [List.filter_eq_self.mpr (by simp)]
      exact .refl _
    · rw [Option.toList_some, List.flatMap_singleton, processBlocks_congr hga hgs, ← List.flatMap_cons]
      refine ((filter_key_perm hn hp).trans (List.Perm.of_eq ?_)).flatMap_right _
      congr 1
      exact List.filter_congr fun q _ => by simp [eq_comm]
  tables htab p hm := by
    rw [h.procs] at hm
    obtain ⟨q, hq, rfl⟩ := List.mem_map.mp hm
    have hqm := (List.mem_filter.mp hq).1
    have hfds : (F q).fds = q.fds := congrArg Assets.fds (ha q hqm)
    exact hfds ▸ htab q hqm

/-- A read that is not one of a file leaves the processes to the scheduler or alone. -/
theorem read_conserves (hs : Sane s) (hc : Calls ev .read) (hcur : s.currentProcess = some cur)
    (hfd : fdType ev.regs.ebx cur ≠ some .file) (h : handle s ev = some out) :
    Conserves s out.sched out.released := by
  cases hent : enters s ev with
  | some u =>
    rw [handle_of_enters hcur hent] at h
    obtain ⟨gone, F, hF, ha⟩ := schedule_rewritten hs hent h
    exact Conserves.of_rewritten hF hs.listed.nodup ha
  | none =>
    have hblock : blocksOnStdin ev.regs s cur = false := by
      rw [enters_syscall hcur hc.1] at hent
      simp only [hc.2] at hent
      split at hent
      · cases hent
      · rename_i hb
        exact Bool.eq_false_iff.mpr hb
    rw [handle_syscall hc, syscallHandlerMain, hc.2] at h
    simp only [handleSyscallRead, hcur, Option.bind_eq_bind, Option.bind_some] at h
    split at h
    next hin =>
      have hwait : ¬readBlocks ev.regs s := by simpa [blocksOnStdin, hin] using hblock
      rw [if_neg hwait] at h
      cases h
      exact .of_procs rfl
    next hf => exact absurd hf hfd
    next =>
      cases h
      exact .of_procs rfl

/-- So does any other entry that neither forks nor changes a descriptor. -/
theorem handle_conserves (hs : Sane s) (hcur : s.currentProcess = some cur) (hf : ¬Calls ev .fork)
    (ho : ¬Calls ev .open) (hc : ¬Calls ev .close)
    (hr : Calls ev .read → fdType ev.regs.ebx cur ≠ some .file) (h : handle s ev = some out) :
    Conserves s out.sched out.released := by
  by_cases hread : Calls ev .read
  · exact read_conserves hs hread hcur (hr hread) h
  by_cases hsbrk : Calls ev .sbrk
  · rw [handle_syscall hsbrk, syscallHandlerMain, hsbrk.2] at h
    cases h
    refine .of_map rfl fun p _ => ?_
    unfold onAddr
    split <;> exact ⟨rfl, rfl, rfl⟩
  · obtain ⟨gone, F, hF⟩ := (handle_rewrites hs h).resolve_left fun hfork => hf hfork.1
    exact Conserves.of_rewritten hF hs.listed.nodup (hF.assets fun he => by
      rcases he with he | he | he | he
      · exact ho he
      · exact hc he
      · exact hread he
      · exact hsbrk he)

/-- The blocks of the process that makes the entry, and those of the others. -/
theorem procs_split (hs : Sane s) (hm : cur ∈ s.procs) (ha : cur.addr = s.current)
    (f : Pcb → Pcb) : (s.modify s.current f).procs.Perm
      (f cur :: s.procs.filter fun p => decide (p.addr ≠ cur.addr)) := by
  have hn := hs.listed.nodup
  have hother : (s.procs.filter fun p => decide (p.addr ≠ cur.addr)).map (onAddr s.current f) =
      s.procs.filter fun p => decide (p.addr ≠ cur.addr) :=
    map_of_forall fun p hp => onAddr_of_ne (ha ▸ of_decide_eq_true (List.mem_filter.mp hp).2)
  have hp := (filter_key_perm hn hm).map (onAddr s.current f)
  rwa [List.map_cons, hother, onAddr_of_eq ha] at hp

end Processes

/-! ### Descriptors -/

section Descriptors
variable {v : Volume} {regs : Registers} {u : Caller} {fds : List FileDescriptor} {st st' : Store}
  {a : Answer} {heap : KernelHeap} {frame xs : List Nat} {d d' : Nat → Nat}

theorem fdBlocks_closed {fd : FileDescriptor} (h : fd.isOpen = false) : fdBlocks d fd = [] :=
  if_neg fun ho => Bool.false_ne_true (h.symm.trans ho.1)

theorem fdBlocks_file {fd : FileDescriptor} (h : fd.isOpen = true) (ht : fd.type = .file) :
    fdBlocks d fd = [d fd.data, fd.data] := if_pos ⟨h, ht⟩

theorem fdBlocks_dataAt (h : ∀ p ∈ fds.flatMap (fdBlocks d), d' p = d p) :
    fds.flatMap (fdBlocks d') = fds.flatMap (fdBlocks d) := by
  refine List.flatMap_congr fun fd hfd => ?_
  unfold fdBlocks
  split
  · rename_i ho
    have hm : fd.data ∈ fdBlocks d fd := by
      rw [fdBlocks_file ho.1 ho.2]
      exact List.mem_cons_of_mem _ List.mem_cons_self
    rw [h fd.data (List.mem_flatMap.mpr ⟨fd, hfd, hm⟩)]
  · rfl

theorem processBlocks_dataAt {p : Pcb} (h : ∀ q ∈ processBlocks d p, d' q = d q) :
    processBlocks d' p = processBlocks d p := by
  unfold processBlocks
  rw [fdBlocks_dataAt fun q hq => h q (List.mem_append_left _ hq)]

theorem Table.set (h : Table fds) {i : Nat} {fd : FileDescriptor}
    (hfd : 2 ≤ i → fd.isOpen = true → fd.type = .file) : Table (fds.set i fd) where
  length := List.length_set.trans h.length
  files {j e} hj he ho := by
    rw [List.getElem?_set] at he
    split at he
    · rename_i hij
      split at he
      · cases he
        exact hfd (hij ▸ hj) ho
      · cases he
    · exact h.files hj he ho

/- A handler that keeps the blocks of the caller's descriptors in order. The frame is what belongs to
   others; it needs no block that the handler writes to. -/
structure Settles (fds : List FileDescriptor) (st : Store) (a : Answer) : Prop where
  table : Table a.fds
  owns {frame : List Nat} : Owns st.heap (fds.flatMap (fdBlocks st.dataAt) ++ frame) →
    Owns a.store.heap (a.fds.flatMap (fdBlocks a.store.dataAt) ++ frame) ∧
      ∀ p ∈ frame, a.store.dataAt p = st.dataAt p

theorem withSector_refused (hr : (withSector heap).refused = []) : heap.refused = [] :=
  (kmalloc_refused hr).1

theorem withSector_owns (ho : Owns heap xs) (hr : (withSector heap).refused = []) :
    Owns (withSector heap) xs := ho.scratch (by decide) hr

/-- fat16_find_file keeps the block of the entry it returns and no other. -/
theorem findFile_owns {found : Option (Nat × Fat16Entry) × KernelHeap}
    (h : findFile v u st = some found) (ho : Owns st.heap xs) (hr : found.2.refused = []) :
    Owns found.2 ((found.1.map Prod.fst).toList ++ xs) := by
  unfold findFile at h
  split at h
  · cases h
    exact ho.kmalloc (by decide) hr
  · obtain ⟨e, -, rfl⟩ := Option.map_eq_some_iff.mp h
    have hsector : (st.heap.kmalloc sectorSize).2.refused = [] := by
      cases e with
      | none => exact (kmalloc_refused hr).1
      | some e => exact (kmalloc_refused hr).1
    have htwo := (ho.kmalloc (by decide) hsector).kmalloc (n := entrySize) (by decide) (by
      cases e with
      | none => exact hr
      | some e => exact hr)
    have hone := (htwo.perm (.swap _ _ _)).kfree
    cases e with
    | none => exact hone.kfree
    | some e => exact hone

theorem closedSlot_getElem? (h : Table fds) {i : Nat} (hc : closedSlot fds = some i) :
    ∃ fd, fds[i]? = some fd ∧ fd.isOpen = false := by
  have hlt : i < fds.length := h.length ▸ (closedSlot_spec hc).2
  have hclosed := List.find?_some hc
  rw [List.getD_eq_getElem?_getD, List.getElem?_eq_getElem hlt, Option.getD_some] at hclosed
  exact ⟨_, List.getElem?_eq_getElem hlt, by simpa using hclosed⟩

theorem openStore_refused {entry : Nat × Fat16Entry} {f : Fat16Fd}
    (hr : (openStore v entry fds f heap st).store.heap.refused = []) : heap.refused = [] := by
  have hread : (if isFolder entry.2 = true then
      withSector ((heap.kmalloc sizeofFat16Fd).2.kmalloc (bufferSize v entry.2)).2
      else ((heap.kmalloc sizeofFat16Fd).2.kmalloc (bufferSize v entry.2)).2).refused = [] := by
    unfold openStore at hr
    dsimp only at hr
    split at hr <;> exact hr
  have hdata : ((heap.kmalloc sizeofFat16Fd).2.kmalloc (bufferSize v entry.2)).2.refused = [] := by
    split at hread
    · exact withSector_refused hread
    · exact hread
  exact (kmalloc_refused (kmalloc_refused hdata).1).1

/-- The two blocks that open asks for go to the descriptor, or back. -/
theorem openStore_owns {entry : Nat × Fat16Entry} {f : Fat16Fd} (hv : bufferSize v entry.2 ≠ 0)
    (htab : Table fds) (hr : (openStore v entry fds f heap st).store.heap.refused = [])
    (ho : Owns heap (entry.1 :: (fds.flatMap (fdBlocks st.dataAt) ++ frame))) :
    Owns (openStore v entry fds f heap st).store.heap
        ((openStore v entry fds f heap st).fds.flatMap
          (fdBlocks (openStore v entry fds f heap st).store.dataAt) ++ frame) ∧
      ∀ p ∈ frame, (openStore v entry fds f heap st).store.dataAt p = st.dataAt p := by
  unfold openStore at hr ⊢
  dsimp only at hr ⊢
  generalize hfat : heap.kmalloc sizeofFat16Fd = fatFd at hr ⊢
  generalize hdata : fatFd.2.kmalloc (bufferSize v entry.2) = data at hr ⊢
  have hread : (if isFolder entry.2 = true then withSector data.2 else data.2).refused = [] := by
    cases hc : closedSlot fds with
    | none =>
      rw [hc] at hr
      exact hr
    | some i =>
      rw [hc] at hr
      exact hr
  generalize hheap : (if isFolder entry.2 = true then withSector data.2 else data.2) = heap' at hr hread ⊢
  have hdr : data.2.refused = [] := by
    rw [← hheap] at hread
    split at hread
    · exact withSector_refused hread
    · exact hread
  have hfatFd : Owns fatFd.2 (fatFd.1 :: entry.1 :: (fds.flatMap (fdBlocks st.dataAt) ++ frame)) := by
    rw [← hdata] at hdr
    have hfr := (kmalloc_refused hdr).1
    rw [← hfat] at hfr ⊢
    exact ho.kmalloc (by decide) hfr
  have hboth : Owns heap' (data.1 :: fatFd.1 :: entry.1 :: (fds.flatMap (fdBlocks st.dataAt) ++ frame)) := by
    have hnew := hfatFd.kmalloc hv (by rw [hdata]; exact hdr)
    rw [hdata] at hnew
    rw [← hheap] at hread ⊢
    split at hread
    · rw [if_pos ‹_›]
      exact withSector_owns hnew hread
    · rw [if_neg ‹_›]
      exact hnew
  have hfresh : ∀ p ∈ fds.flatMap (fdBlocks st.dataAt) ++ frame, p ≠ fatFd.1 := fun p hp he =>
    hfatFd.fresh (he ▸ List.mem_cons_of_mem _ hp)
  have hsame : ∀ p ∈ fds.flatMap (fdBlocks st.dataAt) ++ frame,
      (if p = fatFd.1 then data.1 else st.dataAt p) = st.dataAt p := fun p hp => if_neg (hfresh p hp)
  have hfds : fds.flatMap (fdBlocks fun p => if p = fatFd.1 then data.1 else st.dataAt p) =
      fds.flatMap (fdBlocks st.dataAt) :=
    fdBlocks_dataAt fun p hp => hsame p (List.mem_append_left frame hp)
  cases hc : closedSlot fds with
  | none =>
    refine ⟨?_, fun p hp => hsame p (List.mem_append_right _ hp)⟩
    rw [hfds]
    exact hboth.kfree.kfree.kfree
  | some i =>
    refine ⟨?_, fun p hp => hsame p (List.mem_append_right _ hp)⟩
    obtain ⟨fd, hfd, hclosed⟩ := closedSlot_getElem? htab hc
    have hset := flatMap_set_perm (fdBlocks fun p => if p = fatFd.1 then data.1 else st.dataAt p) hfd
      ⟨.file, fatFd.1, 0, true⟩
    rw [fdBlocks_closed hclosed, fdBlocks_file rfl rfl, if_pos rfl, hfds, List.nil_append] at hset
    have hentry : Owns (heap'.kfree entry.1)
        ([data.1, fatFd.1] ++ (fds.flatMap (fdBlocks st.dataAt) ++ frame)) :=
      (hboth.perm (((List.Perm.swap _ _ _).cons _).trans (.swap _ _ _))).kfree
    refine hentry.perm ?_
    rw [← List.append_assoc]
    exact hset.append_right frame

theorem findFile_found {entry : Nat × Fat16Entry} {heap : KernelHeap}
    (h : findFile v u st = some (some entry, heap)) :
    fat16FindFile v st.disk u.garbage u.name = some (some entry.2) := by
  unfold findFile at h
  split at h
  · rename_i hroot
    cases h
    exact if_pos hroot
  · obtain ⟨e, he, hfound⟩ := Option.map_eq_some_iff.mp h
    cases e with
    | none => cases hfound
    | some e =>
      cases hfound
      exact he

theorem openStore_table {entry : Nat × Fat16Entry} {f : Fat16Fd} (h : Table fds) :
    Table (openStore v entry fds f heap st).fds := by
  unfold openStore
  dsimp only
  split
  · exact h.set fun _ _ => rfl
  · exact h

theorem settles_same (h : Table fds) : Settles fds st ⟨minusOne, fds, st⟩ :=
  ⟨h, fun ho => ⟨ho, fun _ _ => rfl⟩⟩

theorem open_settles (h : Table fds) (hopen : handleSyscallOpen v regs u fds st = some a)
    (hask : ∀ e, fat16FindFile v st.disk u.garbage u.name = some (some e) → bufferSize v e ≠ 0)
    (hr : a.store.heap.refused = []) : Settles fds st a := by
  unfold handleSyscallOpen at hopen
  split at hopen
  · cases hopen
    exact settles_same h
  · obtain ⟨⟨found, heap⟩, hfind, hrest⟩ := Option.bind_eq_some_iff.mp hopen
    cases found with
    | none =>
      cases hrest
      exact ⟨h, fun ho => ⟨findFile_owns hfind ho hr, fun _ _ => rfl⟩⟩
    | some entry =>
      obtain ⟨f, -, rfl⟩ := Option.map_eq_some_iff.mp hrest
      have hsize := hask entry.2 (findFile_found hfind)
      have hheap : heap.refused = [] := openStore_refused hr
      exact ⟨openStore_table h, fun ho => openStore_owns hsize h hr (findFile_owns hfind ho hheap)⟩

theorem getFd_eq {i : Nat} {fd : FileDescriptor} (h : getFd i fds = some fd) : fds[i]? = some fd := by
  unfold getFd at h
  split at h
  · exact h
  · cases h

/-- An open descriptor from 2 on gives back its two blocks. -/
theorem close_settles (h : Table fds)
    (hfile : ∀ fd, getFd regs.ebx fds = some fd → fd.isOpen = true → 2 ≤ regs.ebx) :
    Settles fds st (handleSyscallClose regs fds st) := by
  unfold handleSyscallClose
  cases hg : getFd regs.ebx fds with
  | none => exact settles_same h
  | some fd =>
    by_cases ho : fd.isOpen = true
    · dsimp only
      rw [if_pos ho]
      refine ⟨h.set fun _ hopen => absurd hopen Bool.false_ne_true, fun howns => ⟨?_, fun _ _ => rfl⟩⟩
      have htype := h.files (hfile fd hg ho) (getFd_eq hg) ho
      have hset := flatMap_set_perm (fdBlocks st.dataAt) (getFd_eq hg)
        { fd with data := 0, isOpen := false }
      rw [fdBlocks_closed rfl, fdBlocks_file ho htype, List.nil_append] at hset
      have hsplit := howns.perm (hset.append_right _)
      rw [List.append_assoc] at hsplit
      exact hsplit.kfree.kfree
    · dsimp only
      rw [if_neg ho]
      exact settles_same h

theorem readFd_fds {i len : Nat} {s : FileState} {r : ReadResult} (h : readFd i len s = some r) :
    ∃ o, r.state.fds = s.fds ∨ r.state.fds = s.fds.set i { s.fds.getD i closedFd with offset := o } := by
  unfold readFd at h
  dsimp only at h
  split at h
  · cases h
    exact ⟨0, .inl rfl⟩
  split at h
  · cases h
    exact ⟨0, .inl rfl⟩
  split at h
  · cases h
    exact ⟨_, .inr rfl⟩
  · cases h

theorem fileState_some {s : FileState} (h : fileState fds st = some s) :
    s.fds = fds ∧ s.disk = st.disk ∧ s.files = st.files := by
  unfold fileState at h
  split at h
  · cases h
    exact ⟨rfl, rfl, rfl⟩
  · cases h

theorem readFile_settles (h : Table fds) (hread : readFile regs fds st = some a) : Settles fds st a := by
  obtain ⟨s, hs, hrest⟩ := Option.bind_eq_some_iff.mp hread
  obtain ⟨r, hr, rfl⟩ := Option.map_eq_some_iff.mp hrest
  obtain ⟨hfds, -, -⟩ := fileState_some hs
  obtain ⟨o, hsame | hset⟩ := readFd_fds hr
  · rw [hsame, hfds]
    exact ⟨h, fun ho => ⟨ho, fun _ _ => rfl⟩⟩
  · rw [hset, hfds]
    cases hfd : fds[regs.ebx]? with
    | none =>
      rw [List.set_eq_of_length_le (List.getElem?_eq_none_iff.mp hfd)]
      exact ⟨h, fun ho => ⟨ho, fun _ _ => rfl⟩⟩
    | some fd =>
      rw [List.getD_eq_getElem?_getD, hfd, Option.getD_some]
      refine ⟨h.set fun hi ho => @Table.files fds h regs.ebx fd hi hfd ho, fun ho => ⟨?_, fun _ _ => rfl⟩⟩
      have hswap := flatMap_set_perm (fdBlocks st.dataAt) hfd { fd with offset := o }
      have hmoved : fdBlocks st.dataAt { fd with offset := o } = fdBlocks st.dataAt fd := rfl
      rw [hmoved] at hswap
      exact ho.perm (((List.perm_append_left_iff _).mp hswap).append_right _)

/-! ### The calls that keep no block -/

structure Passes (st st' : Store) : Prop where
  owns {xs : List Nat} : Owns st.heap xs → Owns st'.heap xs
  dataAt : st'.dataAt = st.dataAt

theorem writeFile_passes (hwrite : writeFile v regs u fds st = some a)
    (hr : a.store.heap.refused = []) : Passes st a.store := by
  obtain ⟨s, -, hrest⟩ := Option.bind_eq_some_iff.mp hwrite
  obtain ⟨r, -, rfl⟩ := Option.map_eq_some_iff.mp hrest
  dsimp only at hr
  refine ⟨fun ho => ?_, rfl⟩
  dsimp only
  split at hr
  · rw [if_pos ‹_›]
    exact withSector_owns ho hr
  · rw [if_neg ‹_›]
    exact ho

theorem create_passes (hcreate : handleSyscallCreate v regs u fds st = some a)
    (hr : a.store.heap.refused = []) : Passes st a.store := by
  obtain ⟨r, -, rfl⟩ := Option.map_eq_some_iff.mp hcreate
  dsimp only at hr ⊢
  split at hr
  · rw [if_pos ‹_›]
    have htwo := withSector_refused hr
    have hone := withSector_refused htwo
    exact ⟨fun ho => withSector_owns (withSector_owns (withSector_owns ho hone) htwo) hr, rfl⟩
  · rw [if_neg ‹_›]
    exact ⟨fun ho => withSector_owns ho hr, rfl⟩

/-- A file that does not fit the buffer exec asked for has no result, so there is a buffer. -/
theorem exec_passes {r : Bool × Store} (hexec : handleSyscallExec v regs u st = some r)
    (hr : r.2.heap.refused = []) : Passes st r.2 := by
  unfold handleSyscallExec at hexec
  split at hexec
  · cases hexec
  obtain ⟨⟨found, heap⟩, hfind, hrest⟩ := Option.bind_eq_some_iff.mp hexec
  cases found with
  | none =>
    cases hrest
    exact ⟨fun ho => findFile_owns hfind ho hr, rfl⟩
  | some entry =>
    obtain ⟨bytes, hbytes, hfits⟩ := Option.bind_eq_some_iff.mp hrest
    split at hfits
    · cases hfits
    · rename_i hroom
      cases hfits
      obtain ⟨hcluster, hlen⟩ := not_or.mp hroom
      have hsize : execSize v entry.2 ≠ 0 := by
        obtain ⟨rest, -, rfl⟩ := Option.map_eq_some_iff.mp hbytes
        rw [List.length_append, readCluster_length] at hlen
        omega
      have hentry : heap.refused = [] := (kmalloc_refused hr).1
      refine ⟨fun ho => ?_, rfl⟩
      have hdata := (findFile_owns hfind ho hentry).kmalloc hsize hr
      exact (hdata.perm (.swap _ _ _)).kfree.kfree

end Descriptors

/-! ### Windows -/

section Windows
variable {ws ws' : WindowManager} {m m' : Mouse} {s : Sched} {ev : Lifecycle.Event} {g : Graphics}

theorem windowBlocks_tags {as bs : List Window} (h : as.map Window.tag = bs.map Window.tag) :
    as.flatMap windowBlocks = bs.flatMap windowBlocks := by
  have htag : ∀ cs : List Window, cs.flatMap windowBlocks =
      (cs.map Window.tag).flatMap fun t => [t.pixelBuffer, t.addr] := fun cs => by
    rw [List.flatMap_map]
    rfl
  rw [htag, htag, h]

def WindowsConserved (ws : WindowManager) (removed : List Window) (ws' : WindowManager) : Prop :=
  (ws.windows.flatMap windowBlocks).Perm (removed.flatMap windowBlocks ++ ws'.windows.flatMap windowBlocks)

theorem windowsConserved_tags (h : tags ws' = tags ws) : WindowsConserved ws [] ws' :=
  List.Perm.of_eq (windowBlocks_tags h).symm

theorem removeWindow_conserves (id : Nat) (ws : WindowManager) :
    WindowsConserved ws (getWindow id ws).toList (removeWindow id ws) := by
  unfold removeWindow
  cases hw : getWindow id ws with
  | none => exact .refl _
  | some w =>
    have hlow := windowBlocks_tags (map_lowerAbove (lowerAbove_tag w.zIndex) (ws.windows.eraseP (hasId id)))
    unfold WindowsConserved
    dsimp only
    rw [hlow, ← List.flatMap_append]
    exact (eraseP_perm hw).flatMap_right _

theorem WindowsConserved.trans {vs : WindowManager} {xs ys : List Window}
    (h : WindowsConserved ws xs vs) (h' : WindowsConserved vs ys ws') :
    WindowsConserved ws (xs ++ ys) ws' := by
  have htwo := List.Perm.trans h (List.Perm.append_left _ h')
  rwa [← List.append_assoc, ← List.flatMap_append] at htwo

theorem removeWindowProcess_conserves (pid : Nat) (ws : WindowManager) :
    WindowsConserved ws (removedOfProcess pid ws.windows ws) (removeWindowProcess pid ws) := by
  unfold removeWindowProcess
  generalize ws.windows = listed
  induction listed generalizing ws with
  | nil => exact .refl _
  | cons w rest ih =>
    rw [List.foldl_cons, removedOfProcess]
    split
    · exact (removeWindow_conserves w.windowId ws).trans (ih _)
    · exact ih ws

theorem updateWindowClick_conserves (m : Mouse) (ws : WindowManager) :
    WindowsConserved ws (removedByClick m ws) (updateWindowClick m ws) := by
  unfold removedByClick updateWindowClick
  cases clickTarget m.prevMouseX m.prevMouseY ws.windows with
  | none => exact .refl _
  | some clicked =>
    dsimp only
    have hfocus := windowsConserved_tags (focusClicked_tags clicked ws)
    split
    · exact hfocus.trans (removeWindow_conserves clicked.windowId _)
    · refine windowsConserved_tags ?_
      rw [updateFocusedWindow_tags, tags_congr (startDrag_standing _ _ _), focusClicked_tags]

theorem keyboardWindows_conserves {scancode : Nat} {focused : Bool} (he : ev.entry = .keyboard scancode focused) :
    WindowsConserved ws (removedWindows ev m s ws) (keyboardWindows scancode focused s ws) := by
  unfold removedWindows
  rw [he]
  dsimp only
  split
  · rename_i hint
    obtain ⟨hmod, hctrl, h0, hlisted⟩ := hint
    unfold keyboardWindows
    rw [if_neg (by rw [Option.isNone_iff_eq_none.mp hmod]; decide), if_pos hctrl, sigintWindows,
      if_pos ⟨h0, hlisted⟩]
    exact removeWindowProcess_conserves _ ws
  · rename_i hno
    refine windowsConserved_tags ?_
    unfold keyboardWindows
    split
    · rfl
    split
    · rename_i hmod hctrl
      unfold sigintWindows
      rw [if_neg fun hint => hno ⟨Option.isNone_iff_eq_none.mpr (by simpa using hmod), hctrl, hint⟩]
    split
    · exact (sendChar_queues ..).tags_eq
    split
    · rfl
    split
    · rfl
    · exact (inputWindows_queues ..).tags_eq

theorem entryWindows_conserves (hc : ¬Calls ev .createWindow)
    (h : entryWindows ev g m s ws = some (ws', m')) :
    WindowsConserved ws (removedWindows ev m s ws) ws' := by
  unfold entryWindows at h
  cases he : ev.entry with
  | timer =>
    simp only [he, Option.some.injEq] at h
    obtain rfl : (updateWindow m ws).1 = ws' := by rw [h]
    unfold removedWindows
    rw [he, updateWindow_windows]
    have hbefore := windowsConserved_tags (beforeClick_tags m ws)
    dsimp only
    split
    · exact hbefore.trans (updateWindowClick_conserves _ _)
    · exact hbefore
  | keyboard scancode focused =>
    simp only [he, Option.some.injEq, Prod.mk.injEq] at h
    exact h.1 ▸ keyboardWindows_conserves he
  | syscall =>
    simp only [he] at h
    obtain ⟨u, hu, hw⟩ := Option.map_eq_some_iff.mp h
    cases hw
    unfold removedWindows
    rw [he]
    unfold syscallWindows at hu
    split at hu
    · rename_i hn
      exact absurd ⟨he, hn⟩ hc
    · rename_i hn
      cases hu
      simp only [hn, Option.some.injEq, reduceCtorEq, if_false]
      exact windowsConserved_tags (getEvent_queues _ ws).tags_eq
    · rename_i hn
      cases hu
      simp only [hn, if_true]
      exact removeWindow_conserves _ ws
    · rename_i hnot
      cases hu
      simp only [if_neg hnot]
      exact windowsConserved_tags rfl

end Windows

end AdamOS.HeapUse
