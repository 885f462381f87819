import AdamOS.Kernel.HeapOwners

/-! The balance of the kernel heap over whole runs: what is in use at any time are the blocks of the
boot, of the processes, of their open files and of the windows. -/
namespace AdamOS.HeapUse
open AdamOS.Desktop AdamOS.Drawing AdamOS.Fat16 AdamOS.Files AdamOS.Kmalloc AdamOS.Kmalloc.KernelHeap
open AdamOS.Lifecycle AdamOS.ListUpdate AdamOS.Paging AdamOS.Process AdamOS.Scheduler AdamOS.TextTerminal
open AdamOS.Transition AdamOS.Windows AdamOS.Word

/- The calls of an entry, apart from those that draw: it closes no open descriptor 0 or 1, opens no file
   into a buffer of 0 bytes and makes no window with a pixel buffer of 0 bytes. -/
@[mk_iff] structure CallFits (v : Volume) (k : Kernel) (ev : Lifecycle.Event) (u : Caller) : Prop where
  drawing : ∀ sc ∈ [Syscall.drawRect, .drawLine, .drawText], ¬Calls ev sc
  close : Calls ev .close → ∀ cur ∈ k.desktop.sched.currentProcess, ∀ fd ∈ getFd ev.regs.ebx cur.fds,
    fd.isOpen = true → 2 ≤ ev.regs.ebx
  «open» : Calls ev .open → ∀ found ∈ fat16FindFile v k.store.disk u.garbage u.name, ∀ e ∈ found,
    bufferSize v e ≠ 0
  window : Calls ev .createWindow → bufSize u.request.width.toNat u.request.height.toNat ≠ 0

instance (v : Volume) (k : Kernel) (ev : Lifecycle.Event) (u : Caller) : Decidable (CallFits v k ev u) :=
  decidable_of_iff _ (callFits_iff v k ev u).symm

def Fits (v : Volume) (k : Kernel) : Input → Prop
  | .mouse _ => True
  | .entry ev u => CallFits v k ev u

instance (v : Volume) (k : Kernel) : (i : Input) → Decidable (Fits v k i)
  | .mouse _ => .isTrue trivial
  | .entry ev u => inferInstanceAs (Decidable (CallFits v k ev u))

def Served (v : Volume) (k : Kernel) (i : Input) : Prop :=
  ∀ k' ∈ kernelStep v k i, k'.store.heap.refused = []

instance (v : Volume) (k : Kernel) (i : Input) : Decidable (Served v k i) :=
  inferInstanceAs (Decidable (∀ k' ∈ kernelStep v k i, _))

structure Balanced (boot : List Nat) (k : Kernel) : Prop where
  sane : Sane k.desktop.sched
  tables : ∀ p ∈ k.desktop.sched.procs, Table p.fds
  owns : Owns k.store.heap
    (owned boot k.store.dataAt k.desktop.sched.procs k.desktop.windows.windows)

theorem Balanced.heapOwned {boot : List Nat} {k : Kernel} (h : Balanced boot k) : HeapOwned boot k :=
  ⟨h.owns.exact, h.owns.inv.nodup, h.owns.misfreed⟩

section Entries
variable {v : Volume} {boot xs : List Nat} {k k' : Kernel} {ev : Lifecycle.Event} {u : Caller}
  {s : Sched} {cur : Pcb} {st : Store} {a : Answer} {d : Nat → Nat} {ws ws' : WindowManager}
  {heap : KernelHeap} {out : Outcome}

structure Parts (v : Volume) (ev : Lifecycle.Event) (u : Caller) (k k' : Kernel) (cur : Pcb)
    (c : Contribution) (out : Outcome) : Prop where
  current : k.desktop.sched.currentProcess = some cur
  contribution : contribution v cur ev u k.store = some c
  handled : handle k.desktop.sched (seen k.desktop { ev with env := c.env }) = some out
  sched : k'.desktop.sched = out.sched
  windows : ∃ m, entryWindows (seen k.desktop { ev with env := c.env }) c.graphics k.desktop.mouse
    k.desktop.sched k.desktop.windows = some (k'.desktop.windows, m)
  dataAt : k'.store.dataAt = c.store.dataAt
  heap : k'.store.heap =
    (removedWindows (seen k.desktop { ev with env := c.env }) k.desktop.mouse k.desktop.sched
      k.desktop.windows).foldl freeWindow (freeReleased c.store.dataAt out.released c.store.heap)

theorem kernelEntry_parts (h : kernelEntry v ev u k = some k') : ∃ cur c out, Parts v ev u k k' cur c out := by
  obtain ⟨cur, hcur, h⟩ := Option.bind_eq_some_iff.mp h
  obtain ⟨c, hc, h⟩ := Option.bind_eq_some_iff.mp h
  obtain ⟨out, hout, h⟩ := Option.bind_eq_some_iff.mp h
  obtain ⟨w, hw, h⟩ := Option.bind_eq_some_iff.mp h
  obtain ⟨t, -, h⟩ := Option.bind_eq_some_iff.mp h
  cases h
  exact ⟨cur, c, out, hcur, hc, hout, rfl, ⟨w.2, hw⟩, rfl, rfl⟩

theorem freed_refused {released : Option Pcb} {removed : List Window} :
    (removed.foldl freeWindow (freeReleased d released heap)).refused = heap.refused := by
  rw [freeWindows_eq, freeReleased_eq, kfreeAll_refused, kfreeAll_refused]

/-- The end of an entry gives back what belongs to the process and the windows that go. -/
theorem freed_owns {released : Option Pcb} {removed : List Window} {procs : List Pcb}
    {windows : List Window} (ho : Owns heap xs)
    (hx : xs.Perm (released.toList.flatMap (processBlocks d) ++
      (removed.flatMap windowBlocks ++ owned boot d procs windows))) :
    Owns (removed.foldl freeWindow (freeReleased d released heap)) (owned boot d procs windows) := by
  rw [freeWindows_eq, freeReleased_eq]
  exact (ho.perm hx).kfreeAll.kfreeAll

theorem conserved_perm {t : Sched} {released : Option Pcb} {removed : List Window}
    (hp : Conserves s t released) (hw : WindowsConserved ws removed ws') :
    (owned boot d s.procs ws.windows).Perm (released.toList.flatMap (processBlocks d) ++
      (removed.flatMap windowBlocks ++ owned boot d t.procs ws'.windows)) := by
  refine List.perm_iff_count.mpr fun b => ?_
  have hprocs := List.perm_iff_count.mp (hp.blocks d) b
  have hwindows := List.perm_iff_count.mp hw b
  simp only [owned, List.count_append] at *
  omega

/-! ### Calls that change the caller's descriptors -/

theorem settles_owns (ws : WindowManager) (hs : Sane s) (hm : cur ∈ s.procs) (ha : cur.addr = s.current)
    (hset : Settles cur.fds st a) (ho : Owns st.heap (owned boot st.dataAt s.procs ws.windows)) :
    Owns a.store.heap (owned boot a.store.dataAt
      (s.modify s.current fun p => { p with fds := a.fds }).procs ws.windows) := by
  let others := s.procs.filter fun p => decide (p.addr ≠ cur.addr)
  let frame := [sub32 cur.kernelStack pageSize, cur.addr] ++
    (others.flatMap (processBlocks st.dataAt) ++ (ws.windows.flatMap windowBlocks ++ boot))
  have hbefore : (owned boot st.dataAt s.procs ws.windows).Perm
      (cur.fds.flatMap (fdBlocks st.dataAt) ++ frame) := by
    have hp := ((filter_key_perm hs.listed.nodup hm).flatMap_right (processBlocks st.dataAt)).append_right
      (ws.windows.flatMap windowBlocks ++ boot)
    rw [List.flatMap_cons, processBlocks, List.append_assoc, List.append_assoc] at hp
    exact hp
  obtain ⟨hafter, hsame⟩ := hset.owns (ho.perm hbefore)
  have hothers : others.flatMap (processBlocks a.store.dataAt) = others.flatMap (processBlocks st.dataAt) :=
    List.flatMap_congr fun p hp => processBlocks_dataAt fun q hq => hsame q
      (List.mem_append_right _ (List.mem_append_left _ (List.mem_flatMap.mpr ⟨p, hp, hq⟩)))
  refine hafter.perm (List.Perm.symm ?_)
  have hp := ((procs_split hs hm ha fun p => { p with fds := a.fds }).flatMap_right
    (processBlocks a.store.dataAt)).append_right (ws.windows.flatMap windowBlocks ++ boot)
  rw [List.flatMap_cons, hothers, processBlocks, List.append_assoc, List.append_assoc] at hp
  exact hp

theorem settles_tables (hset : Settles cur.fds st a) (h : ∀ p ∈ s.procs, Table p.fds) :
    ∀ p ∈ (s.modify s.current fun p => { p with fds := a.fds }).procs, Table p.fds := by
  intro p hp
  obtain ⟨q, hq, rfl⟩ := List.mem_map.mp hp
  unfold onAddr
  split
  · exact hset.table
  · exact h q hq

/-- open, close and a read of a file leave the caller the descriptors of the handler. -/
theorem handle_fds (hcur : s.currentProcess = some cur) (hcall : Calls ev .open ∨ Calls ev .close ∨
      Calls ev .read ∧ fdType ev.regs.ebx cur = some .file) (h : handle s ev = some out) :
    out.released = none ∧ out.sched = s.modify s.current fun p => { p with fds := ev.env.fds } := by
  rcases hcall with hc | hc | ⟨hc, hfile⟩
  · rw [handle_syscall hc, syscallHandlerMain, hc.2] at h
    cases h
    exact ⟨rfl, rfl⟩
  · rw [handle_syscall hc, syscallHandlerMain, hc.2] at h
    cases h
    exact ⟨rfl, rfl⟩
  · rw [handle_syscall hc, syscallHandlerMain, hc.2] at h
    simp only [handleSyscallRead, hcur, hfile, Option.bind_eq_bind, Option.bind_some] at h
    cases h
    exact ⟨rfl, rfl⟩

theorem removedWindows_call {sc : Syscall} {m : Mouse} (hc : Calls ev sc) (hd : sc ≠ .destroyWindow) :
    removedWindows ev m s ws = [] := by
  unfold removedWindows
  rw [hc.1]
  dsimp only
  rw [hc.2, if_neg fun h => hd (Option.some.inj h)]

/-- What open, close and the read of a file contribute. -/
theorem contribution_settles {c : Contribution} (hf : CallFits v k ev u)
    (hcur : k.desktop.sched.currentProcess = some cur) (ht : Table cur.fds)
    (hcall : Calls ev .open ∨ Calls ev .close ∨ Calls ev .read ∧ fdType ev.regs.ebx cur = some .file)
    (hc : contribution v cur ev u k.store = some c) (hr : c.store.heap.refused = []) :
    ∃ a, Settles cur.fds k.store a ∧ a.store = c.store ∧ a.fds = c.env.fds := by
  unfold contribution at hc
  rcases hcall with ho | ho | ⟨ho, hfile⟩
  · rw [called_iff.mpr ho] at hc
    obtain ⟨a, ha, rfl⟩ := Option.map_eq_some_iff.mp hc
    exact ⟨a, open_settles ht ha (fun e he => hf.open ho _ he e rfl) hr, rfl, rfl⟩
  · rw [called_iff.mpr ho] at hc
    cases hc
    exact ⟨_, close_settles ht (fun fd hfd => hf.close ho cur hcur fd hfd), rfl, rfl⟩
  · rw [called_iff.mpr ho] at hc
    simp only [if_pos hfile] at hc
    obtain ⟨a, ha, rfl⟩ := Option.map_eq_some_iff.mp hc
    exact ⟨a, readFile_settles ht ha, rfl, rfl⟩

theorem passes_refl : Passes st st := ⟨fun ho => ho, rfl⟩

/-- Every other call but fork and create_window contributes no block. -/
theorem contribution_passes {c : Contribution} (hfork : ¬Calls ev .fork) (hwin : ¬Calls ev .createWindow)
    (hcall : ¬(Calls ev .open ∨ Calls ev .close ∨ Calls ev .read ∧ fdType ev.regs.ebx cur = some .file))
    (hc : contribution v cur ev u st = some c) (hr : c.store.heap.refused = []) : Passes st c.store := by
  obtain ⟨hopen, hrest⟩ := not_or.mp hcall
  obtain ⟨hclose, hread⟩ := not_or.mp hrest
  unfold contribution at hc
  cases hcd : called ev with
  | none =>
    rw [hcd] at hc
    cases hc
    exact passes_refl
  | some sc =>
    have hsc := called_iff.mp hcd
    rw [hcd] at hc
    cases sc with
    | fork => exact absurd hsc hfork
    | createWindow => exact absurd hsc hwin
    | «open» => exact absurd hsc hopen
    | close => exact absurd hsc hclose
    | read =>
      simp only [if_neg fun hfile => hread ⟨hsc, hfile⟩, Option.some.injEq] at hc
      exact hc ▸ passes_refl
    | write =>
      dsimp only at hc
      split at hc
      · obtain ⟨a, ha, rfl⟩ := Option.map_eq_some_iff.mp hc
        exact writeFile_passes ha hr
      · cases hc
        exact passes_refl
    | create =>
      obtain ⟨a, ha, rfl⟩ := Option.map_eq_some_iff.mp hc
      exact create_passes ha hr
    | exec =>
      obtain ⟨r, hexec, rfl⟩ := Option.map_eq_some_iff.mp hc
      exact exec_passes hexec hr
    | _ =>
      cases hc
      exact passes_refl

/-! ### Steps -/

section Step
variable {c : Contribution} {out : Outcome}

theorem seen_env {d : System} {e : Env} {sc : Syscall} :
    Calls (seen d { ev with env := e }) sc ↔ Calls ev sc := seen_calls

theorem Parts.refused (hp : Parts v ev u k k' cur c out) (hr : k'.store.heap.refused = []) :
    c.store.heap.refused = [] := by
  rwa [hp.heap, freed_refused] at hr

theorem Parts.sane (hp : Parts v ev u k k' cur c out) (h : Sane k.desktop.sched) :
    Sane k'.desktop.sched := by
  have hstep : Lifecycle.step k.desktop.sched (seen k.desktop { ev with env := c.env }) =
      some k'.desktop.sched := by
    rw [Lifecycle.step, hp.handled, hp.sched]
    rfl
  exact step_sane h hstep

/-- The balance after an entry, from the blocks in use before anything is given back. -/
theorem Parts.owns (xs : List Nat) (hp : Parts v ev u k k' cur c out) (ho : Owns c.store.heap xs)
    (hx : xs.Perm (out.released.toList.flatMap (processBlocks c.store.dataAt) ++
      ((removedWindows (seen k.desktop { ev with env := c.env }) k.desktop.mouse k.desktop.sched
          k.desktop.windows).flatMap windowBlocks ++
        owned boot c.store.dataAt k'.desktop.sched.procs k'.desktop.windows.windows))) :
    Owns k'.store.heap
      (owned boot k'.store.dataAt k'.desktop.sched.procs k'.desktop.windows.windows) := by
  rw [hp.heap, hp.dataAt]
  exact freed_owns ho hx

theorem initialFds_blocks (d : Nat → Nat) : initialFds.flatMap (fdBlocks d) = [] := rfl

/-- The blocks of a new process are the two it was made in. -/
theorem newProcess_blocks {addr stackMem pid directory parentPid : Nat} {regs : Registers}
    (hm : stackMem ≤ 4194304) : processBlocks d
      (createProcessControlBlock addr stackMem pid directory regs parentPid) = [stackMem, addr] := by
  have hstack : sub32 (wrap (stackMem + pageSize)) pageSize = stackMem := by
    rw [wrap_eq (by simp only [pageSize]; omega), sub32_eq (Nat.le_add_left ..) (by simp only [pageSize]; omega),
      Nat.add_sub_cancel]
  have hblocks : processBlocks d (createProcessControlBlock addr stackMem pid directory regs parentPid) =
      initialFds.flatMap (fdBlocks d) ++ [sub32 (wrap (stackMem + pageSize)) pageSize, addr] := rfl
  rw [hblocks, initialFds_blocks, hstack, List.nil_append]

theorem contribution_fork (hc : Calls ev .fork) (hcon : contribution v cur ev u st = some c) :
    c.env.pcbAddr = (st.heap.kmalloc sizeofPcb).1 ∧
      c.env.stackMem = ((st.heap.kmalloc sizeofPcb).2.kmalloc pageSize).1 ∧
      c.store = { st with heap := ((st.heap.kmalloc sizeofPcb).2.kmalloc pageSize).2 } := by
  unfold contribution at hcon
  rw [called_iff.mpr hc] at hcon
  cases hcon
  exact ⟨rfl, rfl, rfl⟩

theorem Balanced.forked (h : Balanced boot k) (hp : Parts v ev u k k' cur c out) (hc : Calls ev .fork)
    (hr : c.store.heap.refused = []) : Balanced boot k' := by
  have hcall := (seen_env (d := k.desktop) (e := c.env)).mpr hc
  obtain ⟨hpcb, hstack, hstore⟩ := contribution_fork hc hp.contribution
  rw [hstore] at hr
  have hboth := (h.owns.kmalloc (by decide) (kmalloc_refused hr).1).kmalloc (by decide) hr
  rw [← hpcb, ← hstack] at hboth
  obtain ⟨hrel, -, cur', hprocs⟩ := fork_created h.sane.listed hcall hp.handled
  have hchild : processBlocks k.store.dataAt (forkedPcb k.desktop.sched
      (seen k.desktop { ev with env := c.env }) cur') = [c.env.stackMem, c.env.pcbAddr] :=
    newProcess_blocks (hboth.bounds List.mem_cons_self).2
  obtain ⟨m, hw⟩ := hp.windows
  have hwin := entryWindows_conserves (not_calls hcall (by decide)) hw
  refine ⟨hp.sane h.sane, fun p hpm => ?_, hp.owns (c.env.stackMem :: c.env.pcbAddr ::
    owned boot k.store.dataAt k.desktop.sched.procs k.desktop.windows.windows) ?_ ?_⟩
  · rw [hp.sched, hprocs] at hpm
    rcases List.mem_append.mp hpm with hold | hnew
    · exact h.tables p hold
    · rw [List.mem_singleton.mp hnew]
      exact initialFds_table
  · rw [hstore]
    exact hboth
  · rw [hrel, hp.sched, hprocs, hstore]
    refine List.perm_iff_count.mpr fun b => ?_
    have hwindows := List.perm_iff_count.mp hwin b
    have hnew := congrArg (List.count b) hchild
    simp only [owned, List.count_append, List.flatMap_append, List.flatMap_singleton, List.count_cons,
      Option.toList_none, List.flatMap_nil, List.count_nil] at *
    omega

theorem contribution_window (hc : Calls ev .createWindow)
    (hcon : contribution v cur ev u st = some c) :
    c.graphics = ⟨(st.heap.kmalloc sizeofWindow).1, ((st.heap.kmalloc sizeofWindow).2.kmalloc
        (bufSize u.request.width.toNat u.request.height.toNat)).1, u.request⟩ ∧
      c.store = { st with heap := ((st.heap.kmalloc sizeofWindow).2.kmalloc
        (bufSize u.request.width.toNat u.request.height.toNat)).2 } := by
  unfold contribution at hcon
  rw [called_iff.mpr hc] at hcon
  cases hcon
  exact ⟨rfl, rfl⟩

theorem entryWindows_create {g : Graphics} {m m' : Mouse} (hc : Calls ev .createWindow)
    (hcur : s.currentProcess = some cur) (h : entryWindows ev g m s ws = some (ws', m')) :
    wmCreateWindow g.block g.buffer g.request cur.pid ws = some ws' := by
  simp only [entryWindows, hc.1, syscallWindows, hc.2, hcur, Option.bind_some] at h
  obtain ⟨t, ht, he⟩ := Option.map_eq_some_iff.mp h
  cases he
  exact ht

theorem Balanced.created (h : Balanced boot k) (hf : CallFits v k ev u) (hp : Parts v ev u k k' cur c out)
    (hc : Calls ev .createWindow) (hr : c.store.heap.refused = []) : Balanced boot k' := by
  have hcall := (seen_env (d := k.desktop) (e := c.env)).mpr hc
  obtain ⟨hgraphics, hstore⟩ := contribution_window hc hp.contribution
  rw [hstore] at hr
  have hboth := (h.owns.kmalloc (by decide) (kmalloc_refused hr).1).kmalloc (hf.window hc) hr
  have hblock : c.graphics.block ≠ 0 := by
    rw [hgraphics]
    exact Nat.ne_of_gt (hboth.bounds (List.mem_cons_of_mem _ List.mem_cons_self)).1
  have hcur := hp.current
  have hkeep := handle_conserves h.sane hcur (not_calls hcall (by decide)) (not_calls hcall (by decide))
    (not_calls hcall (by decide)) (fun hread => absurd hread (not_calls hcall (by decide))) hp.handled
  rw [← hp.sched] at hkeep
  obtain ⟨m, hw⟩ := hp.windows
  have hwin : k'.desktop.windows.windows.flatMap windowBlocks =
      k.desktop.windows.windows.flatMap windowBlocks ++ [c.graphics.buffer, c.graphics.block] := by
    obtain ⟨-, hnew⟩ := wmCreateWindow_cases (entryWindows_create hcall hcur hw)
    rw [hnew]
    dsimp only
    rw [if_neg hblock, List.flatMap_append, List.flatMap_singleton]
    rfl
  refine ⟨hp.sane h.sane, hkeep.tables h.tables, hp.owns (c.graphics.buffer :: c.graphics.block ::
    owned boot k.store.dataAt k.desktop.sched.procs k.desktop.windows.windows) ?_ ?_⟩
  · rw [hstore, hgraphics]
    exact hboth
  · rw [removedWindows_call hcall (by decide), hstore]
    refine List.perm_iff_count.mpr fun b => ?_
    have hprocs := List.perm_iff_count.mp (hkeep.blocks k.store.dataAt) b
    simp only [owned, hwin, List.count_append, List.count_cons, List.flatMap_nil, List.count_nil] at *
    omega

theorem Balanced.settled (h : Balanced boot k) (hf : CallFits v k ev u) (hp : Parts v ev u k k' cur c out)
    (hcall : Calls ev .open ∨ Calls ev .close ∨ Calls ev .read ∧ fdType ev.regs.ebx cur = some .file)
    (hr : c.store.heap.refused = []) : Balanced boot k' := by
  obtain ⟨hcm, hca⟩ := Sched.deref_mem hp.current
  obtain ⟨a, hset, hstore, hfds⟩ :=
    contribution_settles hf hp.current (h.tables cur hcm) hcall hp.contribution hr
  have hseen : Calls (seen k.desktop { ev with env := c.env }) .open ∨
      Calls (seen k.desktop { ev with env := c.env }) .close ∨
      Calls (seen k.desktop { ev with env := c.env }) .read ∧ fdType ev.regs.ebx cur = some .file :=
    hcall.imp seen_env.mpr (Or.imp seen_env.mpr (And.imp_left seen_env.mpr))
  obtain ⟨hrel, hsched⟩ := handle_fds hp.current hseen hp.handled
  have hprocs : k'.desktop.sched = k.desktop.sched.modify k.desktop.sched.current
      fun p => { p with fds := a.fds } := by
    rw [hp.sched, hsched, hfds]
    rfl
  obtain ⟨m, hw⟩ := hp.windows
  have hwin := entryWindows_conserves (by
    rcases hseen with hc | hc | ⟨hc, -⟩ <;> exact not_calls hc (by decide)) hw
  have ho := settles_owns k.desktop.windows h.sane hcm hca hset h.owns
  rw [← hprocs, hstore] at ho
  refine ⟨hp.sane h.sane, hprocs ▸ settles_tables hset h.tables, hp.owns _ ho ?_⟩
  rw [hrel]
  refine List.perm_iff_count.mpr fun b => ?_
  have hwindows := List.perm_iff_count.mp hwin b
  simp only [owned, List.count_append, Option.toList_none, List.flatMap_nil, List.count_nil] at *
  omega

theorem Balanced.passed (h : Balanced boot k) (hp : Parts v ev u k k' cur c out)
    (hfork : ¬Calls ev .fork) (hwin : ¬Calls ev .createWindow)
    (hcall : ¬(Calls ev .open ∨ Calls ev .close ∨ Calls ev .read ∧ fdType ev.regs.ebx cur = some .file))
    (hr : c.store.heap.refused = []) : Balanced boot k' := by
  have hpass := contribution_passes hfork hwin hcall hp.contribution hr
  obtain ⟨hopen, hrest⟩ := not_or.mp hcall
  obtain ⟨hclose, hread⟩ := not_or.mp hrest
  have hkeep := handle_conserves h.sane hp.current (mt seen_env.mp hfork) (mt seen_env.mp hopen)
    (mt seen_env.mp hclose) (fun hc hfile => hread ⟨seen_env.mp hc, hfile⟩) hp.handled
  rw [← hp.sched] at hkeep
  obtain ⟨m, hw⟩ := hp.windows
  refine ⟨hp.sane h.sane, hkeep.tables h.tables, hp.owns _ (hpass.owns h.owns) ?_⟩
  rw [hpass.dataAt]
  exact conserved_perm hkeep (entryWindows_conserves (mt seen_env.mp hwin) hw)

theorem Balanced.entry (h : Balanced boot k) (hf : CallFits v k ev u) (hk : kernelEntry v ev u k = some k')
    (hr : k'.store.heap.refused = []) : Balanced boot k' := by
  obtain ⟨cur, c, out, hp⟩ := kernelEntry_parts hk
  have hserved := hp.refused hr
  by_cases hfork : Calls ev .fork
  · exact h.forked hp hfork hserved
  by_cases hwin : Calls ev .createWindow
  · exact h.created hf hp hwin hserved
  by_cases hcall : Calls ev .open ∨ Calls ev .close ∨ Calls ev .read ∧ fdType ev.regs.ebx cur = some .file
  · exact h.settled hf hp hcall hserved
  · exact h.passed hp hfork hwin hcall hserved

end Step

/-- A step of the kernel is one of the processes and the windows. -/
theorem kernelStep_desktop {i : Input} (h : kernelStep v k i = some k') :
    ∃ d, systemStep k.desktop d = some k'.desktop := by
  cases i with
  | mouse m =>
    cases h
    exact ⟨.mouse m, rfl⟩
  | entry ev u =>
    obtain ⟨cur, hcur, h⟩ := Option.bind_eq_some_iff.mp h
    obtain ⟨c, hc, h⟩ := Option.bind_eq_some_iff.mp h
    obtain ⟨out, hout, h⟩ := Option.bind_eq_some_iff.mp h
    obtain ⟨w, hw, h⟩ := Option.bind_eq_some_iff.mp h
    obtain ⟨t, -, h⟩ := Option.bind_eq_some_iff.mp h
    cases h
    refine ⟨.entry { ev with env := c.env } c.graphics, ?_⟩
    rw [systemStep, Lifecycle.step, hout, Option.map_some, Option.bind_some, hw]
    rfl

end Entries

/-! ### Boot -/

/- The machine the kernel starts on; kmalloc serves what kernel_main asks for. -/
structure BootMachine where
  screenSize : Nat
  memory : BootHeap
  (idleDirectory mainDirectory eflags timerTicks : Nat)
  mouse : Mouse
  cells : Nat → Nat
  disk : Disk
  files : Nat → Fat16Fd
  dataAt : Nat → Nat
  positive : screenSize ≠ 0
  booted : memory = bootHeap screenSize
  served : memory.heap.refused = []

/-- The blocks kernel_main has obtained when it starts the scheduler. -/
theorem bootHeap_owns {n : Nat} (hn : n ≠ 0) (hr : (bootHeap n).heap.refused = []) :
    Owns (bootHeap n).heap ((bootHeap n).mainStack :: (bootHeap n).main :: (bootHeap n).idleStack ::
      (bootHeap n).idle :: ((bootHeap n).status ++
        ((bootHeap n).buffer :: (bootHeap n).window :: (bootHeap n).early))) := by
  dsimp only [bootHeap] at hr ⊢
  have hmain := (kmalloc_refused hr).1
  have hidleStack := (kmalloc_refused hmain).1
  have hidle := (kmalloc_refused hidleStack).1
  have hstatus := (kmalloc_refused hidle).1
  have hbuffer := kmallocAll_refused hstatus
  have hwindow := (kmalloc_refused hbuffer).1
  have hearly := (kmalloc_refused hwindow).1
  have hsizes : ∀ m ∈ [sectorSize, sizeofGeometry, n, sizeofTerminal, terminalSize * 2], m ≠ 0 := by
    simp [hn, sectorSize, sizeofGeometry, sizeofTerminal, terminalSize, terminalCols, terminalRows]
  have howns := start_owns.kmallocAll hsizes hearly
  rw [List.append_nil] at howns
  have hterminal := (howns.kmalloc (by decide) hwindow).kmalloc (by decide) hbuffer
  have htexts := hterminal.kmallocAll (fun m hm => by rw [List.eq_of_mem_replicate hm]; decide) hstatus
  have hidleOwns := (htexts.kmalloc (by decide) hidle).kmalloc (by decide) hidleStack
  have hmainOwns := (hidleOwns.kmalloc (by decide) hmain).kmalloc (by decide) hr
  exact hmainOwns

theorem boot_tables (c : BootConfig) : ∀ p ∈ (boot c).procs, Table p.fds := by
  intro p hp
  rcases List.mem_pair.mp hp with rfl | rfl
  · exact initialFds_table
  · exact initialFds_table

theorem boot_owned {c : DesktopConfig} (blocks : List Nat) (d : Nat → Nat)
    (hmain : c.boot.mainStack ≤ 4194304) (hidle : c.boot.idleStack ≤ 4194304) :
    owned blocks d (bootSystem c).sched.procs (bootSystem c).windows.windows =
      [c.boot.mainStack, c.boot.mainAddr, c.boot.idleStack, c.boot.idleAddr, c.buffer, c.block] ++
        blocks := by
  have hm : processBlocks d (setStatus .running (bootMain c.boot)) =
      [c.boot.mainStack, c.boot.mainAddr] := (newProcess_blocks hmain : processBlocks d (bootMain c.boot) = _)
  have hi : processBlocks d (bootIdle c.boot) = [c.boot.idleStack, c.boot.idleAddr] :=
    newProcess_blocks hidle
  have hprocs : (bootSystem c).sched.procs =
      [setStatus .running (bootMain c.boot), bootIdle c.boot] := rfl
  have hwindows : (bootSystem c).windows.windows.flatMap windowBlocks = [c.buffer, c.block] := rfl
  rw [owned, hprocs, hwindows, List.flatMap_cons, List.flatMap_singleton, hm, hi]
  rfl

namespace BootMachine
variable (M : BootMachine)

def blocks : List Nat := M.memory.status ++ M.memory.early

theorem owns : Owns M.memory.heap (M.memory.mainStack :: M.memory.main :: M.memory.idleStack ::
    M.memory.idle :: (M.memory.status ++ (M.memory.buffer :: M.memory.window :: M.memory.early))) := by
  have hserved := M.served
  rw [M.booted] at hserved ⊢
  exact bootHeap_owns M.positive hserved

def desktop : DesktopConfig where
  boot := {
    mainAddr := M.memory.main
    idleAddr := M.memory.idle
    mainStack := M.memory.mainStack
    idleStack := M.memory.idleStack
    mainDirectory := M.mainDirectory
    idleDirectory := M.idleDirectory
    eflags := M.eflags
    timerTicks := M.timerTicks
    distinct := fun he => (List.nodup_cons.mp (List.nodup_cons.mp M.owns.nodup).2).1
      (he ▸ List.mem_cons_of_mem _ List.mem_cons_self) }
  block := M.memory.window
  buffer := M.memory.buffer
  mouse := M.mouse
  served := Nat.ne_of_gt (M.owns.bounds (by simp)).1
  bufferServed := Nat.ne_of_gt (M.owns.bounds (by simp)).1

def kernel : Kernel where
  store := ⟨M.memory.heap, M.disk, M.files, M.dataAt⟩
  desktop := bootSystem M.desktop
  terminal := initTerminal M.cells

theorem balanced : Balanced M.blocks M.kernel where
  sane := boot_sane M.desktop.boot
  tables := boot_tables M.desktop.boot
  owns := by
    have hmain : M.memory.mainStack ≤ 4194304 := (M.owns.bounds List.mem_cons_self).2
    have hidle : M.memory.idleStack ≤ 4194304 := (M.owns.bounds (by simp)).2
    have hblocks : (M.memory.status ++ (M.memory.buffer :: M.memory.window :: M.memory.early)).Perm
        (M.memory.buffer :: M.memory.window :: M.blocks) :=
      List.perm_middle.trans (List.perm_middle.cons _)
    refine M.owns.perm (List.Perm.trans ?_
      (List.Perm.of_eq (boot_owned (c := M.desktop) M.blocks M.dataAt hmain hidle).symm))
    exact (((hblocks.cons _).cons _).cons _).cons _

end BootMachine

/-- The kernel with its heap runs the processes and the windows. -/
theorem kernel_desktop {v : Volume} {M : BootMachine} {k : Kernel} {guard : Kernel → Input → Prop}
    (h : Reach (kernelStep v) guard M.kernel k) :
    Reach systemStep anyStep (bootSystem M.desktop) k.desktop :=
  @Reach.image _ _ _ _ _ _ _ systemStep Kernel.desktop _ h fun _ _ _ hs => .inr (kernelStep_desktop hs)

/-- As long as kmalloc serves the requests and the calls fit, the blocks in use are those of the boot, of
the processes, of their open files and of the windows, and kfree gets no other. -/
theorem heap_owned {v : Volume} {M : BootMachine} {k : Kernel}
    (h : Reach (kernelStep v) (fun k i => Fits v k i ∧ Served v k i) M.kernel k) :
    HeapOwned M.blocks k := by
  refine (h.invariant (Balanced M.blocks) M.balanced fun k i k' hk hg hs => ?_).heapOwned
  cases i with
  | mouse m =>
    cases hs
    exact ⟨hk.sane, hk.tables, hk.owns⟩
  | entry ev u => exact hk.entry hg.1 hs (hg.2 k' hs)

/-! ### A descriptor of the terminal that is closed -/

def sampleMemory : BootHeap := bootHeap 480000

def sampleMachine : BootMachine where
  screenSize := 480000
  memory := sampleMemory
  idleDirectory := 0x500000
  mainDirectory := 0x501000
  eflags := 0x202
  timerTicks := 0
  mouse := ⟨400, 300, 400, 300, 0, 0⟩
  cells := fun _ => 0
  disk := emptyDisk
  files := fun _ => ⟨[], 0, 0, 0⟩
  dataAt := fun _ => 0
  positive := by decide
  booted := rfl
  served := by decide +kernel

theorem slash_noNul : ∀ c ∈ [slash], c ≠ 0 := noNul_of_all rfl
theorem empty_noNul : ∀ c ∈ ([] : List UInt8), c ≠ 0 := noNul_of_all rfl

def rootCaller : Caller :=
  ⟨⟨[slash], slash_noNul⟩, ⟨[], empty_noNul⟩, fun _ => 0, smallWindow 0 0 (lettered 4), fun _ => 0, []⟩

def heapCall (eax ebx : Nat) : Input := .entry (call eax ebx 0) rootCaller

/- A child, a window, the root directory, and the descriptor and the window again. -/
def balancedRun : List Input :=
  [heapCall 2 0, heapCall 18 0, heapCall 5 1, heapCall 6 2, heapCall 23 2]

theorem balancedRun_owned : ∃ k, Reach (kernelStep sampleVolume)
      (fun k i => Fits sampleVolume k i ∧ Served sampleVolume k i) sampleMachine.kernel k ∧
    k.desktop.sched.procs.length = 3 ∧ HeapOwned sampleMachine.blocks k := by
  obtain ⟨k, hr, hk⟩ : ∃ k, Reach (kernelStep sampleVolume)
      (fun k i => Fits sampleVolume k i ∧ Served sampleVolume k i) sampleMachine.kernel k ∧
      k.desktop.sched.procs.length = 3 := reach_of_test balancedRun (by decide +kernel) (by decide +kernel)
  exact ⟨k, hr, hk, heap_owned hr⟩

/-- close takes the descriptor 0 for one of a file: kfree gets a word at NULL and NULL. -/
theorem stdin_closed : ¬ ∀ (v : Volume) (M : BootMachine) (k : Kernel),
    Reach (kernelStep v) (Served v) M.kernel k → HeapOwned M.blocks k := by
  intro hall
  obtain ⟨k, hr, hk⟩ : ∃ k, Reach (kernelStep sampleVolume) (Served sampleVolume) sampleMachine.kernel k ∧
      k.store.heap.misfreed ≠ [] := reach_of_test [heapCall 6 0] (by decide +kernel) (by decide +kernel)
  exact hk (hall _ _ k hr).misfreed

end AdamOS.HeapUse
