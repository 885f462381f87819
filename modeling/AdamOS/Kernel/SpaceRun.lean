import AdamOS.Kernel.Boot
import AdamOS.Kernel.FrameCalls
import AdamOS.Kernel.Waiting

/-! The owner map along runs of the kernel: what one entry does to the address spaces and to the
process list, and what every state has in which no allocation has failed. -/
namespace AdamOS.Paging
open AdamOS.Process AdamOS.Scheduler AdamOS.Lifecycle AdamOS.Word AdamOS.Loop AdamOS.Transition

def spaces (procs : List Pcb) : List Nat := procs.map fun p => frameOf p.pageDirectory

theorem mem_spaces {procs : List Pcb} {p : Pcb} (h : p ∈ procs) :
    frameOf p.pageDirectory ∈ spaces procs := List.mem_map_of_mem h

theorem spaces_append (procs : List Pcb) (p : Pcb) :
    spaces (procs ++ [p]) = spaces procs ++ [frameOf p.pageDirectory] := by
  rw [spaces, List.map_append, List.map_singleton, spaces]

theorem spaces_map {procs : List Pcb} {F : Pcb → Pcb}
    (h : ∀ p ∈ procs, (F p).pageDirectory = p.pageDirectory) : spaces (procs.map F) = spaces procs := by
  rw [spaces, spaces, List.map_map]
  exact List.map_congr_left fun p hp => congrArg frameOf (h p hp)

theorem frameOf_directory (f : Nat) : frameOf (f * pageSize) = f := Nat.mul_div_cancel f (by decide)

/-! ### What an entry does -/

theorem called_iff {ev : Event} {sc : Syscall} : called ev = some sc ↔ Calls ev sc := by
  unfold called Calls
  by_cases he : ev.entry = .syscall
  · simp [he]
  · simp [he]

def forkedPcb (s : Sched) (ev : Event) (cur : Pcb) : Pcb :=
  createProcessControlBlock ev.env.pcbAddr ev.env.stackMem s.pidStatic ev.env.directory
    { ev.regs with eax := 0 } cur.pid

theorem fork_created {s : Sched} {ev : Event} {out : Outcome} (hl : Listed s) (hc : Calls ev .fork)
    (h : handle s ev = some out) : out.released = none ∧ ev.env.pcbAddr ∉ s.procs.map Pcb.addr ∧
      ∃ cur, out.sched.procs = s.procs ++ [forkedPcb s ev cur] := by
  rw [handle_syscall hc, syscallHandlerMain, hc.2] at h
  obtain ⟨cur, hcm, -, hcur⟩ := currentProcess_eq hl
  simp only [handleSyscallFork, hcur, Option.bind_eq_bind, Option.bind_some] at h
  by_cases hin : ev.env.pcbAddr ∈ s.procs.map Pcb.addr
  · rw [if_pos hin] at h
    cases h
  rw [if_neg hin] at h
  cases h
  obtain ⟨p, ps, hps⟩ := List.exists_cons_of_ne_nil (List.ne_nil_of_mem hcm)
  exact ⟨rfl, hin, cur, by simp [schedulerEnqueue, hps, forkedPcb]⟩

theorem fork_child {s : Sched} {ev : Event} {out : Outcome} (hl : Listed s) (hc : Calls ev .fork)
    (h : handle s ev = some out) : out.released = none ∧ ∃ child, Child s ev child ∧
      child.heapBreak = 0 ∧ out.sched.procs = s.procs ++ [child] := by
  obtain ⟨hrel, hfresh, cur, hprocs⟩ := fork_created hl hc h
  have hchild : Child s ev (forkedPcb s ev cur) := ⟨rfl, hfresh, rfl, rfl, rfl, rfl, rfl, rfl⟩
  exact ⟨hrel, _, hchild, rfl, hprocs⟩

/-- fork goes through where kmalloc gives the PCB a place of its own. -/
theorem fork_returns {s : Sched} {ev : Event} (hl : Listed s) (hc : Calls ev .fork)
    (hnew : ev.env.pcbAddr ∉ s.procs.map Pcb.addr) : ∃ out, handle s ev = some out := by
  rw [handle_syscall hc, syscallHandlerMain, hc.2]
  obtain ⟨cur, -, -, hcur⟩ := currentProcess_eq hl
  simp only [handleSyscallFork, hcur, Option.bind_eq_bind, Option.bind_some, if_neg hnew]
  exact ⟨_, rfl⟩

theorem exec_sched {s : Sched} {ev : Event} {out : Outcome} (hc : Calls ev .exec)
    (h : handle s ev = some out) : out.released = none ∧ out.sched = s := by
  rw [handle_syscall hc, syscallHandlerMain, hc.2] at h
  cases h
  exact ⟨rfl, rfl⟩

def setHeapBreak (brk : Nat) (p : Pcb) : Pcb := { p with heapBreak := brk }

theorem sbrk_sched {s : Sched} {ev : Event} {out : Outcome} (hc : Calls ev .sbrk)
    (h : handle s ev = some out) : out.released = none ∧
      out.sched = s.modify s.current (setHeapBreak ev.env.heapBreak) := by
  rw [handle_syscall hc, syscallHandlerMain, hc.2] at h
  cases h
  exact ⟨rfl, rfl⟩

structure Enlisted (s : Sched) (child : Pcb) (t : Sched) : Prop where
  procs : t.procs = s.procs ++ [child]
  fresh : child.addr ∉ s.procs.map Pcb.addr
  heapBreak : child.heapBreak = 0

/- The processes of t are those of s, apart from one that may be gone, with their directories and
   heap breaks. -/
structure Retained (s : Sched) (gone : Option Nat) (t : Sched) (F : Pcb → Pcb) : Prop where
  procs : t.procs = (s.procs.filter fun p => decide (gone ≠ some p.addr)).map F
  addr : ∀ p ∈ s.procs, (F p).addr = p.addr
  directory : ∀ p ∈ s.procs, (F p).pageDirectory = p.pageDirectory
  heapBreak : ∀ p ∈ s.procs, (F p).heapBreak = p.heapBreak

/- One kernel entry by process cur: what becomes of the address spaces and of the list. -/
inductive Turn (R : Regime) (own : Owners) (k : Kernel) (cur : Pcb) (ev : Event) :
    Owners → Kernel → Prop
  | fork {child : Pcb} {own' : Owners} {k' : Kernel} (call : Calls ev .fork)
    (new : Enlisted k.sched child k'.sched)
    (space : Forked R own (spaces k.sched.procs) (frameOf cur.pageDirectory)
      (frameOf child.pageDirectory) k.memory own' k'.memory) : Turn R own k cur ev own' k'
  | exec {own' : Owners} {k' : Kernel} (call : Calls ev .exec) (same : k'.sched = k.sched)
    (space : Execed R own (spaces k.sched.procs) k.memory (frameOf cur.pageDirectory) own' k'.memory) :
    Turn R own k cur ev own' k'
  | sbrk {eax brk : Nat} {own' : Owners} {k' : Kernel} (call : Calls ev .sbrk)
    (grown : Sbrked (frameOf cur.pageDirectory) cur.heapBreak (wrap ev.regs.ebx) k.memory eax brk
      k'.memory)
    (sched : k'.sched = k.sched.modify k.sched.current (setHeapBreak brk))
    (space : PagesLoaded R own (spaces k.sched.procs) k.memory (frameOf cur.pageDirectory)
      (firstPage cur.heapBreak) (fun _ _ => 0) (sbrkPages cur.heapBreak (wrap ev.regs.ebx)) own'
      k'.memory) : Turn R own k cur ev own' k'
  | still {F : Pcb → Pcb} {k' : Kernel} (call : ¬Calls ev .fork ∧ ¬Calls ev .sbrk)
    (list : Retained k.sched none k'.sched F)
    (same : k'.memory = k.memory) : Turn R own k cur ev own k'
  | removed {p : Pcb} {F : Pcb → Pcb} {own' : Owners} {k' : Kernel}
    (call : ¬Calls ev .fork ∧ ¬Calls ev .sbrk) (listed : p ∈ k.sched.procs)
    (list : Retained k.sched (some p.addr) k'.sched F)
    (cleared : k'.memory = clearPageDirectory (frameOf p.pageDirectory) k.memory)
    (space : SpaceCleared R own (spaces k.sched.procs) k.memory (frameOf p.pageDirectory) own'
      k'.memory) : Turn R own k cur ev own' k'

def SbrkFits (R : Regime) (k : Kernel) (ev : Event) : Prop :=
  Calls ev .sbrk → ∀ cur ∈ k.sched.procs, cur.addr = k.sched.current →
    Loadable R (frameOf cur.pageDirectory) (firstPage cur.heapBreak)
      (sbrkPages cur.heapBreak (wrap ev.regs.ebx)) k.memory

structure Sound (R : Regime) (k : Kernel) (own : Owners) : Prop where
  sane : Sane k.sched
  owned : Owned R own (spaces k.sched.procs) [] k.memory
  nodup : (spaces k.sched.procs).Nodup
  furnished : ∀ p ∈ k.sched.procs, Furnished R (frameOf p.pageDirectory) k.memory

section Turns
variable {R : Regime} {own own' : Owners} {k k' : Kernel} {cur : Pcb} {ev : Event}
  {program : Option Program} {env : Env} {m : Memory} {out : Outcome}

theorem releaseMemory_served {released : Option Pcb} :
    (releaseMemory released m).exhausted = m.exhausted := by
  cases released with
  | none => rfl
  | some p => exact clearPageDirectory_exhausted

/-- An entry that neither forks nor grows a heap leaves the list as it is, but for one process. -/
theorem retained_of {s t : Sched} {released : Option Pcb} {gone : Option Nat} {F : Pcb → Pcb}
    (h : Rewritten s ev t released gone F) (hn : ¬Calls ev .sbrk) : Retained s gone t F :=
  ⟨h.procs, h.addr, h.directory, h.heap hn⟩

/-- The memory is what the entry found, until a process is removed. -/
theorem Sound.turnQuiet (h : Sound R k own) (hnf : ¬Calls ev .fork) (hns : ¬Calls ev .sbrk)
    (hout : handle k.sched ev = some out) : ∃ own', Turn R own k cur ev own'
      { sched := out.sched, memory := releaseMemory out.released k.memory } := by
  obtain ⟨gone, F, hF⟩ := (handle_rewrites h.sane hout).resolve_left fun hf => hnf hf.1
  have hlist := retained_of hF hns
  cases hF.released with
  | inl hr =>
    obtain ⟨hrel, hgone⟩ := hr
    subst hgone
    exact ⟨own, .still ⟨hnf, hns⟩ hlist (by rw [hrel]; rfl)⟩
  | inr hr =>
    obtain ⟨p, hp, g, hrel, hgone, -, hg⟩ := hr
    subst hgone
    have hmem : releaseMemory out.released k.memory =
        clearPageDirectory (frameOf p.pageDirectory) k.memory := by
      rw [hrel, ← assets_directory hg]
      rfl
    obtain ⟨own', hc⟩ := h.owned.clearSpace (mem_spaces hp)
    rw [← hmem] at hc
    exact ⟨own', .removed ⟨hnf, hns⟩ hp hlist hmem hc⟩

theorem Sound.turnFork (h : Sound R k own) (hcall : Calls ev .fork) (hcur : cur ∈ k.sched.procs)
    (hp : pagingOf cur ev program k.memory = some (env, m))
    (hout : handle k.sched { ev with env := env } = some out)
    (hm : (releaseMemory out.released m).exhausted = false) : ∃ own', Turn R own k cur ev own'
      { sched := out.sched, memory := releaseMemory out.released m } := by
  simp only [pagingOf, called_iff.mpr hcall] at hp
  obtain ⟨henv, hmem⟩ := Prod.mk.inj (Option.some.inj hp)
  obtain ⟨hrel, child, hchild, hb, hprocs⟩ := fork_child h.sane.listed (hcall.withEnv env) hout
  rw [releaseMemory_served, ← hmem] at hm
  obtain ⟨own', hf⟩ := h.owned.forked (mem_spaces hcur) hm
  rw [hmem] at hf
  have hdir : (forkDirectory (frameOf cur.pageDirectory) k.memory).1 = frameOf child.pageDirectory := by
    have hcd : child.pageDirectory = env.directory := hchild.directory
    rw [hcd, ← henv]
    exact (frameOf_directory _).symm
  rw [hdir] at hf
  rw [hrel]
  exact ⟨own', .fork hcall ⟨hprocs, hchild.fresh, hb⟩ hf⟩

theorem Sound.turnExec (h : Sound R k own) (hcall : Calls ev .exec) (hpl : program ≠ none → Plain R)
    (hcur : cur ∈ k.sched.procs) (hp : pagingOf cur ev program k.memory = some (env, m))
    (hout : handle k.sched { ev with env := env } = some out)
    (hm : (releaseMemory out.released m).exhausted = false) : ∃ own', Turn R own k cur ev own'
      { sched := out.sched, memory := releaseMemory out.released m } := by
  rw [releaseMemory_served] at hm
  simp only [pagingOf, called_iff.mpr hcall] at hp
  obtain ⟨hrel, hsched⟩ := exec_sched (hcall.withEnv env) hout
  rw [hrel]
  cases program with
  | none =>
    cases hp
    refine ⟨own, .still (F := id) ⟨not_calls hcall (by decide), not_calls hcall (by decide)⟩
      ⟨?_, fun _ _ => rfl, fun _ _ => rfl, fun _ _ => rfl⟩ rfl⟩
    rw [hsched, List.map_id, List.filter_eq_self.mpr]
    simp
  | some p =>
    cases hp
    obtain ⟨own', hx⟩ := h.owned.execed (mem_spaces hcur) p (hpl (Option.some_ne_none p))
      (h.furnished cur hcur) hm
    exact ⟨own', .exec hcall hsched hx⟩

theorem Sound.turnSbrk (h : Sound R k own) (hcall : Calls ev .sbrk) (hcur : cur ∈ k.sched.procs)
    (ha : cur.addr = k.sched.current) (hfit : SbrkFits R k ev)
    (hp : pagingOf cur ev program k.memory = some (env, m))
    (hout : handle k.sched { ev with env := env } = some out)
    (hm : (releaseMemory out.released m).exhausted = false) : ∃ own', Turn R own k cur ev own'
      { sched := out.sched, memory := releaseMemory out.released m } := by
  rw [releaseMemory_served] at hm
  simp only [pagingOf, called_iff.mpr hcall] at hp
  obtain ⟨⟨eax, brk, m₁⟩, hs, he⟩ := Option.map_eq_some_iff.mp hp
  obtain ⟨henv, rfl⟩ := Prod.mk.inj he
  obtain ⟨hrel, hsched⟩ := sbrk_sched (hcall.withEnv env) hout
  have hs := sbrk_returned hs
  have hmem := hs.memory
  rw [hmem] at hm
  obtain ⟨own', hl⟩ := h.owned.pagesLoaded (mem_spaces hcur) (hfit hcall cur hcur ha) hm
  rw [← hmem] at hl
  rw [hrel]
  rw [show env.heapBreak = brk by rw [← henv]] at hsched
  exact ⟨own', .sbrk hcall hs hsched hl⟩

theorem pagingOf_same {m₀ : Memory} (hf : ¬Calls ev .fork) (hx : ¬Calls ev .exec)
    (hs : ¬Calls ev .sbrk) (hp : pagingOf cur ev program m₀ = some (env, m)) :
    env = ev.env ∧ m = m₀ := by
  unfold pagingOf at hp
  cases hcd : called ev with
  | none =>
    rw [hcd] at hp
    cases hp
    exact ⟨rfl, rfl⟩
  | some sc =>
    have hcall := called_iff.mp hcd
    rw [hcd] at hp
    cases sc with
    | fork => exact absurd hcall hf
    | exec => exact absurd hcall hx
    | sbrk => exact absurd hcall hs
    | _ =>
      cases hp
      exact ⟨rfl, rfl⟩

theorem Allocates.released {s : Sched} (h : Allocates ev) (hl : Listed s)
    (hout : handle s { ev with env := env } = some out) : out.released = none := by
  rcases h with hc | hc | hc
  · exact (fork_child hl (hc.withEnv env) hout).1
  · exact (exec_sched (hc.withEnv env) hout).1
  · exact (sbrk_sched (hc.withEnv env) hout).1

/-- What a kernel entry in which no allocation fails does to a sound state. -/
theorem Sound.turn {regs : Registers} (h : Sound R k own)
    (hpl : Calls ev .exec → program ≠ none → Plain R) (hfit : SbrkFits R k ev)
    (he : kernelEntry k ev program = some (k', regs)) (hm : k'.memory.exhausted = false) :
    ∃ cur ∈ k.sched.procs, cur.addr = k.sched.current ∧ k.sched.currentProcess = some cur ∧
      ∃ own', Turn R own k cur ev own' k' := by
  obtain ⟨cur, env, m, out, hcur, hp, hout, hs, -, hmem⟩ := kernelEntry_eq he
  obtain ⟨hc, ha⟩ := Sched.deref_mem hcur
  refine ⟨cur, hc, ha, hcur, ?_⟩
  have hk' : k' = { sched := out.sched, memory := releaseMemory out.released m } := by
    rw [← hs, ← hmem]
  rw [hmem] at hm
  rw [hk']
  by_cases hfork : Calls ev .fork
  · exact h.turnFork hfork hc hp hout hm
  by_cases hexec : Calls ev .exec
  · exact h.turnExec hexec (hpl hexec) hc hp hout hm
  by_cases hsbrk : Calls ev .sbrk
  · exact h.turnSbrk hsbrk hc ha hfit hp hout hm
  obtain ⟨rfl, rfl⟩ := pagingOf_same hfork hexec hsbrk hp
  exact h.turnQuiet hfork hsbrk hout

/-! ### Sound states -/

theorem mem_spaces_iff {procs : List Pcb} {P : Nat} :
    P ∈ spaces procs ↔ ∃ p ∈ procs, frameOf p.pageDirectory = P := by
  rw [spaces, List.mem_map]

/-- The spaces that are left when processes go, with the directories they had. -/
theorem Retained.spaces {s t : Sched} {gone : Option Nat} {F : Pcb → Pcb} (h : Retained s gone t F) :
    Paging.spaces t.procs = Paging.spaces (s.procs.filter fun p => decide (gone ≠ some p.addr)) := by
  rw [h.procs]
  exact spaces_map fun p hp => h.directory p (List.mem_filter.mp hp).1

theorem Retained.spaces_same {s t : Sched} {F : Pcb → Pcb} (h : Retained s none t F) :
    Paging.spaces t.procs = Paging.spaces s.procs := by
  rw [h.spaces, List.filter_eq_self.mpr]
  simp

theorem Retained.spaces_sublist {s t : Sched} {gone : Option Nat} {F : Pcb → Pcb}
    (h : Retained s gone t F) : (Paging.spaces t.procs).Sublist (Paging.spaces s.procs) := by
  rw [h.spaces]
  exact List.filter_sublist.map _

theorem Sound.furnished_space {P : Nat} (h : Sound R k own) (hP : P ∈ spaces k.sched.procs) :
    Furnished R P k.memory := by
  obtain ⟨p, hp, he⟩ := mem_spaces_iff.mp hP
  exact he ▸ h.furnished p hp

/-- The copy of a space has the tables of the frame buffer. -/
theorem Forked.furnished {dirs : List Nat} {source child : Nat} {m₀ : Memory}
    (h : Forked R own dirs source child m₀ own' m) (hs : Furnished R source m₀) :
    Furnished R child m := by
  intro i hi
  obtain ⟨hlow, hlt⟩ := R.bounded i hi
  obtain ⟨t, ht, -⟩ := (h.copied i hlt).table hlow (hs i hi)
  rw [ht, present_flagsOf]
  exact hs i hi

theorem Retained.gone {s t : Sched} {F : Pcb → Pcb} {a : Nat} (h : Retained s (some a) t F) :
    a ∉ t.procs.map Pcb.addr := by
  intro ha
  rw [h.procs, List.map_map] at ha
  obtain ⟨p, hp, he⟩ := List.mem_map.mp ha
  obtain ⟨hp, hne⟩ := List.mem_filter.mp hp
  rw [Function.comp_apply, h.addr p hp] at he
  simp [he] at hne

theorem spaces_setHeapBreak (s : Sched) (a brk : Nat) :
    spaces (s.modify a (setHeapBreak brk)).procs = spaces s.procs := by
  rw [modify_procs]
  exact spaces_map fun p _ =>
    onAddr_field Pcb.pageDirectory (setHeapBreak brk) (fun _ => rfl) a p

def Stays (s t : Sched) : Prop := ∀ p ∈ s.procs, p.addr ∈ t.procs.map Pcb.addr

theorem Turn.owned (h : Sound R k own) (ht : Turn R own k cur ev own' k')
    (hstay : R.tight → Stays k.sched k'.sched) :
    Owned R own' (spaces k'.sched.procs) [] k'.memory := by
  cases ht with
  | fork _ new space =>
    rw [new.procs, spaces_append]
    exact space.owned.reorder (fun P => by simp [or_comm]) fun _ => Iff.rfl
  | exec _ same space =>
    rw [same]
    exact space.owned
  | sbrk _ _ sched space =>
    rw [sched, spaces_setHeapBreak]
    exact space.owned
  | still _ list same =>
    rw [list.spaces_same, same]
    exact h.owned
  | removed _ listed list _ space =>
    exact space.owned.drop (fun ht => list.gone (hstay ht _ listed)) list.spaces_sublist.subset

theorem Turn.nodup (h : Sound R k own) (ht : Turn R own k cur ev own' k') :
    (spaces k'.sched.procs).Nodup := by
  cases ht with
  | fork _ new space =>
    rw [new.procs, spaces_append]
    refine List.nodup_append.mpr ⟨h.nodup, List.nodup_singleton _, ?_⟩
    intro P hP Q hQ
    rw [List.mem_singleton.mp hQ]
    exact Owned.ne_of_none space.fresh.1 (h.owned.directory P hP)
  | exec _ same _ =>
    rw [same]
    exact h.nodup
  | sbrk _ _ sched _ =>
    rw [sched, spaces_setHeapBreak]
    exact h.nodup
  | still _ list _ =>
    rw [list.spaces_same]
    exact h.nodup
  | removed _ _ list _ _ => exact h.nodup.sublist list.spaces_sublist

theorem Turn.furnished (h : Sound R k own) (ht : Turn R own k cur ev own' k')
    (hcur : cur ∈ k.sched.procs) : ∀ P ∈ spaces k'.sched.procs, Furnished R P k'.memory := by
  intro P hP
  cases ht with
  | fork _ new space =>
    rw [new.procs, spaces_append] at hP
    cases List.mem_append.mp hP with
    | inl hP =>
      intro i hi
      rw [space.kept P (held_directory (h.owned.directory P hP))]
      exact h.furnished_space hP i hi
    | inr hP =>
      rw [List.mem_singleton.mp hP]
      exact space.furnished (h.furnished cur hcur)
  | exec _ same space =>
    rw [same] at hP
    intro i hi
    have hp := h.furnished_space hP i hi
    rw [space.entries P (h.owned.directory P hP) i (R.bounded i hi).2 (.inr hi) hp]
    exact hp
  | sbrk _ _ sched space =>
    rw [sched, spaces_setHeapBreak] at hP
    exact (h.furnished_space hP).grows space.grows (h.owned.directory P hP)
  | still _ list same =>
    rw [list.spaces_same] at hP
    rw [same]
    exact h.furnished_space hP
  | removed _ listed list cleared _ =>
    have hP := list.spaces_sublist.subset hP
    intro i hi
    rw [cleared, h.owned.entry_cleared (mem_spaces listed) (R.bounded i hi).2 (.inr hi)]
    exact h.furnished_space hP i hi

/-- An entry leads from a sound state to a sound state. -/
theorem Turn.sound (h : Sound R k own) (ht : Turn R own k cur ev own' k') (hcur : cur ∈ k.sched.procs)
    (hsane : Sane k'.sched) (hstay : R.tight → Stays k.sched k'.sched) : Sound R k' own' where
  sane := hsane
  owned := ht.owned h hstay
  nodup := ht.nodup h
  furnished := fun _ hp => ht.furnished h hcur _ (mem_spaces hp)

/-- The entries that forks share, and those of the frame buffer, are never written again. -/
theorem Turn.entries (h : Sound R k own) (ht : Turn R own k cur ev own' k') {Q : Nat}
    (hQ : own Q = some .directory) : own' Q = some .directory ∧ ∀ i < 1024,
      i < userIndex ∨ R.device i → present (k.memory.phys Q i) = true →
        k'.memory.phys Q i = k.memory.phys Q i := by
  cases ht with
  | fork _ _ space =>
    exact ⟨space.owners Q _ hQ, fun i _ _ _ => congrFun (space.kept Q (held_directory hQ)) i⟩
  | exec _ _ space =>
    exact ⟨space.owners Q _ hQ id, fun i hlt hi hp => space.entries Q hQ i hlt hi hp⟩
  | sbrk _ _ _ space =>
    exact ⟨space.grows.owners Q _ hQ, fun i _ _ hp => space.grows.entries Q i hQ hp⟩
  | still _ _ same => exact ⟨hQ, fun i _ _ _ => by rw [same]⟩
  | removed _ listed _ cleared space =>
    refine ⟨space.owners Q _ hQ id, fun i hlt hi _ => ?_⟩
    rw [cleared]
    exact h.owned.entry_cleared (mem_spaces listed) hlt hi

theorem kernelEntry_fork {k : Kernel} {cur : Pcb} {ev : Event} (program : Option Program)
    (hl : Listed k.sched) (hcur : k.sched.currentProcess = some cur) (hcall : Calls ev .fork)
    (hnew : ev.env.pcbAddr ∉ k.sched.procs.map Pcb.addr) :
    ∃ k' regs child, kernelEntry k ev program = some (k', regs) ∧
      k'.memory = (forkDirectory (frameOf cur.pageDirectory) k.memory).2 ∧
      Child k.sched { ev with env := { ev.env with
        directory := (forkDirectory (frameOf cur.pageDirectory) k.memory).1 * pageSize } } child ∧
      Enlisted k.sched child k'.sched := by
  obtain ⟨d, m, hr⟩ : ∃ d m, forkDirectory (frameOf cur.pageDirectory) k.memory = (d, m) := ⟨_, _, rfl⟩
  rw [hr]
  let env : Env := { ev.env with directory := d * pageSize }
  have hp : pagingOf cur ev program k.memory = some (env, m) := by
    simp only [pagingOf, called_iff.mpr hcall, hr]
    rfl
  obtain ⟨out, hout⟩ := fork_returns hl (hcall.withEnv env) hnew
  obtain ⟨hrel, child, hchild, hb, hprocs⟩ := fork_child hl (hcall.withEnv env) hout
  have he := kernelEntry_of hcur hp hout
  rw [hrel] at he
  exact ⟨_, _, child, he, rfl, hchild, hprocs, hchild.fresh, hb⟩

theorem kernelEntry_sbrk {eax brk : Nat} (program : Option Program)
    (hcur : k.sched.currentProcess = some cur) (hcall : Calls ev .sbrk)
    (hs : Paging.sbrk (frameOf cur.pageDirectory) cur.heapBreak (wrap ev.regs.ebx) k.memory =
      some (eax, brk, m)) : ∃ k' regs, kernelEntry k ev program = some (k', regs) ∧
        k'.sched = k.sched.modify k.sched.current (setHeapBreak brk) ∧ k'.memory = m := by
  let env : Env := { ev.env with eax := eax, heapBreak := brk }
  have hp : pagingOf cur ev program k.memory = some (env, m) := by
    simp only [pagingOf, called_iff.mpr hcall, hs, Option.map_some]
    rfl
  obtain ⟨out, hout, -, -⟩ := sbrk_returns (s := k.sched) (hcall.withEnv env)
  obtain ⟨hrel, hsched⟩ := sbrk_sched (hcall.withEnv env) hout
  have he := kernelEntry_of hcur hp hout
  rw [hrel] at he
  exact ⟨_, out.regs, he, hsched, rfl⟩

theorem kernelEntry_sane {regs : Registers} (h : Sane k.sched)
    (he : kernelEntry k ev program = some (k', regs)) : Sane k'.sched := by
  obtain ⟨cur, env, m, out, -, -, hout, hs, -, -⟩ := kernelEntry_eq he
  rw [hs]
  have hstep : step k.sched { ev with env := env } = some out.sched :=
    Option.map_eq_some_iff.mpr ⟨out, hout, rfl⟩
  exact step_sane h hstep

end Turns

section Running
variable {k k' : Kernel} {P brk : Nat} {ev : Event}

/-! ### A process that keeps running -/

theorem fork_current {s : Sched} {out : Outcome} (hc : Calls ev .fork)
    (h : handle s ev = some out) : out.sched.current = s.current := by
  rw [handle_syscall hc, syscallHandlerMain, hc.2] at h
  obtain ⟨cur, hcur, h1⟩ := Option.bind_eq_some_iff.mp h
  obtain ⟨p, ps, hps⟩ := List.exists_cons_of_ne_nil (List.ne_nil_of_mem (Sched.deref_mem hcur).1)
  by_cases hin : ev.env.pcbAddr ∈ s.procs.map Pcb.addr
  · rw [if_pos hin] at h1
    cases h1
  · rw [if_neg hin] at h1
    cases h1
    simp [schedulerEnqueue, hps]

structure Running (k : Kernel) (P brk : Nat) : Prop where
  sane : Sane k.sched
  current : ∃ cur, k.sched.currentProcess = some cur ∧ frameOf cur.pageDirectory = P ∧
    cur.heapBreak = brk

theorem Running.of_mem {cur : Pcb} (h : Sane k.sched) (hc : cur ∈ k.sched.procs)
    (ha : cur.addr = k.sched.current) :
    Running k (frameOf cur.pageDirectory) cur.heapBreak := by
  refine ⟨h, cur, ?_, rfl, rfl⟩
  rw [Sched.currentProcess, ← ha]
  exact Sched.deref_of_mem h.listed.nodup hc

theorem Running.listed {k : Kernel} {P brk : Nat} (h : Running k P brk) :
    P ∈ spaces k.sched.procs := by
  obtain ⟨-, cur, hcur, rfl, -⟩ := h
  exact mem_spaces (Sched.deref_mem hcur).1

theorem Running.sbrk (h : Running k P brk) (hc : Calls ev .sbrk) (h0 : wrap ev.regs.ebx ≠ 0)
    (hb : newBreak brk (wrap ev.regs.ebx) ≤ 1048575 * pageSize) :
    ∃ k', kernelStep k (.enter ev none) = some k' ∧
      Running k' P (newBreak brk (wrap ev.regs.ebx)) ∧
      spaces k'.sched.procs = spaces k.sched.procs ∧
      k'.sched.procs.map Pcb.addr = k.sched.procs.map Pcb.addr ∧
      k'.memory = loop (sbrkPages brk (wrap ev.regs.ebx))
        (fun i => loadPage P (firstPage brk + i) fun _ => 0) k.memory := by
  obtain ⟨hsane, cur, hcur, rfl, rfl⟩ := h
  obtain ⟨hm, ha⟩ := Sched.deref_mem hcur
  obtain ⟨k', regs, he, hs, hmem⟩ := kernelEntry_sbrk none hcur hc (sbrk_ran _ h0 hb _)
  refine ⟨k', by rw [kernelStep, he, Option.map_some], ?_, ?_, ?_, hmem⟩
  · have hmem' : setHeapBreak (newBreak cur.heapBreak (wrap ev.regs.ebx)) cur ∈ k'.sched.procs := by
      rw [hs, modify_procs]
      exact List.mem_map.mpr ⟨cur, hm, onAddr_of_eq ha⟩
    refine Running.of_mem (kernelEntry_sane hsane he) hmem' ?_
    rw [hs]
    exact ha
  · rw [hs, spaces_setHeapBreak]
  · rw [hs, modify_procs]
    rw [List.map_map]
    exact List.map_congr_left fun p _ => onAddr_field Pcb.addr (setHeapBreak _) (fun _ => rfl) _ p

theorem Running.fork (h : Running k P brk) (hc : Calls ev .fork)
    (hnew : ev.env.pcbAddr ∉ k.sched.procs.map Pcb.addr) :
    ∃ k' child, kernelStep k (.enter ev none) = some k' ∧ Running k' P brk ∧
      Enlisted k.sched child k'.sched ∧
      frameOf child.pageDirectory = (forkDirectory P k.memory).1 ∧
      k'.memory = (forkDirectory P k.memory).2 := by
  obtain ⟨hsane, cur, hcur, rfl, rfl⟩ := h
  obtain ⟨hm, ha⟩ := Sched.deref_mem hcur
  obtain ⟨k', regs, child, he, hmem, hchild, hen⟩ := kernelEntry_fork none hsane.listed hcur hc hnew
  obtain ⟨cur', env, m, out, hcur', hp, hout, hs, -, -⟩ := kernelEntry_eq he
  have hcurrent : k'.sched.current = k.sched.current := by
    rw [hs]
    exact fork_current (hc.withEnv env) hout
  refine ⟨k', child, by rw [kernelStep, he, Option.map_some], ?_, hen, ?_, hmem⟩
  · refine Running.of_mem (kernelEntry_sane hsane he) ?_ (ha.trans hcurrent.symm)
    rw [hen.procs]
    exact List.mem_append_left _ hm
  · have hd := hchild.directory
    rw [hd]
    exact frameOf_directory _

end Running

/-! ### Stores -/

section Stores
variable {R : Regime} {own : Owners} {k k' : Kernel} {page j w : Nat}

structure Stored (k : Kernel) (cur : Pcb) (page j w : Nat) (k' : Kernel) : Prop where
  listed : cur ∈ k.sched.procs
  current : cur.addr = k.sched.current
  bound : page < 1048576
  accessible : accessible k.memory (frameOf cur.pageDirectory) page = true
  sched : k'.sched = k.sched
  memory : k'.memory =
    k.memory.put (frameOf (k.memory.pte (frameOf cur.pageDirectory) page)) j w

theorem userStore_stored (h : userStore k page j w = some k') : ∃ cur, Stored k cur page j w k' := by
  obtain ⟨cur, hcur, h1⟩ := Option.bind_eq_some_iff.mp h
  obtain ⟨hc, ha⟩ := Sched.deref_mem hcur
  dsimp only at h1
  by_cases hacc : page < 1048576 ∧ accessible k.memory (frameOf cur.pageDirectory) page = true
  · rw [if_pos hacc] at h1
    cases h1
    exact ⟨cur, hc, ha, hacc.1, hacc.2, rfl, rfl⟩
  · rw [if_neg hacc] at h1
    cases h1

theorem Stored.sound {cur : Pcb} (h : Sound R k own) (hs : Stored k cur page j w k') :
    Sound R k' own := by
  obtain ⟨Q, i, l, ho⟩ := h.owned.accessible_page (mem_spaces hs.listed) hs.accessible
  have hdirs : ∀ P ∈ spaces k.sched.procs, k'.memory.phys P = k.memory.phys P := by
    intro P hP
    rw [hs.memory]
    exact k.memory.put_frame_ne j w (owner_ne (h.owned.directory P hP) ho (by simp))
  refine ⟨hs.sched ▸ h.sane, ?_, hs.sched ▸ h.nodup, fun p hp i hi => ?_⟩
  · rw [hs.sched, hs.memory]
    exact h.owned.put_plain (.inr ⟨Q, i, l, ho⟩)
  · rw [hs.sched] at hp
    rw [hdirs _ (mem_spaces hp)]
    exact h.furnished p hp i hi

theorem Stored.kept {cur : Pcb} (h : Sound R k own) (hs : Stored k cur page j w k') {g : Nat}
    {o : Owner} (hg : own g = some o) (ho : ∀ P i l, o ≠ .page P i l) :
    k'.memory.phys g = k.memory.phys g := by
  obtain ⟨Q, i, l, hf⟩ := h.owned.accessible_page (mem_spaces hs.listed) hs.accessible
  rw [hs.memory]
  exact k.memory.put_frame_ne j w (owner_ne hg hf (ho Q i l))

end Stores

/-! ### Runs -/

section Served
variable {m m' : Memory}

theorem forkDirectory_served {source : Nat} (h : (forkDirectory source m).2.exhausted = false) :
    m.exhausted = false := by
  unfold forkDirectory at h
  dsimp only at h
  have hc := copyPageDirectory_served h
  rw [Memory.fill_exhausted, Memory.put_exhausted] at hc
  exact allocateFrame_served hc

theorem execDirectory_served {pd : Nat} {p : Program} (h : (execDirectory pd p m).exhausted = false) :
    m.exhausted = false := by
  unfold execDirectory at h
  dsimp only at h
  have hu : (updatePageDirectory pd p (clearPageDirectory pd m)).exhausted = false := by
    by_cases ha : p.argLen = 0
    · rw [if_pos ha] at h
      exact h
    · rw [if_neg ha, writePage_exhausted] at h
      exact h
  have hc := updatePageDirectory_served hu
  rwa [clearPageDirectory_exhausted] at hc

theorem pagingOf_served {cur : Pcb} {ev : Event} {program : Option Program} {env : Env}
    (h : pagingOf cur ev program m = some (env, m')) (hm : m'.exhausted = false) :
    m.exhausted = false := by
  unfold pagingOf at h
  cases hc : called ev with
  | none =>
    rw [hc] at h
    cases h
    exact hm
  | some sc =>
    rw [hc] at h
    cases sc with
    | fork =>
      have he := (Prod.mk.inj (Option.some.inj h)).2
      rw [← he] at hm
      exact forkDirectory_served hm
    | exec =>
      cases program with
      | none =>
        cases h
        exact hm
      | some p =>
        have he := (Prod.mk.inj (Option.some.inj h)).2
        rw [← he] at hm
        exact execDirectory_served hm
    | sbrk =>
      obtain ⟨⟨eax, brk, m₁⟩, hs, he⟩ := Option.map_eq_some_iff.mp h
      have he := (Prod.mk.inj he).2
      rw [← he, (sbrk_returned hs).memory] at hm
      exact loop_served (fun _ _ => loadPage_served) hm
    | _ =>
      cases h
      exact hm

/-- A failed allocation stays on record. -/
theorem kernelStep_served {k k' : Kernel} {a : Action} (h : kernelStep k a = some k')
    (hm : k'.memory.exhausted = false) : k.memory.exhausted = false := by
  cases a with
  | enter ev program =>
    obtain ⟨⟨k₁, regs⟩, he, rfl⟩ := Option.map_eq_some_iff.mp h
    obtain ⟨cur, env, m, out, -, hp, -, -, -, hmem⟩ := kernelEntry_eq he
    rw [hmem, releaseMemory_served] at hm
    exact pagingOf_served hp hm
  | store page j w =>
    obtain ⟨cur, hs⟩ := userStore_stored h
    rwa [hs.memory, Memory.put_exhausted] at hm

end Served

section Runs
variable {R : Regime} {own : Owners} {k k' k₀ : Kernel} {M : Machine}

theorem boot_spaces (c : BootConfig) :
    spaces (boot c).procs = [frameOf c.mainDirectory, frameOf c.idleDirectory] := by
  simp [spaces, boot, bootMain, bootIdle, createProcessControlBlock, setStatus]

theorem boot_addrs (c : BootConfig) : (boot c).procs.map Pcb.addr = [c.mainAddr, c.idleAddr] := by
  simp [boot, bootMain, bootIdle, createProcessControlBlock, setStatus]

theorem bootKernel_spaces (M : Machine) :
    spaces (bootKernel M).sched.procs = [(mainSpace M).1, (idleSpace M).1] := by
  rw [bootKernel, boot_spaces, frameOf_directory, frameOf_directory]

theorem bootKernel_main (M : Machine) : ∃ cur, (bootKernel M).sched.currentProcess = some cur ∧
    frameOf cur.pageDirectory = (mainSpace M).1 ∧ cur.heapBreak = 0 := by
  let c := { M.config with
    idleDirectory := (idleSpace M).1 * pageSize, mainDirectory := (mainSpace M).1 * pageSize }
  have hcur : (boot c).currentProcess = some (setStatus .running (bootMain c)) :=
    Sched.deref_of_mem (boot_sane c).listed.nodup List.mem_cons_self
  exact ⟨_, hcur, frameOf_directory _, rfl⟩

theorem bootKernel_running (M : Machine) : Running (bootKernel M) (mainSpace M).1 0 := by
  refine ⟨?_, bootKernel_main M⟩
  rw [bootKernel]
  exact boot_sane _

theorem Booted.sound (h : Booted M R own) (hdev : ∀ i, R.device i ↔ deviceIndex M i) :
    Sound R (bootKernel M) own := by
  have hlinks : ∀ {P}, BootSpace M (mainSpace M).2 P → Furnished R P (mainSpace M).2 := by
    intro P hs i hi
    obtain ⟨v, hv, -, he⟩ := (hdev i).mp hi
    rw [← he]
    exact hs.links v (.inl (.inl (.inr hv)))
  refine ⟨?_, ?_, ?_, fun p hp => ?_⟩
  · rw [bootKernel]
    exact boot_sane _
  · rw [bootKernel_spaces, bootKernel_memory]
    exact h.owned
  · rw [bootKernel_spaces]
    exact List.nodup_cons.mpr ⟨by simpa using h.apart, List.nodup_singleton _⟩
  · have hm := mem_spaces hp
    rw [bootKernel_spaces] at hm
    rw [bootKernel_memory]
    cases List.mem_cons.mp hm with
    | inl hm =>
      rw [hm]
      exact hlinks h.main
    | inr hm =>
      rw [List.mem_singleton.mp hm]
      exact hlinks h.idle

/- What the steps of a run must meet for its states to be sound. -/
structure Admits (R : Regime) (guard : Kernel → Action → Prop) : Prop where
  plain : ∀ k ev program, guard k (.enter ev program) → Calls ev .exec → program ≠ none → Plain R
  fits : ∀ k own ev program, Sound R k own → guard k (.enter ev program) → SbrkFits R k ev
  stays : R.tight → ∀ k own ev program k', Sound R k own → guard k (.enter ev program) →
    kernelStep k (.enter ev program) = some k' → Stays k.sched k'.sched

theorem Sound.step {guard : Kernel → Action → Prop} {a : Action} (h : Sound R k own)
    (hR : Admits R guard) (hg : guard k a) (hs : kernelStep k a = some k')
    (hm : k'.memory.exhausted = false) : ∃ own', Sound R k' own' := by
  cases a with
  | enter ev program =>
    have hstay := fun ht => hR.stays ht k own ev program k' h hg hs
    obtain ⟨⟨k₁, regs⟩, he, rfl⟩ := Option.map_eq_some_iff.mp hs
    obtain ⟨cur, hc, -, -, own', ht⟩ :=
      h.turn (hR.plain k ev program hg) (hR.fits k own ev program h hg) he hm
    exact ⟨own', ht.sound h hc (kernelEntry_sane h.sane he) hstay⟩
  | store page j w =>
    obtain ⟨cur, hst⟩ := userStore_stored hs
    exact ⟨own, hst.sound h⟩

/-- Every state of a run in which no allocation has failed is sound. -/
theorem run_sound {guard : Kernel → Action → Prop} (h₀ : ∃ own, Sound R k₀ own) (hR : Admits R guard)
    (h : Reach kernelStep guard k₀ k) (hm : k.memory.exhausted = false) : ∃ own, Sound R k own := by
  refine h.invariant (fun k => k.memory.exhausted = false → ∃ own, Sound R k own) (fun _ => h₀) ?_ hm
  intro k a k' ih hg hs hm
  obtain ⟨own, hk⟩ := ih (kernelStep_served hs hm)
  exact hk.step hR hg hs hm

theorem deviceIndex_bounded {i : Nat} (h : deviceIndex M i) : userIndex ≤ i ∧ i < 1024 := by
  obtain ⟨v, hv, hu, he⟩ := id h
  exact ⟨he ▸ page_index hu, deviceIndex_lt h⟩

def anyRun (M : Machine) : Regime where
  sealed := False
  tight := False
  kept := fun _ => True
  device := deviceIndex M
  bounded := fun _ => deviceIndex_bounded

/- The regime of runs in which no user table is made below USER_FUNC_VADDR. -/
def sealedRun (M : Machine) : Regime where
  sealed := True
  tight := False
  kept := fun _ => True
  device := deviceIndex M
  bounded := fun _ => deviceIndex_bounded

theorem anyRun_loadable {P : Nat} {m : Memory} (hfur : Furnished (anyRun M) P m) (page n : Nat) :
    Loadable (anyRun M) P page n m :=
  ⟨hfur, fun _ _ _ ht => ht, fun ht => ht.elim, fun hs => hs.elim, fun ht => ht.elim⟩

theorem anyRun_admits (M : Machine) : Admits (anyRun M) anyStep where
  plain := fun _ _ _ _ _ _ ht => ht.elim
  fits := fun _ _ _ _ h _ _ cur hc _ => anyRun_loadable (h.furnished cur hc) _ _
  stays := fun ht => ht.elim

theorem boot_sound {M : Machine} {R : Regime} (hk : ∀ f, R.kept f)
    (hdev : ∀ i, R.device i ↔ deviceIndex M i)
    (hm : (bootKernel M).memory.exhausted = false) : ∃ own, Sound R (bootKernel M) own := by
  obtain ⟨own, h⟩ := boot_booted hk hdev hm
  exact ⟨own, h.sound hdev⟩

theorem run_served {guard : Kernel → Action → Prop} (h : Reach kernelStep guard k₀ k)
    (hm : k.memory.exhausted = false) : k₀.memory.exhausted = false := by
  refine h.invariant (fun k => k.memory.exhausted = false → k₀.memory.exhausted = false) id ?_ hm
  exact fun _ _ _ ih _ hs hm => ih (kernelStep_served hs hm)

/-- In every run the address spaces are sound until an allocation fails. -/
theorem reach_sound (h : Reach kernelStep anyStep (bootKernel M) k) (hm : k.memory.exhausted = false) :
    ∃ own, Sound (anyRun M) k own :=
  run_sound (boot_sound (fun _ => trivial) (fun _ => Iff.rfl) (run_served h hm))
    (anyRun_admits M) h hm

end Runs

end AdamOS.Paging
