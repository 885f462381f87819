import AdamOS.Kernel.StdinQueue

/-! Register frames over whole runs. Each run carries a history: the context every listed process
is owed, and who has been a ZOMBIE. A process resumes with the frame it is owed as long as
stdin_wake_process writes eax only for a process that is inside a read. -/
namespace AdamOS.Lifecycle
open AdamOS.Process AdamOS.Scheduler AdamOS.ListUpdate AdamOS.Word AdamOS.Transition

structure Traced where
  sched : Sched
  context : Nat → Context
  zombied : Nat → Bool

def isZombie (s : Sched) (a : Nat) : Bool := (s.deref a).any fun p => decide (p.status = .zombie)

def forks (ev : Event) (a : Nat) : Prop := Calls ev .fork ∧ a = ev.env.pcbAddr

instance (ev : Event) (a : Nat) : Decidable (forks ev a) := inferInstanceAs (Decidable (_ ∧ _))

/- One entry and the frame it returns to user mode with. A child starts with the frame fork
   installs; the process that made the entry is owed the frame it entered with. -/
def tracedEntry (x : Traced) (ev : Event) : Option (Traced × Registers) := do
  let out ← handle x.sched ev
  let y : Traced := {
    sched := out.sched
    context := fun a =>
      if forks ev a then ⟨{ ev.regs with eax := 0 }, false⟩
      else if a = x.sched.current then entryContext ev
      else x.context a
    zombied := fun a =>
      !decide (forks ev a) && (x.zombied a || (enters x.sched ev).any (isZombie · a) ||
        isZombie out.sched a) }
  return (y, out.regs)

def tracedStep (x : Traced) (ev : Event) : Option Traced := (tracedEntry x ev).map Prod.fst

def tracedBoot (c : BootConfig) : Traced where
  sched := boot c
  context := fun _ => ⟨makeInitialRegisters c.eflags, false⟩
  zombied := fun _ => false

def insideRead (x : Traced) (a : Nat) : Prop :=
  (x.context a).syscall ∧ Syscall.ofNumber (x.context a).frame.eax = some .read

instance (x : Traced) (a : Nat) : Decidable (insideRead x a) := inferInstanceAs (Decidable (_ ∧ _))

/- stdin_wake_process delivers only to a process that is inside a read, or has been a ZOMBIE. -/
def DeliversToReader (x : Traced) (ev : Event) : Prop :=
  ∀ u ∈ wakeCall x.sched ev, ∀ a ∈ queued u, isZombie u u.current = false →
    x.zombied a = true ∨ a ≠ u.current ∧ insideRead x a

instance (x : Traced) (ev : Event) : Decidable (DeliversToReader x ev) :=
  match h : wakeCall x.sched ev with
  | none => .isTrue (by simp [DeliversToReader, h])
  | some u =>
    match h' : queued u with
    | none => .isTrue (by simp [DeliversToReader, h, h'])
    | some a =>
      decidable_of_iff (isZombie u u.current = false →
        x.zombied a = true ∨ a ≠ u.current ∧ insideRead x a) (by simp [DeliversToReader, h, h'])

/- The process that resumes gets the frame it is owed, unless it has been a ZOMBIE, and its own
   pages and kernel stack. -/
def ContextKept (y : Traced) (regs : Registers) : Prop :=
  ∀ p ∈ y.sched.procs, p.addr = y.sched.current →
    (y.zombied p.addr = false → (y.context p.addr).Resumes regs) ∧
      y.sched.cr3 = p.pageDirectory ∧ y.sched.esp0 = p.kernelStack

instance (y : Traced) (regs : Registers) : Decidable (ContextKept y regs) :=
  inferInstanceAs (Decidable (∀ p ∈ _, _ → _))

structure Owed (x : Traced) : Prop where
  sane : Sane x.sched
  saved : ∀ p ∈ x.sched.procs, p.addr ≠ x.sched.current → x.zombied p.addr = false →
    (x.context p.addr).Resumes p.registers
  zombied : ∀ p ∈ x.sched.procs, p.status = .zombie → x.zombied p.addr = true
  loaded : ∀ p ∈ x.sched.procs, p.addr = x.sched.current →
    x.sched.cr3 = p.pageDirectory ∧ x.sched.esp0 = p.kernelStack

theorem boot_owed (c : BootConfig) : Owed (tracedBoot c) where
  sane := boot_sane c
  saved := by
    intro p hp _ _
    have hmem : p = setStatus .running (bootMain c) ∨ p = bootIdle c := by
      simpa [tracedBoot, boot] using hp
    cases hmem with
    | inl h => exact .inl (h ▸ rfl)
    | inr h => exact .inl (h ▸ rfl)
  zombied := fun p hp hz => absurd hz (boot_awake c p hp).2
  loaded := by
    intro p hp ha
    have hmem : p = setStatus .running (bootMain c) ∨ p = bootIdle c := by
      simpa [tracedBoot, boot] using hp
    cases hmem with
    | inl h => exact h ▸ ⟨rfl, rfl⟩
    | inr h => exact absurd ((congrArg Pcb.addr h).symm.trans ha).symm c.distinct

/-! ### The history -/

theorem isZombie_of {s : Sched} (hl : Listed s) {p : Pcb} (hp : p ∈ s.procs)
    (hz : p.status = .zombie) : isZombie s p.addr = true := by
  simp [isZombie, Sched.deref_of_mem hl.nodup hp, hz]

theorem Context.Resumes.eax {c : Context} {regs : Registers} (h : c.Resumes regs)
    (ha : c.answers = true) (n : Nat) : c.Resumes { regs with eax := n } := by
  cases h with
  | inl h => exact .inr ⟨ha, by rw [h]⟩
  | inr h => exact .inr ⟨ha, by rw [h.2]⟩

theorem insideRead.answers {x : Traced} {a : Nat} (h : insideRead x a) :
    (x.context a).answers = true := by
  simp [Context.answers, h.1, h.2]

structure Notes (x : Traced) (ev : Event) (y : Traced) : Prop where
  context : ∀ a, ¬forks ev a → a ≠ x.sched.current → y.context a = x.context a
  current : ¬forks ev x.sched.current → y.context x.sched.current = entryContext ev
  earlier : ∀ a, ¬forks ev a → y.zombied a = false → x.zombied a = false
  entered : ∀ a, ¬forks ev a → y.zombied a = false → ∀ u, enters x.sched ev = some u →
    isZombie u a = false
  listed : ∀ a, ¬forks ev a → isZombie y.sched a = true → y.zombied a = true

theorem tracedEntry_spec {x y : Traced} {ev : Event} {regs : Registers}
    (h : tracedEntry x ev = some (y, regs)) :
    ∃ out, handle x.sched ev = some out ∧ y.sched = out.sched ∧ regs = out.regs ∧ Notes x ev y ∧
      ∀ a, forks ev a → y.context a = ⟨{ ev.regs with eax := 0 }, false⟩ ∧ y.zombied a = false := by
  obtain ⟨out, hout, h1⟩ := Option.bind_eq_some_iff.mp h
  cases h1
  refine ⟨out, hout, rfl, rfl, ⟨?_, ?_, ?_, ?_, ?_⟩, ?_⟩
  · intro a hf hne
    simp [hf, hne]
  · intro hf
    simp [hf]
  · intro a hf hz
    simp only [hf, decide_false, Bool.not_false, Bool.true_and, Bool.or_eq_false_iff] at hz
    exact hz.1.1
  · intro a hf hz u hu
    simp only [hf, decide_false, Bool.not_false, Bool.true_and, Bool.or_eq_false_iff, hu,
      Option.any_some] at hz
    exact hz.1.2
  · intro a hf hz
    simp [hf, hz]
  · intro a hf
    simp [hf]

/-! ### The effects -/

section Step
variable {x y : Traced} {ev : Event} {regs : Registers}

theorem Owed.zombied_of (hy : Sane y.sched) (hn : Notes x ev y) (hf : ¬Calls ev .fork) {q : Pcb}
    (hq : q ∈ y.sched.procs) (hz : q.status = .zombie) : y.zombied q.addr = true :=
  hn.listed _ (fun h => hf h.1) (isZombie_of hy.listed hq hz)

structure SameContext (p q : Pcb) : Prop where
  addr : q.addr = p.addr
  registers : q.registers = p.registers
  pageDirectory : q.pageDirectory = p.pageDirectory
  kernelStack : q.kernelStack = p.kernelStack
  asleep : q.status = .waiting → p.status = .waiting

theorem SameContext.of_assets {p q : Pcb} (ha : q.addr = p.addr) (hr : q.registers = p.registers)
    (h : assets q = assets p) (hw : q.status = .waiting → p.status = .waiting) : SameContext p q :=
  ⟨ha, hr, congrArg Assets.pageDirectory h, congrArg Assets.kernelStack h, hw⟩

/-- An entry that goes back to its process with a frame it may have. -/
theorem Owed.stays (ho : Owed x) (hy : Sane y.sched) (hn : Notes x ev y) (hf : ¬Calls ev .fork)
    (hp : ∀ q ∈ y.sched.procs, ∃ p ∈ x.sched.procs, SameContext p q)
    (hc : y.sched.current = x.sched.current) (h0 : y.sched.esp0 = x.sched.esp0)
    (h3 : y.sched.cr3 = x.sched.cr3) (hr : (entryContext ev).Resumes regs) :
    Owed y ∧ ContextKept y regs := by
  have hloaded : ∀ q ∈ y.sched.procs, q.addr = y.sched.current →
      y.sched.cr3 = q.pageDirectory ∧ y.sched.esp0 = q.kernelStack := by
    intro q hq hqa
    obtain ⟨p, hpm, hs⟩ := hp q hq
    rw [h3, h0, hs.pageDirectory, hs.kernelStack]
    exact ho.loaded p hpm (hs.addr.symm.trans (hqa.trans hc))
  refine ⟨⟨hy, ?_, fun q hq => Owed.zombied_of hy hn hf hq, hloaded⟩, ?_⟩
  · intro q hq hqa hz
    obtain ⟨p, hpm, hs⟩ := hp q hq
    have hfa : ¬forks ev q.addr := fun h => hf h.1
    rw [hn.context _ hfa (hc ▸ hqa), hs.registers, hs.addr]
    exact ho.saved p hpm (by rw [← hs.addr, ← hc]; exact hqa)
      (hn.earlier _ (hs.addr ▸ hfa) (hs.addr ▸ hz))
  · intro q hq hqa
    refine ⟨fun _ => ?_, hloaded q hq hqa⟩
    rw [hqa, hc, hn.current fun h => hf h.1]
    exact hr

theorem Quiet.sameContext {s t : Sched} (h : Quiet s t) :
    ∀ q ∈ t.procs, ∃ p ∈ s.procs, SameContext p q := by
  obtain ⟨f, hp, hf⟩ := h.procs
  intro q hq
  rw [hp] at hq
  obtain ⟨p, hpm, rfl⟩ := List.mem_map.mp hq
  exact ⟨p, hpm, by rw [hf p], by rw [hf p], by rw [hf p], by rw [hf p], by rw [hf p]; exact id⟩

theorem removed_sameContext {s : Sched} {pid : Nat} {r : Removal} (h : Removed pid s r) :
    (∀ q ∈ r.sched.procs, ∃ p ∈ s.procs, SameContext p q) ∧ r.sched.current = s.current ∧
      r.sched.esp0 = s.esp0 ∧ r.sched.cr3 = s.cr3 := by
  cases h with
  | refused => exact ⟨fun q hq => ⟨q, hq, rfl, rfl, rfl, rfl, id⟩, rfl, rfl, rfl⟩
  | self =>
    refine ⟨fun q hq => ?_, rfl, rfl, rfl⟩
    obtain ⟨p, hp, rfl⟩ := List.mem_map.mp hq
    refine ⟨p, hp, .of_assets (by simp) (by simp) (by simp) fun hw => ?_⟩
    by_cases hpa : p.addr = s.current
    · rw [onAddr_of_eq hpa] at hw
      cases hw
    · rwa [onAddr_of_ne hpa] at hw
  | absent _ _ _ _ _ hf =>
    refine ⟨fun q hq => ?_, rfl, rfl, rfl⟩
    obtain ⟨p, hp, rfl⟩ := List.mem_map.mp hq
    have hh := hf p hp
    exact ⟨p, hp, .of_assets hh.addr hh.registers hh.assets fun hw => hh.status ▸ hw⟩
  | gone _ _ _ _ _ _ hf =>
    refine ⟨fun q hq => ?_, rfl, rfl, rfl⟩
    obtain ⟨p, hpf, rfl⟩ := List.mem_map.mp hq
    have hp := (List.mem_filter.mp hpf).1
    have hh := hf p hp
    exact ⟨p, hp, .of_assets hh.addr hh.registers hh.assets fun hw => hh.status ▸ hw⟩

theorem Interrupted.sameContext {s t : Sched} (h : Interrupted s t) :
    ∀ q ∈ t.procs, ∃ p ∈ s.procs, SameContext p q := by
  intro q hq
  rw [h.procs] at hq
  obtain ⟨p, hp, rfl⟩ := List.mem_map.mp hq
  by_cases hf : foreground s = some p.addr
  · rw [interrupted_of hf]
    exact ⟨p, hp, rfl, rfl, rfl, rfl, fun hw => by cases hw⟩
  · rw [interrupted_of_not hf]
    exact ⟨p, hp, rfl, rfl, rfl, rfl, id⟩

theorem fork_owed {child : Pcb} (ho : Owed x) (hy : Sane y.sched) (hn : Notes x ev y)
    (hcall : Calls ev .fork) (hc : Child x.sched ev child)
    (hfork : ∀ a, forks ev a → y.context a = ⟨{ ev.regs with eax := 0 }, false⟩ ∧
      y.zombied a = false)
    (hp : y.sched.procs = x.sched.procs ++ [child]) (hcur : y.sched.current = x.sched.current)
    (h0 : y.sched.esp0 = x.sched.esp0) (h3 : y.sched.cr3 = x.sched.cr3)
    (hr : (entryContext ev).Resumes regs) : Owed y ∧ ContextKept y regs := by
  have hmem : ∀ q ∈ y.sched.procs, q = child ∨ q ∈ x.sched.procs ∧ ¬forks ev q.addr := by
    intro q hq
    rw [hp] at hq
    cases List.mem_append.mp hq with
    | inl h =>
      refine .inr ⟨h, fun hf => hc.fresh ?_⟩
      rw [hc.addr, ← hf.2]
      exact List.mem_map_of_mem h
    | inr h => exact .inl (List.mem_singleton.mp h)
  obtain ⟨cur, hcm, hca⟩ := ho.sane.listed.current
  have hchild : child.addr ≠ y.sched.current := by
    intro he
    rw [hcur, ← hca] at he
    exact hc.fresh (he ▸ List.mem_map_of_mem hcm)
  have hforks : forks ev child.addr := ⟨hcall, hc.addr⟩
  have hloaded : ∀ q ∈ y.sched.procs, q.addr = y.sched.current →
      y.sched.cr3 = q.pageDirectory ∧ y.sched.esp0 = q.kernelStack := by
    intro q hq hqa
    cases hmem q hq with
    | inl h => exact absurd (h ▸ hqa) hchild
    | inr h =>
      rw [h3, h0]
      exact ho.loaded q h.1 (hqa.trans hcur)
  refine ⟨⟨hy, ?_, ?_, hloaded⟩, ?_⟩
  · intro q hq hqa hz
    cases hmem q hq with
    | inl h =>
      rw [h, (hfork _ hforks).1]
      exact .inl hc.registers
    | inr h =>
      rw [hn.context _ h.2 (hcur ▸ hqa)]
      exact ho.saved q h.1 (hcur ▸ hqa) (hn.earlier _ h.2 hz)
  · intro q hq hz
    cases hmem q hq with
    | inl h => simp [h, hc.status] at hz
    | inr h => exact hn.listed _ h.2 (isZombie_of hy.listed hq hz)
  · intro q hq hqa
    refine ⟨fun _ => ?_, hloaded q hq hqa⟩
    have hcf : ¬forks ev x.sched.current := fun h => hchild (hc.addr.trans (hcur ▸ h.2.symm))
    rw [hqa, hcur, hn.current hcf]
    exact hr

theorem Caller.not_fork {s : Sched} {cur : Pcb} {f : Pcb → Pcb} (h : Caller s ev cur f) :
    ¬Calls ev .fork ∧ ¬Calls ev .exec := by
  cases h with
  | timer he => simp [Calls, he]
  | spared hc | exit hc | wait hc | sleep hc | read hc =>
    exact ⟨not_calls hc (by decide), not_calls hc (by decide)⟩

section entered
variable {u : Sched} {cur p q : Pcb} {f : Pcb → Pcb} {c : Nat}

theorem Entered.caller_addr {s : Sched} (h : Entered s ev cur f u) : (f cur).addr = u.current :=
  (h.caller.keeps.addr cur).trans (h.addr.trans h.current.symm)

/-- The process that entered is owed the frame it entered with. -/
theorem Entered.own_resumes (h : Entered x.sched ev cur f u) (hn : Notes x ev y) :
    (y.context u.current).Resumes ev.regs := by
  obtain ⟨hnf, hnx⟩ := h.caller.not_fork
  rw [h.current, hn.current fun hf => hnf hf.1]
  exact Context.resumes_same hnx

/-- Any other process has the frame it had, and is owed the same. -/
theorem Entered.other_resumes (h : Entered x.sched ev cur f u) (ho : Owed x) (hn : Notes x ev y)
    (hp : p ∈ u.procs) (hm : Moved u regs c p q) (hqa : q.addr ≠ u.current)
    (hz : y.zombied q.addr = false) : (y.context q.addr).Resumes q.registers := by
  have hf : ∀ a, ¬forks ev a := fun a hf => h.caller.not_fork.1 hf.1
  have hpa : p.addr ≠ u.current := hm.addr ▸ hqa
  cases (h.mem_iff ho.sane.listed).mp hp with
  | inl he => exact absurd (he ▸ h.caller_addr) hpa
  | inr he =>
    rw [hn.context _ (hf _) (h.current ▸ hqa), hm.registers hpa, hm.addr]
    exact ho.saved p he.1 he.2 (hn.earlier _ (hf _) (hm.addr ▸ hz))

theorem Entered.assets_kept (h : Entered x.sched ev cur f u) (hp : p ∈ u.procs)
    (hm : Moved u regs c p q) : ∃ r ∈ x.sched.procs, q.addr = r.addr ∧
      q.pageDirectory = r.pageDirectory ∧ q.kernelStack = r.kernelStack := by
  have hk := h.caller.keeps
  rw [h.procs] at hp
  obtain ⟨r, hr, rfl⟩ := List.mem_map.mp hp
  have ha := hm.assets.trans (onAddr_field assets f hk.assets _ _)
  exact ⟨r, hr, hm.addr.trans (onAddr_field Pcb.addr f hk.addr _ _),
    congrArg Assets.pageDirectory ha, congrArg Assets.kernelStack ha⟩

end entered

/-- An entry that calls update_scheduler leaves the interrupted process its frame, and resumes
any other with the frame saved for it. -/
theorem schedule_owed {u : Sched} {out : Outcome} (ho : Owed x) (hy : Sane y.sched)
    (hn : Notes x ev y) (he : enters x.sched ev = some u) (hs : y.sched = out.sched)
    (hu : updateScheduler ev.env.dyingParent ev.regs u = some out) (h0 : u.esp0 = x.sched.esp0)
    (h3 : u.cr3 = x.sched.cr3) : Owed y ∧ ContextKept y out.regs := by
  obtain ⟨cur, f, hent⟩ := enters_spec ho.sane.listed he
  have hlu := hent.listed ho.sane.listed
  have hnf := hent.caller.not_fork.1
  have hf : ∀ a, ¬forks ev a := fun a h => hnf h.1
  have hcm : f cur ∈ u.procs := (hent.mem_iff ho.sane.listed).mpr (.inl rfl)
  have hca := hent.caller_addr
  obtain ⟨hround, -⟩ := updateScheduler_round hlu hu
  have hown : ∀ a, y.zombied a = false → a = u.current → (f cur).status ≠ .zombie := by
    intro a hz ha hzc
    have hzu := hn.entered a (hf a) hz u he
    rw [ha, ← hca, isZombie_of hlu hcm hzc] at hzu
    cases hzu
  have hmine := hent.own_resumes hn
  have hother : ∀ q ∈ y.sched.procs, q.addr ≠ u.current → y.zombied q.addr = false →
      (y.context q.addr).Resumes q.registers := by
    intro q hq hqa hz
    obtain ⟨p, hp, hm⟩ := round_asleep hlu hround (hs ▸ hq)
    exact hent.other_resumes ho hn hp hm hqa hz
  have hzombied : ∀ q ∈ y.sched.procs, q.status = .zombie → y.zombied q.addr = true :=
    fun q hq => Owed.zombied_of hy hn hnf hq
  cases updateScheduler_resumed hlu hcm hca hu with
  | inl h =>
    obtain ⟨hcur, hregs, hesp, hcr3⟩ := h
    rw [← hs] at hcur hesp hcr3
    have hloaded : ∀ q ∈ y.sched.procs, q.addr = y.sched.current →
        y.sched.cr3 = q.pageDirectory ∧ y.sched.esp0 = q.kernelStack := by
      intro q hq hqa
      obtain ⟨r, hr, hm⟩ := round_asleep hlu hround (hs ▸ hq)
      obtain ⟨p, hp, hpa, hpd, hks⟩ := hent.assets_kept hr hm
      rw [hcr3, hesp, h3, h0, hpd, hks]
      exact ho.loaded p hp (hpa.symm.trans (hqa.trans (hcur.trans hent.current)))
    refine ⟨⟨hy, fun q hq hqa => hother q hq (hcur ▸ hqa), hzombied, hloaded⟩, ?_⟩
    intro q hq hqa
    refine ⟨fun _ => ?_, hloaded q hq hqa⟩
    rw [hqa, hcur, hregs]
    exact hmine
  | inr h =>
    obtain ⟨⟨n, hnm, hna, hregs, hesp, hcr3⟩, hback⟩ := h
    rw [← hs] at hnm hna hesp hcr3 hback
    have hcurrent : ∀ q ∈ y.sched.procs, q.addr = y.sched.current → q = n :=
      fun q hq hqa => addr_inj hy.listed.nodup hq hnm (hqa.trans hna.symm)
    have hloaded : ∀ q ∈ y.sched.procs, q.addr = y.sched.current →
        y.sched.cr3 = q.pageDirectory ∧ y.sched.esp0 = q.kernelStack := by
      intro q hq hqa
      rw [hcurrent q hq hqa]
      exact ⟨hcr3, hesp⟩
    refine ⟨⟨hy, ?_, hzombied, hloaded⟩, ?_⟩
    · intro q hq hqa hz
      by_cases hqu : q.addr = u.current
      · obtain ⟨p, hp, hm⟩ := round_asleep hlu hround (hs ▸ hq)
        have hpu : p.addr = u.current := hm.addr ▸ hqu
        have hpz : p.status ≠ .zombie := by
          rw [addr_inj hlu.nodup hp hcm (hpu.trans hca.symm)]
          exact hown _ hz hqu
        have hne : out.sched.current ≠ u.current := fun h => hqa (by rw [hqu, hs, h])
        rw [hm.saved hpu hpz hne, hqu]
        exact hmine
      · exact hother q hq hqu hz
    · intro q hq hqa
      refine ⟨fun hz => ?_, hloaded q hq hqa⟩
      by_cases hqu : q.addr = u.current
      · rw [hback (hqa.symm.trans hqu) (hown _ hz hqu), hqu]
        exact hmine
      · rw [hregs, ← hcurrent q hq hqa]
        exact hother q hq hqu hz

/-- stdin_wake_process goes back to the interrupted process with the frame just saved for it. -/
theorem stdinWakeProcess_resumed {s : Sched} {out : Outcome} (hl : Listed s)
    (h : stdinWakeProcess regs s = some out) :
    (out.sched = s ∧ out.regs = regs) ∨
      Loads out.sched out.regs ∧ ∃ a p, Delivery s regs a p out.sched := by
  obtain ⟨cur, hc, ha, hcur⟩ := currentProcess_eq hl
  have hcases := stdinWakeProcess_cases hl h
  simp only [stdinWakeProcess, hcur, Option.bind_eq_bind, Option.bind_some] at h
  by_cases hz : cur.status = .zombie
  · rw [if_pos hz] at h
    cases h
    exact .inl ⟨rfl, rfl⟩
  rw [if_neg hz] at h
  obtain ⟨a, hslot, h1⟩ := Option.bind_eq_some_iff.mp h
  obtain ⟨p, _, h2⟩ := Option.bind_eq_some_iff.mp h1
  obtain ⟨cur', hcur', h3⟩ := Option.bind_eq_some_iff.mp h2
  obtain ⟨hcm, hca⟩ := Sched.deref_mem hcur'
  cases h3
  refine .inr ⟨⟨cur', hcm, hca, rfl, rfl, rfl⟩, ?_⟩
  cases hcases with
  | inl he =>
    have hnone : none = s.stdin.waitQueue.process :=
      congrArg (fun t : Sched => t.stdin.waitQueue.process) he
    rw [← hnone] at hslot
    cases hslot
  | inr hd => exact hd

theorem delivered_registers {rs : Registers} {c a n : Nat} {p : Pcb} :
    (delivered rs c a n p).registers =
      if p.addr = a then { (onAddr c (setRegisters rs) p).registers with eax := n }
      else (onAddr c (setRegisters rs) p).registers := by
  by_cases h : p.addr = a
  · rw [delivered_at h, if_pos h]
    rfl
  · rw [delivered, onAddr_of_ne (by simpa using h), if_neg h]

/-- stdin_wake_process delivers nothing while the current process is a ZOMBIE. -/
theorem Delivery.lively {s t : Sched} {a : Nat} {p : Pcb} (hl : Listed s)
    (h : Delivery s regs a p t) : isZombie s s.current = false := by
  obtain ⟨cur, hc, ha, hcur⟩ := currentProcess_eq hl
  have hz := h.live cur hc ha
  rw [isZombie]
  rw [Sched.currentProcess] at hcur
  simp [hcur, hz]

/-- A delivery to a process inside a read disturbs no frame. -/
theorem delivery_owed {s : Sched} {a : Nat} {p : Pcb} (ho : Owed x) (hy : Sane y.sched)
    (hn : Notes x ev y) (hnc : ∀ sc, ¬Calls ev sc) (hprocs : s.procs = x.sched.procs)
    (hcur : s.current = x.sched.current) (hd : Delivery s ev.regs a p y.sched)
    (hl : Loads y.sched regs)
    (hg : x.zombied a = true ∨ a ≠ x.sched.current ∧ insideRead x a) :
    Owed y ∧ ContextKept y regs := by
  obtain ⟨n, hnm, hna, hregs, hesp, hcr3⟩ := hl
  have hf : ∀ b, ¬forks ev b := fun b h => hnc _ h.1
  have hyc : y.sched.current = x.sched.current := hd.current.trans hcur
  have hcurrent : ∀ q ∈ y.sched.procs, q.addr = y.sched.current → q = n :=
    fun q hq hqa => addr_inj hy.listed.nodup hq hnm (hqa.trans hna.symm)
  have hloaded : ∀ q ∈ y.sched.procs, q.addr = y.sched.current →
      y.sched.cr3 = q.pageDirectory ∧ y.sched.esp0 = q.kernelStack := by
    intro q hq hqa
    rw [hcurrent q hq hqa]
    exact ⟨hcr3, hesp⟩
  have hmem : ∀ q ∈ y.sched.procs, ∃ r ∈ x.sched.procs,
      q = delivered ev.regs s.current a (deliveredCount s.stdin) r := by
    intro q hq
    rw [hd.procs, hprocs] at hq
    obtain ⟨r, hr, rfl⟩ := List.mem_map.mp hq
    exact ⟨r, hr, rfl⟩
  refine ⟨⟨hy, ?_, fun q hq => Owed.zombied_of hy hn (hnc _) hq, hloaded⟩, ?_⟩
  · intro q hq hqa hz
    obtain ⟨r, hr, rfl⟩ := hmem q hq
    rw [delivered_addr] at hqa hz ⊢
    have hra : r.addr ≠ x.sched.current := hyc ▸ hqa
    have hzx := hn.earlier _ (hf _) hz
    have hsaved := ho.saved r hr hra hzx
    rw [hn.context _ (hf _) hra, delivered_registers, onAddr_of_ne (hcur ▸ hra)]
    by_cases hrt : r.addr = a
    · have hread := hg.resolve_left (by rw [← hrt, hzx]; decide)
      rw [if_pos hrt]
      exact hsaved.eax (hrt ▸ hread.2.answers) _
    · rw [if_neg hrt]
      exact hsaved
  · intro q hq hqa
    refine ⟨fun hz => ?_, hloaded q hq hqa⟩
    rw [hregs, ← hcurrent q hq hqa]
    obtain ⟨r, hr, rfl⟩ := hmem q hq
    rw [delivered_addr] at hqa hz ⊢
    have hra : r.addr = x.sched.current := hqa.trans hyc
    have hrt : r.addr ≠ a := by
      intro hrt
      cases hg with
      | inl h =>
        have := hn.earlier _ (hf _) hz
        rw [hrt, h] at this
        cases this
      | inr h => exact h.1 (hrt.symm.trans hra)
    rw [delivered_registers, if_neg hrt, onAddr_of_eq (hra.trans hcur.symm), hra, hn.current (hf _)]
    exact Context.resumes_same (hnc _)

theorem enters_loads {s u : Sched} (he : enters s ev = some u) : u.esp0 = s.esp0 ∧ u.cr3 = s.cr3 := by
  obtain ⟨cur, hcur, h⟩ := Option.bind_eq_some_iff.mp he
  split at h
  · cases h; exact ⟨rfl, rfl⟩
  · cases h
  · split at h
    · split at h <;> (cases h; exact ⟨rfl, rfl⟩)
    · cases h; exact ⟨rfl, rfl⟩
    · split at h <;> cases h
      exact ⟨rfl, rfl⟩
    · split at h <;> cases h
      exact ⟨rfl, rfl⟩
    · cases h

theorem step_owed (ho : Owed x) (hg : DeliversToReader x ev)
    (h : tracedEntry x ev = some (y, regs)) : Owed y ∧ ContextKept y regs := by
  obtain ⟨out, hout, hs, rfl, hn, hfork⟩ := tracedEntry_spec h
  have hy : Sane y.sched := by
    rw [hs]
    exact step_sane ho.sane (by rw [step, hout]; rfl)
  have heff := handle_effect ho.sane.listed hout
  obtain ⟨t, regs, released⟩ := out
  cases heff with
  | quiet hq _ hr =>
    exact ho.stays hy hn hr.1 (hs ▸ hq.sameContext) (hs ▸ hq.current) (hs ▸ hq.esp0)
      (hs ▸ hq.cr3) hr.2
  | schedule he hu =>
    obtain ⟨h0, h3⟩ := enters_loads he
    exact schedule_owed ho hy hn he hs hu h0 h3
  | @fork _ child hcall hc hp hcur _ _ _ _ _ h0 h3 =>
    have hr : (entryContext ev).Resumes { ev.regs with eax := child.pid } :=
      Context.resumes_call hcall (by decide) _
    exact fork_owed ho hy hn hcall hc hfork (hs ▸ hp) (hs ▸ hcur) (hs ▸ h0) (hs ▸ h3) hr
  | kill hcall hrem =>
    obtain ⟨hp, hcur, h0, h3⟩ := removed_sameContext hrem
    exact ho.stays hy hn (not_calls hcall (by decide)) (hs ▸ hp) (hs ▸ hcur) (hs ▸ h0) (hs ▸ h3)
      (Context.resumes_call hcall (by decide) _)
  | interrupt he hc hi =>
    have hnc : ∀ sc, ¬Calls ev sc := fun sc hcall => by simp [Calls, he] at hcall
    have hr := Context.resumes_same (hnc .exec)
    cases sigintForeground_cases ho.sane.listed hi with
    | inl hq =>
      exact ho.stays hy hn (hnc _) (hs ▸ hq.sameContext) (hs ▸ hq.current) (hs ▸ hq.esp0)
        (hs ▸ hq.cr3) hr
    | inr hi =>
      exact ho.stays hy hn (hnc _) (hs ▸ hi.sameContext) (hs ▸ hi.current) (hs ▸ hi.esp0)
        (hs ▸ hi.cr3) hr
  | @wake out scancode focused he hq hw hcall =>
    have hnc : ∀ sc, ¬Calls ev sc := fun sc hcall => by simp [Calls, he] at hcall
    have hlu := (hq.sane ho.sane).listed
    cases stdinWakeProcess_resumed hlu hw with
    | inl h =>
      obtain ⟨hsame, hregs⟩ := h
      rw [hsame] at hs
      rw [hregs]
      exact ho.stays hy hn (hnc _) (hs ▸ hq.sameContext) (hs ▸ hq.current) (hs ▸ hq.esp0)
        (hs ▸ hq.cr3) (Context.resumes_same (hnc .exec))
    | inr h =>
      obtain ⟨hloads, a, p, hd⟩ := h
      have hslot := hg _ hcall a hd.slot (hd.lively hlu)
      rw [hq.current] at hslot
      exact delivery_owed ho hy hn hnc (handleInput_procs ..) hq.current (hs ▸ hd) (hs ▸ hloads)
        hslot

end Step

/- stdin_wake_process delivers only to a WAITING process. -/
def DeliversToWaiting (s : Sched) (ev : Event) : Prop :=
  ∀ u ∈ wakeCall s ev, isZombie u u.current = false →
    ∀ p ∈ u.procs, queued u = some p.addr → p.status = .waiting

instance (s : Sched) (ev : Event) : Decidable (DeliversToWaiting s ev) :=
  match h : wakeCall s ev with
  | none => .isTrue (by simp [DeliversToWaiting, h])
  | some u =>
    decidable_of_iff (isZombie u u.current = false →
      ∀ p ∈ u.procs, queued u = some p.addr → p.status = .waiting) (by simp [DeliversToWaiting, h])

/- What an entry leaves of a process that neither runs nor waits. -/
structure Rests (p q : Pcb) (out : Outcome) : Prop where
  registers : q.registers = p.registers
  awake : q.status ≠ .waiting
  resumed : q.addr = out.sched.current → out.regs = p.registers

section rests
variable {s : Sched} {out : Outcome} {ev : Event} {p q : Pcb}

theorem SameContext.rests (hs : Sane s) (hc : out.sched.current = s.current)
    (h : ∃ r ∈ s.procs, SameContext r q) (hp : p ∈ s.procs) (ha : q.addr = p.addr)
    (hne : p.addr ≠ s.current) (hw : p.status ≠ .waiting) : Rests p q out := by
  obtain ⟨r, hr, hsame⟩ := h
  have hrp : r = p := addr_inj hs.listed.nodup hr hp (hsame.addr.symm.trans ha)
  rw [hrp] at hsame
  exact ⟨hsame.registers, fun h => hw (hsame.asleep h), fun h => absurd (ha.symm.trans (h.trans hc)) hne⟩

theorem schedule_rests {u : Sched} (hs : Sane s) (hy : Sane out.sched) (he : enters s ev = some u)
    (hu : updateScheduler ev.env.dyingParent ev.regs u = some out) (hp : p ∈ s.procs)
    (hq : q ∈ out.sched.procs) (ha : q.addr = p.addr) (hne : p.addr ≠ s.current)
    (hw : p.status ≠ .waiting) : Rests p q out := by
  obtain ⟨cur, f, hent⟩ := enters_spec hs.listed he
  have hlu := hent.listed hs.listed
  have hcm : f cur ∈ u.procs := (hent.mem_iff hs.listed).mpr (.inl rfl)
  obtain ⟨hround, -⟩ := updateScheduler_round hlu hu
  obtain ⟨r, hr, hm⟩ := round_asleep hlu hround hq
  have hra : r.addr = p.addr := hm.addr.symm.trans ha
  have hrp : r = p := by
    cases (hent.mem_iff hs.listed).mp hr with
    | inl h =>
      rw [h, hent.caller_addr, hent.current] at hra
      exact absurd hra.symm hne
    | inr h => exact addr_inj hs.listed.nodup h.1 hp hra
  rw [hrp] at hm
  have hreg : q.registers = p.registers := hm.registers (hent.current ▸ hne)
  refine ⟨hreg, fun h => hw (hm.asleep h).1, fun hcur => ?_⟩
  cases updateScheduler_resumed hlu hcm hent.caller_addr hu with
  | inl h => exact absurd (ha.symm.trans (hcur.trans (h.1.trans hent.current))) hne
  | inr h =>
    obtain ⟨⟨n, hn, hna, hregs, -⟩, -⟩ := h
    rw [hregs, addr_inj hy.listed.nodup hn hq (hna.trans hcur.symm), hreg]

/-- A process that neither runs nor waits keeps its frame, and is resumed with it. -/
theorem handle_rests (hs : Sane s) (hg : DeliversToWaiting s ev) (h : handle s ev = some out)
    (hp : p ∈ s.procs) (hq : q ∈ out.sched.procs) (ha : q.addr = p.addr) (hne : p.addr ≠ s.current)
    (hw : p.status ≠ .waiting) : Rests p q out := by
  have hy : Sane out.sched := step_sane hs (by rw [step, h]; rfl)
  have heff := handle_effect hs.listed h
  obtain ⟨t, regs, released⟩ := out
  cases heff with
  | quiet hquiet => exact SameContext.rests hs hquiet.current (hquiet.sameContext q hq) hp ha hne hw
  | schedule he hu => exact schedule_rests hs hy he hu hp hq ha hne hw
  | fork _ hchild hprocs hcur =>
    dsimp only at hq
    rw [hprocs] at hq
    cases List.mem_append.mp hq with
    | inl hq => exact SameContext.rests hs hcur ⟨q, hq, rfl, rfl, rfl, rfl, id⟩ hp ha hne hw
    | inr hq =>
      rw [List.mem_singleton.mp hq] at ha
      exact absurd (ha ▸ List.mem_map_of_mem hp) hchild.fresh
  | kill _ hrem =>
    obtain ⟨hsame, hcur, -, -⟩ := removed_sameContext hrem
    exact SameContext.rests hs hcur (hsame q hq) hp ha hne hw
  | interrupt _ _ hi =>
    cases sigintForeground_cases hs.listed hi with
    | inl hi => exact SameContext.rests hs hi.current (hi.sameContext q hq) hp ha hne hw
    | inr hi => exact SameContext.rests hs hi.current (hi.sameContext q hq) hp ha hne hw
  | @wake out scancode focused _ hquiet hwake hcall =>
    have hlu := (hquiet.sane hs).listed
    cases stdinWakeProcess_resumed hlu hwake with
    | inl h =>
      rw [h.1] at hq
      exact SameContext.rests hs (h.1 ▸ hquiet.current) (hquiet.sameContext q hq) hp ha hne hw
    | inr h =>
      obtain ⟨-, a, w, hd⟩ := h
      have hcur : out.sched.current = s.current := hd.current.trans hquiet.current
      rw [hd.procs, handleInput_procs] at hq
      obtain ⟨r, hr, rfl⟩ := List.mem_map.mp hq
      rw [delivered_addr] at ha
      have hrp : r = p := addr_inj hs.listed.nodup hr hp ha
      rw [hrp] at hq ⊢
      have hpa : p.addr ≠ a := by
        intro he
        refine hw (hg _ hcall (hd.lively hlu) p ?_ (he ▸ hd.slot))
        rw [handleInput_procs]
        exact hp
      rw [delivered_ne hpa (by rw [hquiet.current]; exact hne)] at hq ⊢
      exact SameContext.rests hs hcur ⟨p, hp, rfl, rfl, rfl, rfl, id⟩ hp rfl hne hw

end rests

/-! ### A reader, and one whose block is used again -/

/- main reads one character, blocks, and gets it while idle runs. -/
def keyRun : List Event := [call 3 0 1, keyDown 0x1E] ++ List.replicate 19 timerTick

/- 3 blocks in a read; main kills it and forks 4, whose block is the one just freed; a key is
   pressed; idle runs almost to the end of its quantum. -/
def reusedSlotRun : List Event :=
  [forkAt 0x200000] ++ quantum ++ quantum ++
    [call 3 0 1, call 12 3 0, forkAt 0x200000, keyDown 0x1E] ++ quantum ++ List.replicate 19 timerTick

end AdamOS.Lifecycle
