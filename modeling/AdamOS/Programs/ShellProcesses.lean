import AdamOS.Files.Fat16
import AdamOS.Kernel.Contexts

/-! shell.c: dispatch, handle_exec and handle_fork over the processes of the kernel. Both copies of a
forked shell return from the same handle_fork; the child leaves the shell only through exec. -/
namespace AdamOS.Shell
open AdamOS.Fat16 AdamOS.Lifecycle AdamOS.ListUpdate AdamOS.Process AdamOS.Scheduler
open AdamOS.Transition AdamOS.Word

/-! ### Command lines -/

def ascii (s : String) : List UInt8 := s.toList.map fun c => UInt8.ofNat c.toNat

/- The first n characters agree, and no string ends among them. -/
def strncmp : List UInt8 → List UInt8 → Nat → Bool
  | _, _, 0 => true
  | a :: as, b :: bs, n+1 => a = b && strncmp as bs n
  | _, _, _ => false

inductive Command where
  | clear | help | ls | ps
  | exec (fileName arg : List UInt8)
  | cd (dir : List UInt8)
  | fork (fileName arg : List UInt8)
  | kill (arg : List UInt8)
  | touch (arg : List UInt8)
  | cat (arg : List UInt8)
  | dump (arg : List UInt8)
  | notFound

/- The comparisons of dispatch; strcmp is true of equal strings. -/
def command (line : CString) : Command :=
  let s := line.chars
  if s = ascii "clear" then .clear
  else if s = ascii "help" then .help
  else if s = ascii "ls" then .ls
  else if s = ascii "ps" then .ps
  else if strncmp s (ascii "exec ") 5 then .exec (s.drop 5) []
  else if strncmp s (ascii "cd ") 3 then .cd (s.drop 3)
  else if strncmp s (ascii "fork ") 5 then .fork (s.drop 5) []
  else if strncmp s (ascii "kill ") 5 then .kill (s.drop 5)
  else if strncmp s (ascii "touch ") 6 then .touch (s.drop 6)
  else if strncmp s (ascii "cat ") 4 then .cat (s.drop 4)
  else if strncmp s (ascii "bf ") 3 then .fork (ascii "bf") (s.drop 3)
  else if strncmp s (ascii "obj_viewer ") 11 then .fork (ascii "obj_viewer") (s.drop 11)
  else if strncmp s (ascii "dump") 4 then .dump (s.drop 4)
  else .notFound

/-! ### Points of the program -/

/- The next of the calls fork, exec and waitpid that the shell makes. -/
inductive Point where
  /- main's loop, and the commands that make none of them -/
  | loop
  | fork (fileName arg : List UInt8)
  /- in sys_fork, in a child that has not run yet -/
  | born (fileName arg : List UInt8)
  | exec (fileName arg : List UInt8)
  | waitpid (child : Nat)
  /- in waitpid, until the next call -/
  | waiting
deriving DecidableEq

def handleExec (fileName arg : List UInt8) : Point :=
  if fileName = [] then .loop else .exec fileName arg

/- handle_fork, once sys_fork has returned. -/
def handleFork (child : Nat) (fileName arg : List UInt8) : Point :=
  if child = 0 then handleExec fileName arg else .waitpid child

def dispatch (line : CString) : Point :=
  match command line with
  | .exec fileName arg => handleExec fileName arg
  | .fork fileName arg => .fork fileName arg
  | _ => .loop

/- What a process executes: the shell, in the first copy or in a forked one, or what exec has loaded. -/
inductive Program where
  | other
  | shell (forked : Bool) (point : Point)
deriving DecidableEq

def Program.makes : Program → Lifecycle.Event → Prop
  | .other, _ => True
  | .shell _ (.fork _ _), ev => Calls ev .fork
  | .shell _ (.exec _ _), ev => Calls ev .exec
  | .shell _ (.waitpid child), ev => Calls ev .wait ∧ ev.regs.ebx = child
  | .shell _ _, ev => ∀ sc ∈ [Syscall.exit, .fork, .exec, .wait], ¬Calls ev sc

instance : (p : Program) → (ev : Lifecycle.Event) → Decidable (p.makes ev)
  | .other, _ => .isTrue trivial
  | .shell _ (.fork _ _), _ => inferInstanceAs (Decidable (Calls _ _))
  | .shell _ (.exec _ _), _ => inferInstanceAs (Decidable (Calls _ _))
  | .shell _ (.waitpid _), _ => inferInstanceAs (Decidable (_ ∧ _))
  | .shell _ .loop, _ => inferInstanceAs (Decidable (∀ sc ∈ _, _))
  | .shell _ (.born _ _), _ => inferInstanceAs (Decidable (∀ sc ∈ _, _))
  | .shell _ .waiting, _ => inferInstanceAs (Decidable (∀ sc ∈ _, _))

/- exec returns -1 and leaves the rest of the frame, where it finds no file. -/
def execFails (ev : Lifecycle.Event) : Prop := ev.env.execRegs = { ev.regs with eax := minusOne }

instance (ev : Lifecycle.Event) : Decidable (execFails ev) := inferInstanceAs (Decidable (_ = _))

def Program.after (ev : Lifecycle.Event) (eax : Nat) : Program → Program
  | .other => .other
  | .shell forked (.fork fileName arg) => .shell forked (handleFork eax fileName arg)
  | .shell forked (.exec _ _) => if execFails ev then .shell forked .loop else .other
  | .shell forked (.waitpid _) => .shell forked .waiting
  | .shell forked _ => .shell forked .loop

def Program.child : Program → Program
  | .shell _ (.fork fileName arg) => .shell true (.born fileName arg)
  | _ => .other

/- The program of the process an entry returns to; in a child sys_fork returns the `eax` of the frame
   it is resumed with for the first time. -/
def Program.resumed (eax : Nat) : Program → Program
  | .shell forked (.born fileName arg) => .shell forked (handleFork eax fileName arg)
  | program => program

/-! ### The system -/

structure ShellSystem where
  sched : Sched
  /- what the process with its PCB at an address executes -/
  programs : Nat → Program

inductive Action where
  /- the running shell has read a line -/
  | line (s : CString)
  | entry (ev : Lifecycle.Event)

def setProgram (a : Nat) (p : Program) (programs : Nat → Program) : Nat → Program :=
  fun b => if b = a then p else programs b

def programsAfter (x : ShellSystem) (ev : Lifecycle.Event) (eax : Nat) : Nat → Program :=
  let cur := x.sched.current
  let program := x.programs cur
  let programs := setProgram cur (program.after ev eax) x.programs
  if Calls ev .fork then setProgram ev.env.pcbAddr program.child programs else programs

def programsResumed (out : Outcome) (programs : Nat → Program) : Nat → Program :=
  setProgram out.sched.current ((programs out.sched.current).resumed out.regs.eax) programs

def shellStep (x : ShellSystem) : Action → Option ShellSystem
  | .line s =>
    match x.programs x.sched.current with
    | .shell forked .loop =>
      some { x with programs := setProgram x.sched.current (.shell forked (dispatch s)) x.programs }
    | _ => none
  | .entry ev =>
    if ev.entry = .syscall then
      if (x.programs x.sched.current).makes ev then
        (handle x.sched ev).map fun out =>
          ⟨out.sched, programsResumed out (programsAfter x ev out.regs.eax)⟩
      else none
    else (handle x.sched ev).map fun out => ⟨out.sched, programsResumed out x.programs⟩

def startShell (s : Sched) (a : Nat) : ShellSystem :=
  ⟨s, fun b => if b = a then .shell false .loop else .other⟩

/- The process goes on with the loop of the shell; in waitpid it does not. -/
def goesOn (x : ShellSystem) (p : Pcb) : Bool :=
  decide (p.status ≠ .zombie) && match x.programs p.addr with
    | .shell _ .loop => true
    | .shell _ .waiting => decide (p.status ≠ .waiting)
    | _ => false

def isForked : Program → Bool
  | .shell forked _ => forked
  | .other => false

/- One process goes on with the loop, no forked child does, and nobody waits for one that does. -/
structure OneShell (x : ShellSystem) : Prop where
  one : x.sched.procs.countP (goesOn x) ≤ 1
  ended : ∀ p ∈ x.sched.procs, goesOn x p → isForked (x.programs p.addr) = false
  returns : ∀ p ∈ x.sched.procs, ∀ forked, x.programs p.addr = .shell forked .waiting →
    p.status = .waiting → ∀ q ∈ x.sched.procs, q.pid = p.waitingPid → ¬goesOn x q

/- A forked child finds its file, and the shell forks only for a name that is not empty. -/
def FindsFile : Program → Lifecycle.Event → Prop
  | .shell forked (.exec _ _), ev => forked → Calls ev .exec → ¬execFails ev
  | .shell _ (.fork fileName _), ev => Calls ev .fork → fileName ≠ []
  | _, _ => True

/- Besides, no key press answers a read in the frame of a process that is not WAITING for it. -/
def ChildrenExec (x : ShellSystem) : Action → Prop
  | .line _ => True
  | .entry ev => FindsFile (x.programs x.sched.current) ev ∧ DeliversToWaiting x.sched ev

instance : (p : Program) → (ev : Lifecycle.Event) → Decidable (FindsFile p ev)
  | .other, _ => .isTrue trivial
  | .shell _ (.fork fileName _), ev => inferInstanceAs (Decidable (Calls ev .fork → fileName ≠ []))
  | .shell forked (.exec _ _), ev =>
    inferInstanceAs (Decidable (forked = true → Calls ev .exec → ¬execFails ev))
  | .shell _ (.waitpid _), _ => .isTrue trivial
  | .shell _ .loop, _ => .isTrue trivial
  | .shell _ (.born _ _), _ => .isTrue trivial
  | .shell _ .waiting, _ => .isTrue trivial

instance (x : ShellSystem) : (a : Action) → Decidable (ChildrenExec x a)
  | .line _ => .isTrue trivial
  | .entry ev => inferInstanceAs (Decidable (FindsFile _ ev ∧ DeliversToWaiting _ ev))

/-! ### A step -/

section Step
variable {x x' : ShellSystem} {ev : Lifecycle.Event} {p : Program} {eax : Nat} {point : Point}

theorem after_shell {forked : Bool} (h : p.after ev eax = .shell forked point) :
    ∃ before, p = .shell forked before := by
  cases p with
  | other => cases h
  | shell forked' before =>
    cases before with
    | exec =>
      dsimp only [Program.after] at h
      split at h
      · cases h
        exact ⟨_, rfl⟩
      · cases h
    | _ =>
      cases h
      exact ⟨_, rfl⟩

theorem child_forked : p.child ≠ .shell false point := by
  cases p with
  | other => exact fun h => by cases h
  | shell forked at' => cases at' <;> exact fun h => by cases h

/-- The copy that comes back from fork is the copy that was made. -/
theorem resumed_shell {forked : Bool} (h : p.resumed eax = .shell forked point) :
    ∃ before, p = .shell forked before ∧ (before = point ∨
      ∃ fileName arg, before = .born fileName arg ∧ point = handleFork eax fileName arg) := by
  cases p with
  | other => cases h
  | shell forked' before =>
    cases before with
    | born fileName arg =>
      cases h
      exact ⟨_, rfl, .inr ⟨fileName, arg, rfl, rfl⟩⟩
    | _ =>
      cases h
      exact ⟨_, rfl, .inl rfl⟩

theorem before_resumed {c : Prop} [Decidable c] {forked : Bool}
    (h : (if c then p.resumed eax else p) = .shell forked point) : ∃ before, p = .shell forked before := by
  split at h
  · obtain ⟨before, hb, -⟩ := resumed_shell h
    exact ⟨before, hb⟩
  · exact ⟨point, h⟩

/-- A forked copy that finds its file has left the shell after the call. -/
theorem after_exec {fileName arg : List UInt8} (hm : (Program.shell true (.exec fileName arg)).makes ev)
    (hg : FindsFile (.shell true (.exec fileName arg)) ev) :
    (Program.shell true (.exec fileName arg)).after ev eax = .other := if_neg (hg rfl hm)

theorem child_born (hg : FindsFile p ev) (hc : Calls ev .fork) (h : p.child = .shell true point) :
    ∃ fileName arg, fileName ≠ [] ∧ point = .born fileName arg := by
  cases p with
  | other => cases h
  | shell forked at' =>
    cases at' with
    | fork fileName arg =>
      cases h
      exact ⟨fileName, arg, hg hc, rfl⟩
    | _ => cases h

theorem fork_child {s : Sched} {out : Outcome} (hs : Sane s) (hc : Calls ev .fork)
    (h : handle s ev = some out) : ∃ child, Child s ev child ∧
      out.sched.procs = s.procs ++ [child] ∧ out.sched.current = s.current := by
  have heff := handle_effect hs.listed h
  generalize out.sched = t at heff ⊢
  generalize out.released = released at heff
  generalize out.regs = regs at heff
  cases heff with
  | quiet _ _ ha => exact absurd hc ha.1
  | schedule he =>
    obtain ⟨cur, -, -, hcur⟩ := currentProcess_eq hs.listed
    rw [enters_syscall hcur hc.1, hc.2] at he
    cases he
  | fork _ hchild hp hcur => exact ⟨_, hchild, hp, hcur⟩
  | kill hk => exact absurd hc (not_calls hk (by decide))
  | interrupt he =>
    rw [hc.1] at he
    cases he
  | wake he =>
    rw [hc.1] at he
    cases he

/-- A process listed after an entry was listed before it at its address, or is the forked child. -/
theorem entry_addrs {s : Sched} {out : Outcome} (hs : Sane s) (h : handle s ev = some out) {q : Pcb}
    (hq : q ∈ out.sched.procs) :
    (Calls ev .fork ∧ q.addr = ev.env.pcbAddr) ∨
      (Calls ev .fork → q.addr ≠ ev.env.pcbAddr) ∧ ∃ p ∈ s.procs, p.addr = q.addr := by
  by_cases hc : Calls ev .fork
  · obtain ⟨child, hchild, hp, -⟩ := fork_child hs hc h
    rw [hp] at hq
    rcases List.mem_append.mp hq with hq | hq
    · refine .inr ⟨fun _ he => hchild.fresh ?_, q, hq, rfl⟩
      rw [hchild.addr, ← he]
      exact List.mem_map_of_mem hq
    · rw [List.mem_singleton.mp hq]
      exact .inl ⟨hc, hchild.addr⟩
  · obtain ⟨gone, F, hF⟩ := (handle_rewrites hs h).resolve_left fun hf => hc hf.1
    rw [hF.procs] at hq
    obtain ⟨p, hp, rfl⟩ := List.mem_map.mp hq
    have hmem := (List.mem_filter.mp hp).1
    exact .inr ⟨fun hfork => absurd hfork hc, p, hmem, (hF.addr p hmem).symm⟩

inductive Came (x : ShellSystem) (ev : Lifecycle.Event) (eax a : Nat) : Program → Prop
  | same : (∃ p ∈ x.sched.procs, p.addr = a) → Came x ev eax a (x.programs a)
  | called : (∃ p ∈ x.sched.procs, p.addr = a) → a = x.sched.current →
      (x.programs a).makes ev → Came x ev eax a ((x.programs a).after ev eax)
  | forked : Calls ev .fork → a = ev.env.pcbAddr → Came x ev eax a (x.programs x.sched.current).child

/-- An entry is one of the kernel, and a call of the running program is one that it makes. -/
theorem shellStep_entry (h : shellStep x (.entry ev) = some x') :
    ∃ out, handle x.sched ev = some out ∧ x'.sched = out.sched ∧
      ∃ programs, x'.programs = programsResumed out programs ∧ if ev.entry = .syscall then
        (x.programs x.sched.current).makes ev ∧ programs = programsAfter x ev out.regs.eax
      else programs = x.programs := by
  unfold shellStep at h
  dsimp only at h
  split at h
  · rename_i he
    split at h
    · rename_i hm
      obtain ⟨out, hout, rfl⟩ := Option.map_eq_some_iff.mp h
      refine ⟨out, hout, rfl, _, rfl, ?_⟩
      rw [if_pos he]
      exact ⟨hm, rfl⟩
    · cases h
  · rename_i he
    obtain ⟨out, hout, rfl⟩ := Option.map_eq_some_iff.mp h
    refine ⟨out, hout, rfl, _, rfl, ?_⟩
    rw [if_neg he]

theorem programsAfter_old {a : Nat} (h : Calls ev .fork → a ≠ ev.env.pcbAddr) :
    programsAfter x ev eax a =
      if a = x.sched.current then (x.programs x.sched.current).after ev eax else x.programs a := by
  unfold programsAfter
  split
  · rename_i hc
    rw [setProgram, if_neg (h hc)]
    rfl
  · rfl

theorem entry_came (hs : Sane x.sched) (h : shellStep x (.entry ev) = some x') :
    ∃ out, handle x.sched ev = some out ∧ x'.sched = out.sched ∧ ∀ q ∈ out.sched.procs,
      ∃ program, Came x ev out.regs.eax q.addr program ∧ x'.programs q.addr =
        if q.addr = out.sched.current then program.resumed out.regs.eax else program := by
  obtain ⟨out, hout, hsched, programs, hresumed, hprograms⟩ := shellStep_entry h
  refine ⟨out, hout, hsched, fun q hq => ⟨programs q.addr, ?_, ?_⟩⟩
  · split at hprograms
    · obtain ⟨hm, hafter⟩ := hprograms
      rw [hafter]
      rcases entry_addrs hs hout hq with ⟨hc, hnew⟩ | ⟨hold, hp⟩
      · unfold programsAfter
        rw [if_pos hc, setProgram, if_pos hnew]
        exact .forked hc hnew
      · rw [programsAfter_old hold]
        split
        · rename_i hcur
          rw [← hcur] at hm ⊢
          exact .called hp hcur hm
        · exact .same hp
    · rename_i he
      rw [hprograms]
      rcases entry_addrs hs hout hq with ⟨hc, -⟩ | ⟨-, hp⟩
      · exact absurd hc.1 he
      · exact .same hp
  · rw [hresumed, programsResumed, setProgram]
    split
    · rename_i hcur
      rw [hcur]
    · rfl

end Step

/-! ### Runs -/

/- A child that has not run yet has the frame that fork gave it. -/
structure Unstarted (s : Sched) (q : Pcb) : Prop where
  eax : q.registers.eax = 0
  apart : q.addr ≠ s.current
  awake : q.status ≠ .waiting

def Departing (s : Sched) (q : Pcb) : Point → Prop
  | .exec _ _ => True
  | .born fileName _ => fileName ≠ [] ∧ Unstarted s q
  | _ => False

/- There is one first copy, and a forked copy is on its way to another program. -/
structure ShellInv (x : ShellSystem) : Prop where
  sane : Sane x.sched
  single : ∀ p ∈ x.sched.procs, ∀ q ∈ x.sched.procs, ∀ point point',
    x.programs p.addr = .shell false point → x.programs q.addr = .shell false point' → p.addr = q.addr
  children : ∀ p ∈ x.sched.procs, ∀ point, x.programs p.addr = .shell true point →
    Departing x.sched p point

section Runs
variable {x x' : ShellSystem} {s : Sched} {a : Nat}

theorem start_shellInv (hs : Sane s) (a : Nat) : ShellInv (startShell s a) := by
  have hat : ∀ b forked point, (startShell s a).programs b = .shell forked point →
      b = a ∧ forked = false := by
    intro b forked point h
    unfold startShell at h
    dsimp only at h
    split at h
    · cases h
      exact ⟨‹b = a›, rfl⟩
    · cases h
  refine ⟨hs, fun p _ q _ point point' hp hq => ?_, fun p _ point hp => ?_⟩
  · exact (hat _ _ _ hp).1.trans (hat _ _ _ hq).1.symm
  · cases (hat _ _ _ hp).2

theorem ShellInv.line {line : CString} (h : ShellInv x) (hx : shellStep x (.line line) = some x') :
    ShellInv x' := by
  obtain ⟨cur, hcur, haddr⟩ := h.sane.listed.current
  unfold shellStep at hx
  dsimp only at hx
  split at hx
  · rename_i forked hloop
    cases hx
    cases forked with
    | true => exact (h.children cur hcur .loop (haddr ▸ hloop)).elim
    | false =>
      have hfirst : ∀ b point, setProgram x.sched.current (.shell false (dispatch line)) x.programs b =
          .shell false point → ∃ before, x.programs b = .shell false before := by
        intro b point hb
        unfold setProgram at hb
        split at hb
        · rename_i he
          exact ⟨.loop, he ▸ hloop⟩
        · exact ⟨point, hb⟩
      refine ⟨h.sane, fun p hp q hq point point' hpp hqp => ?_, fun p hp point hpp => ?_⟩
      · obtain ⟨before, hb⟩ := hfirst _ _ hpp
        obtain ⟨before', hb'⟩ := hfirst _ _ hqp
        exact h.single p hp q hq before before' hb hb'
      · dsimp only at hpp
        unfold setProgram at hpp
        split at hpp
        · cases hpp
        · exact h.children p hp point hpp
  · cases hx

/-- Back from fork a child goes to exec, and one that has not run yet stays as fork made it. -/
theorem Departing.entry {ev : Lifecycle.Event} {out : Outcome} {p q : Pcb} {before point : Point}
    (hs : Sane s) (hg : DeliversToWaiting s ev) (hout : handle s ev = some out) (hp : p ∈ s.procs)
    (hq : q ∈ out.sched.procs) (ha : q.addr = p.addr) (hd : Departing s p before)
    (h : (if q.addr = out.sched.current then (Program.shell true before).resumed out.regs.eax
      else .shell true before) = .shell true point) : Departing out.sched q point := by
  cases before with
  | exec fileName arg =>
    have hpoint : Point.exec fileName arg = point := by
      split at h <;> (cases h; rfl)
    exact hpoint ▸ trivial
  | born fileName arg =>
    obtain ⟨hname, hun⟩ := hd
    have hrests := handle_rests hs hg hout hp hq ha hun.apart hun.awake
    split at h
    · rename_i hcur
      cases h
      rw [hrests.resumed hcur, hun.eax]
      unfold handleFork handleExec
      rw [if_pos rfl, if_neg hname]
      exact trivial
    · rename_i hcur
      cases h
      exact ⟨hname, by rw [hrests.registers, hun.eax], hcur, hrests.awake⟩
  | _ => exact hd.elim

/-- The child of a fork has 0 in eax and is not resumed yet. -/
theorem fork_unstarted {ev : Lifecycle.Event} {out : Outcome} {q : Pcb} (hs : Sane s)
    (hc : Calls ev .fork) (hout : handle s ev = some out) (hq : q ∈ out.sched.procs)
    (ha : q.addr = ev.env.pcbAddr) : Unstarted out.sched q := by
  obtain ⟨child, hchild, hprocs, hcur⟩ := fork_child hs hc hout
  obtain ⟨cur, hmem, haddr⟩ := hs.listed.current
  rw [hprocs] at hq
  have hqc : q = child := by
    rcases List.mem_append.mp hq with hq | hq
    · refine absurd ?_ hchild.fresh
      rw [hchild.addr, ← ha]
      exact List.mem_map_of_mem hq
    · exact List.mem_singleton.mp hq
  rw [hqc]
  refine ⟨by rw [hchild.registers], ?_, by rw [hchild.status]; decide⟩
  rw [hcur, ← haddr]
  exact fun he => hchild.fresh (he ▸ List.mem_map_of_mem hmem)

/-- After its call a forked copy that finds its file executes another program. -/
theorem Departing.called {ev : Lifecycle.Event} {p : Pcb} {eax : Nat} {before : Point}
    (hd : Departing s p before) (hcur : p.addr = s.current)
    (hm : (Program.shell true before).makes ev) (hg : FindsFile (.shell true before) ev) :
    (Program.shell true before).after ev eax = .other := by
  cases before with
  | exec fileName arg => exact after_exec hm hg
  | born => exact absurd hcur hd.2.apart
  | _ => exact hd.elim

theorem ShellInv.entry {ev : Lifecycle.Event} (h : ShellInv x)
    (hg : FindsFile (x.programs x.sched.current) ev) (hgd : DeliversToWaiting x.sched ev)
    (hx : shellStep x (.entry ev) = some x') : ShellInv x' := by
  obtain ⟨out, hout, hsched, hcame⟩ := entry_came h.sane hx
  have hsane : Sane out.sched := step_sane h.sane (by rw [step, hout]; rfl)
  have hfirst : ∀ q ∈ out.sched.procs, ∀ point, x'.programs q.addr = .shell false point →
      ∃ p ∈ x.sched.procs, p.addr = q.addr ∧ ∃ before, x.programs p.addr = .shell false before := by
    intro q hq point hpoint
    obtain ⟨program, hc, hres⟩ := hcame q hq
    rw [hpoint] at hres
    obtain ⟨before, hbefore⟩ := before_resumed hres.symm
    cases hc with
    | same hold =>
      obtain ⟨p, hp, ha⟩ := hold
      exact ⟨p, hp, ha, before, ha ▸ hbefore⟩
    | called hold =>
      obtain ⟨p, hp, ha⟩ := hold
      exact ⟨p, hp, ha, ha ▸ after_shell hbefore⟩
    | forked => exact absurd hbefore child_forked
  refine ⟨hsched ▸ hsane, fun p hp q hq point point' hpp hqp => ?_, fun q hq point hpoint => ?_⟩
  · rw [hsched] at hp hq
    obtain ⟨p', hp', ha, before, hb⟩ := hfirst p hp point hpp
    obtain ⟨q', hq', ha', before', hb'⟩ := hfirst q hq point' hqp
    exact ha.symm.trans ((h.single p' hp' q' hq' before before' hb hb').trans ha')
  · rw [hsched] at hq ⊢
    obtain ⟨program, hc, hres⟩ := hcame q hq
    rw [hpoint] at hres
    obtain ⟨before, hbefore⟩ := before_resumed hres.symm
    rw [hbefore] at hres
    cases hc with
    | same hold =>
      obtain ⟨p, hp, ha⟩ := hold
      have hd := h.children p hp before (ha ▸ hbefore)
      exact hd.entry h.sane hgd hout hp hq ha.symm hres.symm
    | called hold hcur hm =>
      obtain ⟨p, hp, ha⟩ := hold
      rw [← hcur] at hg
      obtain ⟨earlier, hprogram⟩ := after_shell hbefore
      rw [hprogram] at hbefore hm hg
      have hd := h.children p hp earlier (ha ▸ hprogram)
      rw [hd.called (ha.trans hcur) hm hg] at hbefore
      cases hbefore
    | forked hc hnew =>
      obtain ⟨fileName, arg, hname, rfl⟩ := child_born hg hc hbefore
      have hun := fork_unstarted h.sane hc hout hq hnew
      rw [if_neg hun.apart] at hres
      cases hres
      exact ⟨hname, hun⟩

theorem goesOn_first {p : Pcb} (h : ShellInv x) (hp : p ∈ x.sched.procs) (hgo : goesOn x p) :
    ∃ point, x.programs p.addr = .shell false point := by
  cases hprogram : x.programs p.addr with
  | other => simp [goesOn, hprogram] at hgo
  | shell forked point =>
    cases forked with
    | false => exact ⟨point, rfl⟩
    | true =>
      have hd := h.children p hp point hprogram
      cases point with
      | exec => simp [goesOn, hprogram] at hgo
      | born => simp [goesOn, hprogram] at hgo
      | _ => exact hd.elim

theorem ShellInv.oneShell (h : ShellInv x) : OneShell x where
  one := countP_le_one h.sane.listed.nodup fun p hp q hq hpg hqg => by
    obtain ⟨point, hpp⟩ := goesOn_first h hp hpg
    obtain ⟨point', hqp⟩ := goesOn_first h hq hqg
    exact h.single p hp q hq point point' hpp hqp
  ended := by
    intro p hp hgo
    obtain ⟨point, hpp⟩ := goesOn_first h hp hgo
    rw [hpp]
    rfl
  returns := by
    intro p hp forked hwait hstatus q hq _ hgo
    obtain ⟨point, hqp⟩ := goesOn_first h hq hgo
    cases forked with
    | true => exact (h.children p hp .waiting hwait).elim
    | false =>
      have haddr := h.single p hp q hq _ _ hwait hqp
      rw [← addr_inj h.sane.listed.nodup hp hq haddr] at hgo
      simp [goesOn, hwait, hstatus] at hgo

end Runs

/-- The lines that are read and what the processes execute change nothing in the kernel. -/
theorem shellStep_sched {s : Sched} {a : Nat} {x : ShellSystem} {guard : ShellSystem → Action → Prop}
    (h : Reach shellStep guard (startShell s a) x) : Reach Lifecycle.step anyStep s x.sched := by
  refine @Reach.image _ _ _ _ _ _ _ Lifecycle.step ShellSystem.sched _ h fun x act x' hx => ?_
  cases act with
  | line line =>
    unfold shellStep at hx
    dsimp only at hx
    split at hx
    · cases hx
      exact .inl rfl
    · cases hx
  | entry ev =>
    obtain ⟨out, hout, hsched, -⟩ := shellStep_entry hx
    exact .inr ⟨ev, Option.map_eq_some_iff.mpr ⟨out, hout, hsched.symm⟩⟩

/-- Along every run in which each forked child finds its file, no name to fork is empty and only WAITING
processes are answered by a key, one process goes on with the loop of the shell. -/
theorem one_shell {c : BootConfig} {s : Sched} {a : Nat} {x : ShellSystem}
    (hs : Reach Lifecycle.step anyStep (boot c) s)
    (h : Reach shellStep ChildrenExec (startShell s a) x) : OneShell x := by
  have hinv : ShellInv x := by
    refine h.invariant ShellInv (start_shellInv (reach_sane hs) a) fun y act z hi hg hy => ?_
    cases act with
    | line line => exact hi.line hy
    | entry ev => exact hi.entry hg.1 hg.2 hy
  exact hinv.oneShell

/-! ### A child that finds its file, and one that does not -/

def forkLine : CString := ⟨ascii "fork d", noNul_of_all rfl⟩

/- "fork d", the calls of the parent, the quantum of the idle process and exec in the child. -/
def forkRun (found : Bool) : List Action :=
  [.line forkLine, .entry (forkAt 0x200000), .entry (call 13 3 0)] ++ quantum.map .entry ++
    [.entry { call 11 0 0 with
      env := { execRegs := if found then default else { (call 11 0 0).regs with eax := minusOne } } }]

def sampleShell : ShellSystem := startShell (boot sampleBoot) 0x100000

theorem forkRun_oneShell : ∃ x, Reach shellStep ChildrenExec sampleShell x ∧
    (x.programs 0x100000 = .shell false .waiting ∧ x.programs 0x200000 = .other) ∧ OneShell x := by
  obtain ⟨x, hr, hx⟩ : ∃ x, Reach shellStep ChildrenExec sampleShell x ∧
      x.programs 0x100000 = .shell false .waiting ∧ x.programs 0x200000 = .other :=
    reach_of_test (forkRun true) (by decide +kernel) (by decide +kernel)
  exact ⟨x, hr, hx, one_shell .refl hr⟩

/-- Where there is no file "d" the child goes on with the loop, and the shell waits for it. -/
theorem child_goes_on : ¬ ∀ c s a x, Reach Lifecycle.step anyStep (boot c) s →
    Reach shellStep anyStep (startShell s a) x → OneShell x := by
  intro hall
  obtain ⟨x, hr, hx⟩ : ∃ x, Reach shellStep anyStep sampleShell x ∧
      ∃ p ∈ x.sched.procs, goesOn x p = true ∧ isForked (x.programs p.addr) = true :=
    reach_of_test (forkRun false) (guarded_anyStep _ _) (by decide +kernel)
  obtain ⟨p, hp, hgo, hforked⟩ := hx
  rw [(hall _ _ _ x .refl hr).ended p hp hgo] at hforked
  cases hforked

end AdamOS.Shell
