import AdamOS.Kernel.AddressSpace
import AdamOS.Kernel.Mapping
import AdamOS.Kernel.RunQueue

/-! The calls that allocate frames: fork, exec and sbrk as entries of the kernel. -/
namespace AdamOS.Paging
open AdamOS.Process AdamOS.Scheduler AdamOS.Lifecycle AdamOS.Word AdamOS.Loop AdamOS.Transition

def Allocates (ev : Event) : Prop := Calls ev .fork ∨ Calls ev .exec ∨ Calls ev .sbrk

/-! ### What the three calls do whatever allocate_frame returns -/

theorem called_eq {ev : Event} {sc : Syscall} (h : Calls ev sc) : called ev = some sc := by
  rw [called, if_pos h.1, h.2]

theorem kernelEntry_eq {k : Kernel} {ev : Event} {program : Option Program} {k' : Kernel}
    {regs : Registers} (h : kernelEntry k ev program = some (k', regs)) :
    ∃ cur env m out, k.sched.currentProcess = some cur ∧
      pagingOf cur ev program k.memory = some (env, m) ∧
      handle k.sched { ev with env := env } = some out ∧ k'.sched = out.sched ∧ regs = out.regs ∧
      k'.memory = releaseMemory out.released m := by
  obtain ⟨cur, hcur, h1⟩ := Option.bind_eq_some_iff.mp h
  obtain ⟨⟨env, m⟩, hp, h2⟩ := Option.bind_eq_some_iff.mp h1
  obtain ⟨out, hout, h3⟩ := Option.bind_eq_some_iff.mp h2
  cases h3
  exact ⟨cur, env, m, out, hcur, hp, hout, rfl, rfl, rfl⟩

theorem kernelEntry_of {k : Kernel} {ev : Event} {program : Option Program} {cur : Pcb} {env : Env}
    {m : Memory} {out : Outcome} (hcur : k.sched.currentProcess = some cur)
    (hp : pagingOf cur ev program k.memory = some (env, m))
    (hout : handle k.sched { ev with env := env } = some out) : kernelEntry k ev program =
      some ({ sched := out.sched, memory := releaseMemory out.released m }, out.regs) := by
  simp only [kernelEntry, hcur, hp, hout, Option.bind_eq_bind, Option.bind_some]
  rfl

theorem handle_syscall {s : Sched} {ev : Event} {sc : Syscall} (h : Calls ev sc) :
    handle s ev = syscallHandlerMain ev.env ev.regs s := by
  simp only [handle, h.1]

theorem sbrk_returns {s : Sched} {ev : Event} (hc : Calls ev .sbrk) :
    ∃ out, handle s ev = some out ∧ out.released = none ∧ out.regs.eax = ev.env.eax := by
  rw [handle_syscall hc, syscallHandlerMain, hc.2]
  exact ⟨_, rfl, rfl, rfl⟩

/- An 800 by 600 frame buffer where the emulator maps it. -/
def sampleMachine : Machine where
  config := sampleBoot
  framebuffer := 0xFD000000
  screenSize := 480000
  phys := fun _ _ => 0
  idleImage := fun _ => 0
  mainImage := fun _ => 0
  inRange := by decide

end AdamOS.Paging
