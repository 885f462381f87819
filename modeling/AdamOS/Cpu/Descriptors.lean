import AdamOS.Cpu.Exceptions
import AdamOS.Lib.Loop

/-! gdt.c and idt.c: segment and gate descriptors as the processor reads them, and the interrupt
controllers. -/
namespace AdamOS.Descriptors
open AdamOS.Processor AdamOS.Traps AdamOS.Exceptions AdamOS.Loop

/-! ### Segment descriptors -/

structure GdtEntry where
  limitLow : Nat
  baseLow : Nat
  baseMid : Nat
  access : Nat
  granularity : Nat
  baseHigh : Nat
deriving DecidableEq, Repr

abbrev Gdt := Nat → GdtEntry

/- Each field keeps the low bits of what is assigned to it. -/
def gdtSetGate (num base limit access flags : Nat) (gdt : Gdt) : Gdt := fun i =>
  if i = num then
    { baseLow := base &&& 0xFFFF
      baseMid := (base >>> 16) &&& 0xFF
      baseHigh := (base >>> 24) &&& 0xFF
      limitLow := limit &&& 0xFFFF
      granularity := (((limit >>> 16) &&& 0x0F) ||| (flags <<< 4)) % 256
      access := access }
  else gdt i

def GdtEntry.quad (e : GdtEntry) : Nat :=
  e.limitLow + e.baseLow <<< 16 + e.baseMid <<< 32 + e.access <<< 40 + e.granularity <<< 48 +
    e.baseHigh <<< 56

structure Segment where
  base : Nat
  limit : Nat
  access : Nat
  flags : Nat
deriving DecidableEq, Repr

def segmentOf (quad : Nat) : Segment where
  base := (quad >>> 16) % 16777216 + (quad >>> 56) % 256 * 16777216
  limit := quad % 65536 + (quad >>> 48) % 16 * 65536
  access := (quad >>> 40) % 256
  flags := (quad >>> 52) % 16

/- The highest address of a segment; the limit counts pages if bit 3 of the flags is set. -/
def Segment.last (s : Segment) : Nat :=
  if s.flags / 8 % 2 = 1 then s.limit * 4096 + 4095 else s.limit

def Segment.dpl (s : Segment) : Nat := s.access / 32 % 4

def Segment.present (s : Segment) : Bool := s.access / 128 % 2 = 1

/- Bit 4 tells a code or data segment from a system segment, bit 3 code from data. -/
def Segment.isCode (s : Segment) : Bool := s.access / 8 % 4 = 3

theorem granularity_eq {limit flags : Nat} :
    (((limit >>> 16) &&& 0x0F) ||| (flags <<< 4)) % 256 = limit / 65536 % 16 + flags % 16 * 16 := by
  have hlow : (limit >>> 16) &&& 0x0F = limit / 65536 % 16 := by
    rw [Nat.shiftRight_eq_div_pow]
    exact Nat.and_two_pow_sub_one_eq_mod _ 4
  have hor : limit / 65536 % 16 ||| flags <<< 4 = flags * 16 + limit / 65536 % 16 := by
    rw [Nat.or_comm, ← Nat.shiftLeft_add_eq_or_of_lt (Nat.mod_lt _ (by decide)), Nat.shiftLeft_eq]
  rw [hlow, hor]
  omega

theorem mask_eq (n : Nat) : n &&& 0xFFFF = n % 65536 ∧ n &&& 0xFF = n % 256 :=
  ⟨Nat.and_two_pow_sub_one_eq_mod n 16, Nat.and_two_pow_sub_one_eq_mod n 8⟩

/-- The fields of a descriptor are laid out so that the processor finds them. -/
theorem segmentOf_quad (e : GdtEntry) (hl : e.limitLow < 65536) (hb : e.baseLow < 65536)
    (hm : e.baseMid < 256) (ha : e.access < 256) (hg : e.granularity < 256) (hh : e.baseHigh < 256) :
    segmentOf e.quad = ⟨e.baseLow + e.baseMid * 65536 + e.baseHigh * 16777216,
      e.limitLow + e.granularity % 16 * 65536, e.access, e.granularity / 16⟩ := by
  obtain ⟨q, hq⟩ : ∃ q, q = e.quad := ⟨_, rfl⟩
  have hsum : q = e.limitLow + e.baseLow <<< 16 + e.baseMid <<< 32 + e.access <<< 40 +
      e.granularity <<< 48 + e.baseHigh <<< 56 := hq
  have h16 : q >>> 16 = e.baseLow + e.baseMid * 65536 +
      (e.access + e.granularity * 256 + e.baseHigh * 65536) * 16777216 := by omega
  have h40 : q >>> 40 = e.access + (e.granularity + e.baseHigh * 256) * 256 := by omega
  have h48 : q >>> 48 = e.granularity + e.baseHigh * 256 := by omega
  have h52 : q >>> 52 = e.granularity / 16 + e.baseHigh * 16 := by omega
  have h56 : q >>> 56 = e.baseHigh := by omega
  have h0 : q % 65536 = e.limitLow := by omega
  rw [← hq, segmentOf, h16, h40, h48, h52, h56, h0, Segment.mk.injEq]
  clear hsum hq h16 h40 h48 h52 h56 h0
  refine ⟨?_, ?_, ?_, ?_⟩ <;> omega

theorem segment_set {base limit access flags : Nat} (num : Nat) (gdt : Gdt) (hbase : base < 4294967296)
    (haccess : access < 256) : segmentOf (gdtSetGate num base limit access flags gdt num).quad =
      ⟨base, limit % 1048576, access, flags % 16⟩ := by
  rw [gdtSetGate, if_pos rfl, granularity_eq]
  simp only [mask_eq, Nat.shiftRight_eq_div_pow]
  rw [segmentOf_quad _ (Nat.mod_lt _ (by decide)) (Nat.mod_lt _ (by decide)) (Nat.mod_lt _ (by decide))
    haccess (by dsimp only; omega) (Nat.mod_lt _ (by decide)), Segment.mk.injEq]
  dsimp only
  refine ⟨?_, ?_, rfl, ?_⟩ <;> omega

/-- The processor reads back what gdt_set_gate was given: base and access as they are, the limit in
20 bits, the flags in 4. The other entries stay. -/
theorem segmentOf_gdtSetGate {base limit access flags : Nat} (num : Nat) (gdt : Gdt)
    (hbase : base < 4294967296) (haccess : access < 256) :
    segmentOf (gdtSetGate num base limit access flags gdt num).quad =
      ⟨base, limit % 1048576, access, flags % 16⟩ ∧
    ∀ i, i ≠ num → gdtSetGate num base limit access flags gdt i = gdt i :=
  ⟨segment_set num gdt hbase haccess, fun _ hi => if_neg hi⟩

def emptyGdt : Gdt := fun _ => ⟨0, 0, 0, 0, 0, 0⟩

theorem tss_descriptor : segmentOf (gdtSetGate 5 0xC0123458 103 0x89 0 emptyGdt 5).quad =
      ⟨0xC0123458, 103 % 1048576, 0x89, 0 % 16⟩ ∧
    ∀ i, i ≠ 5 → gdtSetGate 5 0xC0123458 103 0x89 0 emptyGdt i = emptyGdt i :=
  segmentOf_gdtSetGate 5 emptyGdt (by decide) (by decide)

/- init_gdt; `tss` is the address of tss_entry, a structure of 104 bytes. -/
def initGdt (tss : Nat) (gdt : Gdt) : Gdt :=
  gdtSetGate 5 tss 103 0x89 0x0 <|
    gdtSetGate 4 0 0xFFFFF 0xF2 0xC <|
    gdtSetGate 3 0 0xFFFFF 0xFA 0xC <|
    gdtSetGate 2 0 0xFFFFF 0x92 0xC <|
    gdtSetGate 1 0 0xFFFFF 0x9A 0xC <|
    gdtSetGate 0 0 0 0x00 0x0 gdt

def segmentAt (gdt : Gdt) (selector : BitVec 16) : Segment :=
  segmentOf (gdt (selector.toNat / 8)).quad

def segmentDpl (gdt : Gdt) (selector : BitVec 16) : Nat := (segmentAt gdt selector).dpl

/-! ### Gates -/

structure IdtEntry where
  baseLow : Nat
  selector : Nat
  zero : Nat
  flags : Nat
  baseHigh : Nat
deriving DecidableEq, Repr

abbrev Idt := Nat → IdtEntry

/- num is uint8_t. -/
def idtSetGate (num base selector flags : Nat) (idt : Idt) : Idt := fun i =>
  if i = num % 256 then
    { baseLow := base &&& 0xFFFF
      baseHigh := (base >>> 16) &&& 0xFFFF
      selector := selector
      zero := 0
      flags := flags }
  else idt i

def IdtEntry.quad (e : IdtEntry) : Nat :=
  e.baseLow + e.selector <<< 16 + e.zero <<< 32 + e.flags <<< 40 + e.baseHigh <<< 48

def gateOf (quad : Nat) : Gate where
  offset := BitVec.ofNat 32 (quad % 65536 + (quad >>> 48) % 65536 * 65536)
  selector := BitVec.ofNat 16 ((quad >>> 16) % 65536)
  dpl := (quad >>> 45) % 4
  present := (quad >>> 47) % 2 = 1

theorem gateOf_quad (e : IdtEntry) (hl : e.baseLow < 65536) (hs : e.selector < 65536) (hz : e.zero < 256)
    (hf : e.flags < 256) (hh : e.baseHigh < 65536) :
    gateOf e.quad = ⟨BitVec.ofNat 32 (e.baseLow + e.baseHigh * 65536), BitVec.ofNat 16 e.selector,
      e.flags / 32 % 4, e.flags / 128 % 2 = 1⟩ := by
  obtain ⟨q, hq⟩ : ∃ q, q = e.quad := ⟨_, rfl⟩
  have hsum : q = e.baseLow + e.selector <<< 16 + e.zero <<< 32 + e.flags <<< 40 + e.baseHigh <<< 48 := hq
  have h0 : q % 65536 = e.baseLow := by omega
  have h16 : (q >>> 16) % 65536 = e.selector := by omega
  have h45 : (q >>> 45) % 4 = e.flags / 32 % 4 := by omega
  have h47 : (q >>> 47) % 2 = e.flags / 128 % 2 := by omega
  have h48 : (q >>> 48) % 65536 = e.baseHigh := by omega
  rw [← hq, gateOf, h0, h16, h45, h47, h48]

/-- The processor reads back what idt_set_gate was given; the other gates stay. -/
theorem gateOf_idtSetGate {base selector flags : Nat} (num : Nat) (idt : Idt) (hbase : base < 4294967296)
    (hselector : selector < 65536) (hflags : flags < 256) :
    gateOf (idtSetGate num base selector flags idt (num % 256)).quad =
      ⟨BitVec.ofNat 32 base, BitVec.ofNat 16 selector, flags / 32 % 4, flags / 128 % 2 = 1⟩ ∧
    ∀ i, i ≠ num % 256 → idtSetGate num base selector flags idt i = idt i := by
  refine ⟨?_, fun i hi => if_neg hi⟩
  have hsum : base % 65536 + base / 65536 % 65536 * 65536 = base := by omega
  rw [idtSetGate, if_pos rfl]
  simp only [mask_eq, Nat.shiftRight_eq_div_pow]
  rw [gateOf_quad _ (Nat.mod_lt _ (by decide)) hselector (by dsimp only; decide) hflags
    (Nat.mod_lt _ (by decide))]
  dsimp only
  rw [hsum]

/-! ### Interrupt controllers -/

/- An 8259. After the first initialisation word, three more are expected on the data port; otherwise
   the data port is the mask. -/
structure Pic where
  offset : Nat
  imr : Nat
  expects : Nat
deriving DecidableEq, Repr

def Pic.command (v : Nat) (c : Pic) : Pic :=
  if v / 16 % 2 = 1 then { c with imr := 0, expects := 3 } else c

def Pic.data (v : Nat) (c : Pic) : Pic :=
  match c.expects with
  | 3 => { c with offset := v / 8 * 8, expects := 2 }
  | 2 => { c with expects := 1 }
  | 1 => { c with expects := 0 }
  | _ => { c with imr := v }

structure Pics where
  master : Pic
  slave : Pic
deriving DecidableEq, Repr

def pic1Command : Nat := 0x20
def pic1Data : Nat := 0x21
def pic2Command : Nat := 0xA0
def pic2Data : Nat := 0xA1

def outb (port v : Nat) (c : Pics) : Pics :=
  if port = pic1Command then { c with master := c.master.command v }
  else if port = pic1Data then { c with master := c.master.data v }
  else if port = pic2Command then { c with slave := c.slave.command v }
  else if port = pic2Data then { c with slave := c.slave.data v }
  else c

def remapPic (c : Pics) : Pics :=
  let mask1 := c.master.imr
  let mask2 := c.slave.imr
  let c := outb pic2Command 0x11 (outb pic1Command 0x11 c)
  let c := outb pic2Data 0x28 (outb pic1Data 0x20 c)
  let c := outb pic2Data 0x02 (outb pic1Data 0x04 c)
  let c := outb pic2Data 0x01 (outb pic1Data 0x01 c)
  outb pic2Data mask2 (outb pic1Data mask1 c)

/- The vector an interrupt line arrives at, and whether it gets through. -/
def Pics.vector (c : Pics) (line : Nat) : Nat :=
  if line < 8 then c.master.offset + line else c.slave.offset + (line - 8)

def Pics.enabled (c : Pics) (line : Nat) : Bool :=
  if line < 8 then !c.master.imr.testBit line
  else !c.master.imr.testBit 2 && !c.slave.imr.testBit (line - 8)

/-! ### The tables at boot -/

structure Handlers where
  exception : Exception → UInt32
  timer : UInt32
  keyboard : UInt32
  mouse : UInt32
  syscall : UInt32

structure Interrupts where
  idt : Idt
  pics : Pics

def kernelCode : Nat := 0x08
def idtFlagInterruptGate : Nat := 0x8E
def ring3Call : Nat := 0xEE

def setKernelGate (num : Nat) (handler : UInt32) (idt : Idt) : Idt :=
  idtSetGate num handler.toNat kernelCode idtFlagInterruptGate idt

def initIdtp (idt : Idt) : Idt := loop 256 (fun i => idtSetGate i 0 0 0) idt

def exceptions : List Exception :=
  [.divideError, .debug, .breakpoint, .overflow, .boundRange, .invalidOpcode, .deviceNotAvailable,
    .doubleFault, .invalidTss, .segmentNotPresent, .stackFault, .gpf, .pageFault, .fpuError,
    .alignmentCheck, .machineCheck, .simdFp]

def initException (h : Handlers) (idt : Idt) : Idt :=
  exceptions.foldl (fun idt e => setKernelGate e.vector.toNat (h.exception e) idt) idt

/- The part of init_mouse that is not about the PS/2 controller. -/
def initMouse (h : Handlers) (s : Interrupts) : Interrupts where
  idt := setKernelGate 0x2C h.mouse s.idt
  pics := outb pic2Data (s.pics.slave.imr &&& 0xEF) s.pics

def loadIdtp (c : Pics) : Pics := outb pic2Data 0xEF (outb pic1Data 0xF8 c)

/- kernel_main up to load_idtp. -/
def bootInterrupts (h : Handlers) (s : Interrupts) : Interrupts :=
  let s : Interrupts := ⟨initIdtp s.idt, remapPic s.pics⟩
  let s := { s with idt := setKernelGate 33 h.keyboard s.idt }
  let s := initMouse h s
  let s := { s with idt := setKernelGate 32 h.timer s.idt }
  let s := { s with idt := initException h s.idt }
  let s := { s with idt := idtSetGate 0x80 h.syscall.toNat kernelCode ring3Call s.idt }
  { s with pics := loadIdtp s.pics }

def Handlers.at (h : Handlers) (n : Nat) : Option UInt32 :=
  if n = 0x80 then some h.syscall
  else if n = 32 then some h.timer
  else if n = 33 then some h.keyboard
  else if n = 0x2C then some h.mouse
  else (exceptions.find? fun e => e.vector.toNat = n).map h.exception

def gateAt (idt : Idt) (n : Nat) : Gate := gateOf (idt n).quad

def noGate : Gate := ⟨0, 0, 0, false⟩

variable {h : Handlers} {idt : Idt} {n : Nat}

theorem gateAt_set {num selector flags : Nat} (a : UInt32) (hselector : selector < 65536)
    (hflags : flags < 256) (hnum : num < 256) :
    gateAt (idtSetGate num a.toNat selector flags idt) n =
      if n = num then ⟨a.toBitVec, BitVec.ofNat 16 selector, flags / 32 % 4, flags / 128 % 2 = 1⟩
      else gateAt idt n := by
  obtain ⟨hset, hother⟩ := gateOf_idtSetGate num idt a.toNat_lt hselector hflags
  rw [Nat.mod_eq_of_lt hnum] at hset hother
  by_cases hn : n = num
  · have ha : BitVec.ofNat 32 a.toNat = a.toBitVec := BitVec.ofNat_toNat ..
    rw [if_pos hn, gateAt, hn, hset, ha]
  · rw [if_neg hn, gateAt, hother n hn, gateAt]

theorem gateAt_kernel {num : Nat} (a : UInt32) (hnum : num < 256) :
    gateAt (setKernelGate num a idt) n = if n = num then ⟨a.toBitVec, 8, 0, true⟩ else gateAt idt n :=
  gateAt_set a (by decide) (by decide) hnum

theorem cleared_gates (k : Nat) (hk : k ≤ 256) :
    ∀ i < k, loop k (fun i => idtSetGate i 0 0 0) idt i = ⟨0, 0, 0, 0, 0⟩ := by
  refine loop_invariant (fun k (t : Idt) => ∀ i < k, t i = ⟨0, 0, 0, 0, 0⟩) (fun i hi => ?_) ?_
  · exact absurd hi (Nat.not_lt_zero i)
  · intro j hj t ht i hi
    rw [idtSetGate, Nat.mod_eq_of_lt (by omega)]
    by_cases hij : i = j
    · rw [if_pos hij]
      rfl
    · rw [if_neg hij]
      exact ht i (by omega)

theorem gateAt_initIdtp (hn : n < 256) : gateAt (initIdtp idt) n = noGate := by
  have hzero : loop 256 (fun i => idtSetGate i 0 0 0) idt n = ⟨0, 0, 0, 0, 0⟩ :=
    cleared_gates 256 (Nat.le_refl _) n hn
  have hgate : gateOf (⟨0, 0, 0, 0, 0⟩ : IdtEntry).quad = noGate := by
    rw [gateOf_quad _ (by decide) (by decide) (by decide) (by decide) (by decide)]
    rfl
  unfold gateAt initIdtp
  rw [hzero, hgate]

theorem vector_lt (e : Exception) : e.vector.toNat < 256 := by cases e <;> decide

/-- The stubs are found at their vectors because no two share one. -/
theorem gateAt_exceptions (es : List Exception) (hes : (es.map Exception.vector).Nodup) :
    gateAt (es.foldl (fun idt e => setKernelGate e.vector.toNat (h.exception e) idt) idt) n =
      ((es.find? fun e => e.vector.toNat = n).map fun e => ⟨(h.exception e).toBitVec, 8, 0, true⟩).getD
        (gateAt idt n) := by
  induction es generalizing idt with
  | nil => rfl
  | cons e es ih =>
    rw [List.map_cons, List.nodup_cons] at hes
    rw [List.foldl_cons, ih hes.2, gateAt_kernel _ (vector_lt e)]
    by_cases hn : n = e.vector.toNat
    · have hnone : (es.find? fun e => e.vector.toNat = n) = none := by
        rw [List.find?_eq_none]
        intro e' he' hsame
        have hv : e'.vector = e.vector := BitVec.eq_of_toNat_eq ((of_decide_eq_true hsame).trans hn)
        exact hes.1 (hv ▸ List.mem_map_of_mem he')
      have hfind : ((e :: es).find? fun e => e.vector.toNat = n) = some e := by
        rw [List.find?_cons, decide_eq_true hn.symm]
      rw [hnone, if_pos hn, hfind, Option.map_none, Option.map_some, Option.getD_none, Option.getD_some]
    · have hfind : ((e :: es).find? fun e => e.vector.toNat = n) = es.find? fun e => e.vector.toNat = n := by
        rw [List.find?_cons, decide_eq_false (Ne.symm hn)]
      rw [if_neg hn, hfind]

/-- After the boot each vector with an entry point has a gate into the kernel's code segment, the
others have none, and system calls alone have one that ring 3 may use. -/
theorem boot_gates (s : Interrupts) (hn : n < 256) :
    gateAt (bootInterrupts h s).idt n =
      ((h.at n).map fun a => ⟨a.toBitVec, 8, if n = 0x80 then 3 else 0, true⟩).getD noGate := by
  have hidt : (bootInterrupts h s).idt = idtSetGate 0x80 h.syscall.toNat kernelCode ring3Call
      (initException h (setKernelGate 32 h.timer (setKernelGate 0x2C h.mouse
        (setKernelGate 33 h.keyboard (initIdtp s.idt))))) := rfl
  have hexc : (exceptions.map Exception.vector).Nodup := by decide
  rw [hidt, gateAt_set _ (by decide) (by decide) (by decide), initException, gateAt_exceptions _ hexc,
    gateAt_kernel _ (by decide), gateAt_kernel _ (by decide), gateAt_kernel _ (by decide),
    gateAt_initIdtp hn, Handlers.at]
  have hnone : ∀ k, k ∈ [32, 33, 0x2C] → (exceptions.find? fun e => e.vector.toNat = k) = none := by
    decide
  by_cases h80 : n = 0x80
  · rw [if_pos h80, if_pos h80, if_pos h80]
    rfl
  rw [if_neg h80, if_neg h80, if_neg h80]
  by_cases h32 : n = 32
  · rw [h32, hnone 32 (by decide)]
    rfl
  by_cases h33 : n = 33
  · rw [h33, hnone 33 (by decide)]
    rfl
  by_cases h44 : n = 0x2C
  · rw [h44, hnone 0x2C (by decide)]
    rfl
  rw [if_neg h32, if_neg h33, if_neg h44, if_neg h32, if_neg h33, if_neg h44]
  cases exceptions.find? fun e => e.vector.toNat = n <;> rfl

/-- User code gets into the kernel by an int instruction through vector 0x80 and through no other; it
then runs syscall_handler in ring 0. -/
theorem user_int {p : Platform} {m : Machine} (s : Interrupts)
    (hp : ∀ n : BitVec 8, p.gate n = gateAt (bootInterrupts h s).idt n.toNat) (hm : m.cpl = 3)
    (n : BitVec 8) :
    exec p (.int n) m =
      if n = 0x80 then some (enter p.segmentDpl ⟨h.syscall.toBitVec, 8, 3, true⟩ m) else none := by
  have hgate := (hp n).trans (boot_gates s n.isLt)
  rw [exec, hgate, hm]
  by_cases hn : n = 0x80
  · rw [hn, if_pos rfl]
    rfl
  · have hnat : n.toNat ≠ 0x80 := fun he => hn (BitVec.eq_of_toNat_eq he)
    rw [if_neg hn, if_neg hnat]
    cases h.at n.toNat <;> rfl

/- The handlers one after another, and a machine before the boot. -/
def sampleHandlers : Handlers where
  exception e := UInt32.ofNat (0x10000 + 16 * e.vector.toNat)
  timer := 0x11000
  keyboard := 0x12000
  mouse := 0x13000
  syscall := 0x14000

def sampleInterrupts : Interrupts := ⟨fun _ => ⟨0, 0, 0, 0, 0⟩, ⟨⟨8, 0, 0⟩, ⟨0x70, 0, 0⟩⟩⟩

def bootedPlatform : Platform :=
  rom (fun _ => none) (fun _ => none)
    (fun n => gateAt (bootInterrupts sampleHandlers sampleInterrupts).idt n.toNat) sampleDpl

/- A program cannot pretend that the timer went off. -/
theorem timer_int_refused : exec bootedPlatform (.int 0x20) sampleMachine =
    if (0x20 : BitVec 8) = 0x80 then
      some (enter sampleDpl ⟨sampleHandlers.syscall.toBitVec, 8, 3, true⟩ sampleMachine)
    else none :=
  user_int sampleInterrupts (fun _ => rfl) (by decide) 0x20

/-- Both controllers end up with their vectors moved and the masks they had before. -/
theorem remapPic_eq (c : Pics) : remapPic c = ⟨⟨0x20, c.master.imr, 0⟩, ⟨0x28, c.slave.imr, 0⟩⟩ := by
  simp [remapPic, outb, pic1Command, pic1Data, pic2Command, pic2Data, Pic.command, Pic.data]

theorem boot_pics (s : Interrupts) :
    (bootInterrupts h s).pics = ⟨⟨0x20, 0xF8, 0⟩, ⟨0x28, 0xEF, 0⟩⟩ := by
  have hpics : (bootInterrupts h s).pics =
      loadIdtp (outb pic2Data ((remapPic s.pics).slave.imr &&& 0xEF) (remapPic s.pics)) := rfl
  rw [hpics, remapPic_eq]
  simp [loadIdtp, outb, pic1Command, pic1Data, pic2Command, pic2Data, Pic.data]

/-- No interrupt line is let through without a handler, and none is taken for an exception; line 2 is
the slave controller. -/
theorem lines_handled (s : Interrupts) {line : Nat} (hline : line < 16) (h2 : line ≠ 2)
    (hon : (bootInterrupts h s).pics.enabled line = true) :
    (gateAt (bootInterrupts h s).idt ((bootInterrupts h s).pics.vector line)).present = true ∧
      32 ≤ (bootInterrupts h s).pics.vector line := by
  rw [boot_pics] at hon ⊢
  have hlines : line = 0 ∨ line = 1 ∨ line = 12 := by
    have hall : ∀ k < 16, k ≠ 2 → (⟨⟨0x20, 0xF8, 0⟩, ⟨0x28, 0xEF, 0⟩⟩ : Pics).enabled k = true →
        k = 0 ∨ k = 1 ∨ k = 12 := by decide
    exact hall line hline h2 hon
  rcases hlines with rfl | rfl | rfl
  · rw [boot_gates s (by decide)]
    exact ⟨rfl, by decide⟩
  · rw [boot_gates s (by decide)]
    exact ⟨rfl, by decide⟩
  · rw [boot_gates s (by decide)]
    exact ⟨rfl, by decide⟩

theorem keyboard_line : (gateAt (bootInterrupts sampleHandlers sampleInterrupts).idt
      ((bootInterrupts sampleHandlers sampleInterrupts).pics.vector 1)).present = true ∧
    32 ≤ (bootInterrupts sampleHandlers sampleInterrupts).pics.vector 1 :=
  lines_handled sampleInterrupts (by decide) (by decide) (by rw [boot_pics]; rfl)

/-- The four segments of the kernel and of user mode cover all addresses; only the privilege differs. -/
theorem flat_segments (tss : Nat) (gdt : Gdt) (selector : BitVec 16)
    (hs : selector ∈ [kernelCodeSegment, kernelDataSegment, userCodeSegment, userDataSegment]) :
    let s := segmentAt (initGdt tss gdt) selector
    s.base = 0 ∧ s.last = 4294967295 ∧ s.present = true ∧ s.dpl = selector.toNat % 4 ∧
      (s.isCode = true ↔ selector = kernelCodeSegment ∨ selector = userCodeSegment) := by
  have hskip : ∀ {num base limit access flags i : Nat} {t : Gdt}, i ≠ num →
      gdtSetGate num base limit access flags t i = t i := fun h => if_neg h
  have h4 : segmentOf (initGdt tss gdt 4).quad = ⟨0, 0xFFFFF, 0xF2, 0xC⟩ := by
    rw [initGdt, hskip (by decide)]
    exact segment_set 4 _ (by decide) (by decide)
  have h3 : segmentOf (initGdt tss gdt 3).quad = ⟨0, 0xFFFFF, 0xFA, 0xC⟩ := by
    rw [initGdt, hskip (by decide), hskip (by decide)]
    exact segment_set 3 _ (by decide) (by decide)
  have h2 : segmentOf (initGdt tss gdt 2).quad = ⟨0, 0xFFFFF, 0x92, 0xC⟩ := by
    rw [initGdt, hskip (by decide), hskip (by decide), hskip (by decide)]
    exact segment_set 2 _ (by decide) (by decide)
  have h1 : segmentOf (initGdt tss gdt 1).quad = ⟨0, 0xFFFFF, 0x9A, 0xC⟩ := by
    rw [initGdt, hskip (by decide), hskip (by decide), hskip (by decide), hskip (by decide)]
    exact segment_set 1 _ (by decide) (by decide)
  simp only [List.mem_cons, List.not_mem_nil, or_false] at hs
  rcases hs with rfl | rfl | rfl | rfl
  · rw [show segmentAt (initGdt tss gdt) kernelCodeSegment = _ from h1]
    decide
  · rw [show segmentAt (initGdt tss gdt) kernelDataSegment = _ from h2]
    decide
  · rw [show segmentAt (initGdt tss gdt) userCodeSegment = _ from h3]
    decide
  · rw [show segmentAt (initGdt tss gdt) userDataSegment = _ from h4]
    decide

end AdamOS.Descriptors
