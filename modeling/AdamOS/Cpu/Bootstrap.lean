import AdamOS.Cpu.Descriptors
import AdamOS.Lib.CodeBytes

/-! kernel-boot.asm from init_pm on, as the bytes it is assembled to: the segment table and the loop that
copies the kernel are moved away, then the kernel is moved over the boot sector they came from. -/
namespace AdamOS.Bootstrap
open AdamOS.CodeBytes
open AdamOS.Processor (Word Memory Machine Reg Seg load32 store32)

def kernelOffset : Word := 0x1000
def kernelSectors : Nat := 128
def codeSeg : BitVec 16 := 0x08
def dataSeg : BitVec 16 := 0x10

/-! ### The segment table -/

/- dw limit, dw 0, db 0, db access, db granularity, db 0 -/
def entry (limit : BitVec 16) (access granularity : Byte) : List Byte :=
  le16 limit ++ le16 0 ++ [0, access, granularity, 0]

def gdt : List Byte :=
  List.replicate 8 0 ++ entry 0xFFFF 0b10011010 0b11001111 ++ entry 0xFFFF 0b10010010 0b11001111 ++
    entry 0xFFFF 0b11111010 0b11001111 ++ entry 0xFFFF 0b11110010 0b11001111 ++
    entry 0x0067 0b10001001 0b00000000

/- The processor sets bit 0 of an access byte when it loads the segment: here of the kernel's two. -/
def gdtLoaded (code data : Bool) : List Byte :=
  (gdt.set 13 (if code then 0b10011011 else 0b10011010)).set 21 (if data then 0b10010011 else 0b10010010)

def TableAt (mem : Memory) (b : Word) : Prop := ∃ code data, Bytes mem b (gdtLoaded code data)

def newGdt : List Byte := le16 (BitVec.ofNat 16 (gdt.length - 1)) ++ le32 0x80000

/- A present segment of ring 0 that begins at 0 and ends with the address space: 32-bit code for CS,
   data that can be written for the others. -/
def usable (s : Seg) (quad : BitVec 64) : Bool :=
  let g := Descriptors.segmentOf quad.toNat
  g.present && g.dpl = 0 && g.base = 0 && g.last = 0xFFFFFFFF && g.flags / 4 % 2 = 1 &&
    if s = .cs then g.isCode else g.access / 8 % 4 = 2 && g.access / 2 % 2 = 1

/-! ### The code; `a` is the address of init_pm -/

def gdtOk (a : Word) : Word := a + 53
def trampoline (a : Word) : Word := a + 76
def newGdtPtr (a : Word) : Word := a + 103
def gdtStart (a : Word) : Word := a + 109

def dataSegments : List Seg := [.ds, .es, .fs, .gs, .ss]

def reload : List Op :=
  .movAx dataSeg :: (dataSegments.map .movSeg ++ [.mov .ebp 0x90000, .movReg .esp .ebp])

def takeTable (a : Word) : List Instr := [.op (.lgdt (newGdtPtr a)), .jmpFar codeSeg (gdtOk a)]

def initPm (a : Word) : List Instr :=
  reload.map .op ++ (copyCode 0x80000 (gdtStart a) ((gdt.length + 3) / 4) ++ takeTable a)

def trampolineCode : List Instr :=
  copyCode kernelOffset 0x10000 (kernelSectors * 512 / 4) ++
    [.op (.mov .eax kernelOffset), .call .eax, .jmpShort (-2)]

/- .gdt_ok; the jump is relative to what lies behind it. -/
def gdtOkCode (a : Word) : List Instr :=
  copyCode 0x600 (trampoline a) (((assemble trampolineCode).length + 3) / 4) ++
    [.jmp (0x600 - trampoline a)]

def bootCode (a : Word) (table : List Byte) : List Byte :=
  assemble (initPm a) ++ (assemble (gdtOkCode a) ++ (assemble trampolineCode ++ (newGdt ++ table)))

/-- The labels are where the code puts them. -/
theorem labels (a : Word) : gdtOk a = a + BitVec.ofNat 32 (assemble (initPm a)).length ∧
    trampoline a = gdtOk a + BitVec.ofNat 32 (assemble (gdtOkCode a)).length ∧
    newGdtPtr a = trampoline a + BitVec.ofNat 32 (assemble trampolineCode).length ∧
    gdtStart a = newGdtPtr a + BitVec.ofNat 32 newGdt.length := by
  refine ⟨rfl, ?_, ?_, ?_⟩
  · exact (BitVec.add_assoc a 53 23).symm
  · exact (BitVec.add_assoc a 76 27).symm
  · exact (BitVec.add_assoc a 103 6).symm

example : assemble trampolineCode = [0xBE, 0, 0, 1, 0, 0xBF, 0, 0x10, 0, 0, 0xB9, 0, 0x40, 0, 0, 0xFC,
    0xF3, 0xA5, 0xB8, 0, 0x10, 0, 0, 0xFF, 0xD0, 0xEB, 0xFE] := by decide

variable {c c' : Cpu} {mem : Memory} {a b : Word} {s : Seg} {code data : Bool}

/-! ### What the table holds -/

theorem gdt_entries (h : Bytes mem b (gdtLoaded code data)) :
    load32 mem (b + 8 + 4) ++ load32 mem (b + 8) =
        (if code then 0x00CF9B000000FFFF#64 else 0x00CF9A000000FFFF#64) ∧
      load32 mem (b + 16 + 4) ++ load32 mem (b + 16) =
        (if data then 0x00CF93000000FFFF#64 else 0x00CF92000000FFFF#64) := by
  have hsplit : gdtLoaded code data = List.replicate 8 0 ++ (le32 0xFFFF ++
      (le32 (if code then 0x00CF9B00 else 0x00CF9A00) ++ (le32 0xFFFF ++
        (le32 (if data then 0x00CF9300 else 0x00CF9200) ++ gdt.drop 24)))) := by
    cases code <;> cases data <;> rfl
  rw [hsplit] at h
  obtain ⟨-, h⟩ := bytes_append.mp h
  obtain ⟨h8, h⟩ := bytes_append.mp h
  obtain ⟨h12, h⟩ := bytes_append.mp h
  obtain ⟨h16, h⟩ := bytes_append.mp h
  obtain ⟨h20, -⟩ := bytes_append.mp h
  have haddr : b + 8 + 4 + 4 = b + 16 := by rw [BitVec.add_assoc, BitVec.add_assoc]; rfl
  have e8 := load_le32 h8
  have e12 := load_le32 h12
  have e16 : load32 mem (b + 8 + 4 + 4) = 0xFFFF := load_le32 h16
  have e20 : load32 mem (b + 8 + 4 + 4 + 4) = if data then 0x00CF9300 else 0x00CF9200 := load_le32 h20
  rw [haddr] at e16 e20
  refine ⟨(congrArg₂ (· ++ ·) e12 e8).trans ?_, ?_⟩
  · cases code <;> rfl
  · rw [e16, e20]
    cases data <;> rfl

theorem selects_code (h : TableAt c.mem c.gdtBase) (hlimit : c.gdtLimit = 47) :
    selects usable .cs codeSeg c = true := by
  obtain ⟨code, data, h⟩ := h
  have hquad : c.descriptor codeSeg = _ := (gdt_entries h).1
  rw [selects, hquad, hlimit]
  cases code <;> decide

theorem selects_data (h : TableAt c.mem c.gdtBase) (hlimit : c.gdtLimit = 47) (hs : s ≠ .cs) :
    selects usable s dataSeg c = true := by
  obtain ⟨code, data, h⟩ := h
  have hquad : c.descriptor dataSeg = _ := (gdt_entries h).2
  rw [selects, hquad, hlimit]
  cases s with
  | cs => exact absurd rfl hs
  | _ => cases data <;> decide

theorem gdtLoaded_length : (gdtLoaded code data).length = 48 := by
  rw [gdtLoaded, List.length_set, List.length_set]
  rfl

theorem TableAt.moved (h : TableAt mem b) : TableAt (moveBytes 0x80000 b 48 mem) 0x80000 := by
  obtain ⟨x, y, htable⟩ := h
  exact ⟨x, y, htable.moved (Nat.le_of_eq gdtLoaded_length) (by decide)⟩

structure Boot (mem : Memory) (a : Word) : Prop where
  init : Bytes mem a (assemble (initPm a))
  ok : Bytes mem (gdtOk a) (assemble (gdtOkCode a))
  loop : Bytes mem (trampoline a) (assemble trampolineCode)
  pointer : Bytes mem (newGdtPtr a) newGdt
  table : TableAt mem (gdtStart a)

theorem boot_of_bytes (h : Bytes mem a (bootCode a (gdtLoaded code data))) : Boot mem a := by
  obtain ⟨hok, hloop, hptr, htable⟩ := labels a
  obtain ⟨h₁, h⟩ := bytes_append.mp h
  rw [← hok] at h
  obtain ⟨h₂, h⟩ := bytes_append.mp h
  rw [← hloop] at h
  obtain ⟨h₃, h⟩ := bytes_append.mp h
  rw [← hptr] at h
  obtain ⟨h₄, h⟩ := bytes_append.mp h
  rw [← htable] at h
  exact ⟨h₁, h₂, h₃, h₄, code, data, h⟩

/-! ### init_pm -/

def reloaded (c : Cpu) : Cpu :=
  let t := withSegments dataSegments dataSeg
    (c.map fun m => m.setGpr .eax ((m.gpr .eax).extractLsb' 16 16 ++ dataSeg))
  (t.map (·.setGpr .ebp 0x90000)).map fun m => m.setGpr .esp (m.gpr .ebp)

theorem run_reload (h : TableAt c.mem c.gdtBase) (hlimit : c.gdtLimit = 47) :
    runOps usable reload c = some (reloaded c) := by
  obtain ⟨c₁, hc₁⟩ : ∃ c₁, c₁ =
      c.map fun m => m.setGpr .eax ((m.gpr .eax).extractLsb' 16 16 ++ dataSeg) := ⟨_, rfl⟩
  have hax : (c₁.core.gpr .eax).truncate 16 = dataSeg := by
    rw [hc₁]
    exact BitVec.setWidth_append_eq_right
  have hsel : ∀ s ∈ dataSegments, selects usable s dataSeg c₁ = true := fun s hs => by
    have hcs : s ≠ .cs := fun heq => absurd (heq ▸ hs) (by decide)
    rw [hc₁]
    exact selects_data h hlimit hcs
  have hfirst : runOps usable reload c =
      runOps usable (dataSegments.map .movSeg ++ [.mov .ebp 0x90000, .movReg .esp .ebp]) c₁ := by
    rw [hc₁]
    rfl
  rw [hfirst, run_movSegs dataSegments hax hsel, hc₁]
  rfl

structure Stage (m : Memory) (place : Word) (c : Cpu) : Prop where
  eip : c.eip = place
  mem : c.mem = m
  esp : c.core.esp = 0x90000
  seg : ∀ s, c.core.seg s = if s = .cs then codeSeg else dataSeg
  base : c.gdtBase = 0x80000
  limit : c.gdtLimit = 47

theorem Stage.goto (h : Stage mem b c) (a : Word) : Stage mem a (c.goto a) :=
  ⟨rfl, h.mem, h.esp, h.seg, h.base, h.limit⟩

theorem Stage.copy {dst src : Word} {n : Nat} {bs : List Byte} (h : Stage mem b c)
    (hcode : Bytes mem b (assemble (copyCode dst src n) ++ bs))
    (hup : (src - dst).toNat + 4 * n ≤ 4294967296) (hclear : Clear (b + 16) 2 dst (4 * n)) :
    ∃ c', Steps usable c c' ∧ Stage (moveBytes dst src (4 * n) mem) (b + 18) c' := by
  rw [← h.eip, ← h.mem] at hcode
  rw [← h.eip] at hclear
  refine ⟨_, steps_copy hcode hup hclear, ?_⟩
  exact ⟨congrArg (· + 18) h.eip, congrArg (moveBytes dst src (4 * n)) h.mem, h.esp, h.seg, h.base,
    h.limit⟩

def InSector (b : Word) (n : Nat) : Prop := 0x7C00 ≤ b.toNat ∧ b.toNat + n ≤ 0x7E00

theorem InSector.at {n : Nat} (h : InSector a n) (k m : Nat) (hk : k + m ≤ n) :
    InSector (a + BitVec.ofNat 32 k) m := by
  obtain ⟨hlow, hhigh⟩ := h
  have hadd : (a + BitVec.ofNat 32 k).toNat = a.toNat + k := by
    rw [BitVec.toNat_add, BitVec.toNat_ofNat]
    omega
  exact ⟨by omega, by omega⟩

theorem InSector.head {n m : Nat} (h : InSector a n) (hm : m ≤ n) : InSector a m :=
  ⟨h.1, Nat.le_trans (Nat.add_le_add_left hm _) h.2⟩

theorem InSector.clear_table {n : Nat} (h : InSector b n) : Clear b n 0x80000 48 := by
  obtain ⟨hlow, hhigh⟩ := h
  have hsub : (b - 0x80000).toNat = b.toNat + 4294443008 := by bv_omega
  exact ⟨by omega, by omega⟩

theorem InSector.clear_loop {n : Nat} (h : InSector b n) : Clear b n 0x600 28 := by
  obtain ⟨hlow, hhigh⟩ := h
  have hsub : (b - 0x600).toNat = b.toNat - 1536 := by bv_omega
  exact ⟨by omega, by omega⟩

theorem Boot.table_moved (h : Boot mem a) (hin : InSector a 157) :
    Boot (moveBytes 0x80000 (gdtStart a) 48 mem) a where
  init := h.init.kept (hin.head (by decide : 53 ≤ 157)).clear_table
  ok := h.ok.kept (hin.at 53 23 (by decide)).clear_table
  loop := h.loop.kept (hin.at 76 27 (by decide)).clear_table
  pointer := h.pointer.kept (hin.at 103 6 (by decide)).clear_table
  table := by
    obtain ⟨x, y, htable⟩ := h.table
    refine ⟨x, y, htable.kept ?_⟩
    rw [gdtLoaded_length]
    exact (hin.at 109 48 (by decide)).clear_table

theorem withSegments_seg (segs : List Seg) (selector : BitVec 16) (c : Cpu) (s : Seg) :
    (withSegments segs selector c).core.seg s = if s ∈ segs then selector else c.core.seg s := by
  induction segs generalizing c with
  | nil => rfl
  | cons q segs ih =>
    have hstep : (withSegments (q :: segs) selector c) =
        withSegments segs selector (c.map (·.setSeg q selector)) := rfl
    rw [hstep, ih]
    by_cases hs : s ∈ segs
    · rw [if_pos hs, if_pos (List.mem_cons_of_mem q hs)]
    · rw [if_neg hs]
      by_cases hq : s = q
      · rw [hq, if_pos List.mem_cons_self]
        exact Processor.setSeg_self
      · rw [if_neg fun hmem => (List.mem_cons.mp hmem).elim hq hs]
        exact Processor.setSeg_other hq

/-- lgdt finds the pointer, and the far jump takes CS from the table in its new place. -/
theorem steps_takeTable (hcode : Bytes c.mem c.eip (assemble (takeTable a)))
    (hptr : Bytes c.mem (newGdtPtr a) newGdt) (htable : TableAt c.mem 0x80000)
    (hesp : c.core.esp = 0x90000) (hseg : ∀ s, s ≠ .cs → c.core.seg s = dataSeg) :
    ∃ c', Steps usable c c' ∧ Stage c.mem (gdtOk a) c' := by
  obtain ⟨hsize, hplace⟩ := bytes_append.mp hptr
  have hlimit : c.mem (newGdtPtr a + 1) ++ c.mem (newGdtPtr a) = 47#16 := load_le16 hsize
  have hbase : load32 c.mem (newGdtPtr a + 2) = 0x80000 := load_le32 hplace
  obtain ⟨c₁, hc₁⟩ : ∃ c₁ : Cpu, c₁ = { c with gdtLimit := 47#16, gdtBase := 0x80000 } := ⟨_, rfl⟩
  have hlgdt : runOps usable [.lgdt (newGdtPtr a)] c = some c₁ := by
    rw [hc₁, ← hlimit, ← hbase]
    rfl
  have hops : Steps usable c (c₁.goto (c.eip + 7)) :=
    (steps_ops [.lgdt (newGdtPtr a)] (by simp) hcode hlgdt).2
  have hjump : Bytes (c₁.goto (c.eip + 7)).mem (c.eip + 7) (encode (.jmpFar codeSeg (gdtOk a))) := by
    rw [hc₁]
    exact (bytes_append.mp (bytes_append.mp hcode).2).1
  have hcs : selects usable .cs codeSeg (c₁.goto (c.eip + 7 + 7)) = true := by
    rw [hc₁]
    exact selects_code htable rfl
  have hstep : step usable (c₁.goto (c.eip + 7)) =
      exec usable (.jmpFar codeSeg (gdtOk a)) (c₁.goto (c.eip + 7 + 7)) := step_at (by simp) hjump
  have hexec := hstep.trans (if_pos hcs)
  refine ⟨_, hops.tail hexec, ?_⟩
  rw [hc₁]
  refine ⟨rfl, rfl, hesp, fun s => ?_, rfl, rfl⟩
  change (if s = .cs then codeSeg else c.core.seg s) = if s = .cs then codeSeg else dataSeg
  by_cases hs : s = .cs
  · rw [if_pos hs, if_pos hs]
  · rw [if_neg hs, if_neg hs, hseg s hs]

theorem reloaded_seg (hs : s ≠ .cs) : (reloaded c).core.seg s = dataSeg := by
  have hseg : (reloaded c).core.seg s = (withSegments dataSegments dataSeg
      (c.map fun m => m.setGpr .eax ((m.gpr .eax).extractLsb' 16 16 ++ dataSeg))).core.seg s := rfl
  have hmem : s ∈ dataSegments := by
    cases s with
    | cs => exact absurd rfl hs
    | _ => decide
  rw [hseg, withSegments_seg, if_pos hmem]

/-- init_pm leaves the table in its new place and in use. -/
theorem steps_init (h : Boot c.mem c.eip) (hin : InSector c.eip 157) (hbase : c.gdtBase = gdtStart c.eip)
    (hlimit : c.gdtLimit = 47) :
    ∃ c', Steps usable c c' ∧ Stage (moveBytes 0x80000 (gdtStart c.eip) 48 c.mem) (gdtOk c.eip) c' := by
  have hafter := h.table_moved hin
  have hsplit : assemble (initPm c.eip) = assemble (reload.map .op) ++
      (assemble (copyCode 0x80000 (gdtStart c.eip) 12) ++ assemble (takeTable c.eip)) := rfl
  have hinit := h.init
  rw [hsplit] at hinit
  obtain ⟨hmem, hops⟩ := steps_ops reload (by decide) hinit (run_reload (hbase ▸ h.table) hlimit)
  obtain ⟨c₁, hc₁⟩ : ∃ c₁, c₁ = (reloaded c).goto (c.eip + 21) := ⟨_, rfl⟩
  have hsteps : Steps usable c c₁ := hc₁ ▸ hops
  have hmem₁ : c₁.mem = c.mem := hc₁ ▸ hmem
  have heip₁ : c₁.eip = c.eip + 21 := hc₁ ▸ rfl
  -- the table
  have hcode₁ : Bytes c₁.mem c₁.eip (assemble (copyCode 0x80000 (gdtStart c.eip) 12) ++
      assemble (takeTable c.eip)) := by
    rw [hmem₁, heip₁]
    exact (bytes_append.mp hinit).2
  have hup : (gdtStart c.eip - 0x80000).toNat + 4 * 12 ≤ 4294967296 :=
    (hin.at 109 48 (by decide)).clear_table.2
  have hclear : Clear (c₁.eip + 16) 2 0x80000 (4 * 12) := by
    rw [heip₁, BitVec.add_assoc]
    exact (hin.at 37 2 (by decide)).clear_table
  obtain ⟨c₂, hc₂⟩ : ∃ c₂, c₂ = (copied 0x80000 (gdtStart c.eip) 12 c₁).goto (c₁.eip + 18) := ⟨_, rfl⟩
  have hcopy : Steps usable c₁ c₂ := hc₂ ▸ steps_copy hcode₁ hup hclear
  have hmem₂ : c₂.mem = moveBytes 0x80000 (gdtStart c.eip) 48 c.mem := by
    rw [hc₂, ← hmem₁]
    rfl
  have heip₂ : c₂.eip = c.eip + 39 := by
    have hsum : c.eip + 21 + 18 = c.eip + 39 := BitVec.add_assoc c.eip 21 18
    rw [hc₂, ← hsum, ← heip₁]
    rfl
  -- lgdt and the far jump
  have htable : TableAt (moveBytes 0x80000 (gdtStart c.eip) 48 c.mem) 0x80000 := h.table.moved
  have hcode₂ := hafter.init
  rw [hsplit] at hcode₂
  have hlast := (bytes_append.mp (bytes_append.mp hcode₂).2).2
  have hplace : c.eip + 21 + 18 = c₂.eip := (BitVec.add_assoc c.eip 21 18).trans heip₂.symm
  change Bytes _ (c.eip + 21 + 18) _ at hlast
  rw [hplace, ← hmem₂] at hlast
  rw [← hmem₂] at hafter htable ⊢
  have hesp : c₂.core.esp = 0x90000 := by
    rw [hc₂, hc₁]
    rfl
  have hseg : ∀ s, s ≠ .cs → c₂.core.seg s = dataSeg := fun s hs => by
    rw [hc₂, hc₁]
    exact reloaded_seg hs
  obtain ⟨c', hc', hstage⟩ := steps_takeTable hlast hafter.pointer htable hesp hseg
  exact ⟨c', (hsteps.trans hcopy).trans hc', hstage⟩

/-- The copy loop is copied and jumped to. -/
theorem steps_gdtOk (h : Boot mem a) (hin : InSector a 157) (hs : Stage mem (gdtOk a) c) :
    ∃ c', Steps usable c c' ∧ Stage (moveBytes 0x600 (trampoline a) 28 mem) 0x600 c' := by
  have hup : (trampoline a - 0x600).toNat + 4 * 7 ≤ 4294967296 := (hin.at 76 28 (by decide)).clear_loop.2
  have hclear : Clear (gdtOk a + 16) 2 0x600 (4 * 7) := by
    rw [gdtOk, BitVec.add_assoc]
    exact (hin.at 69 2 (by decide)).clear_loop
  have hsplit : assemble (gdtOkCode a) = assemble (copyCode 0x600 (trampoline a) 7) ++
      encode (.jmp (0x600 - trampoline a)) := rfl
  obtain ⟨c₁, hcopy, hs₁⟩ := hs.copy (hsplit ▸ h.ok) hup hclear
  have hat : gdtOk a + 18 = a + 71 := BitVec.add_assoc a 53 18
  have hjump : Bytes c₁.mem c₁.eip (encode (.jmp (0x600 - trampoline a))) := by
    have hkept : Bytes (moveBytes 0x600 (trampoline a) 28 mem) (gdtOk a) (assemble (gdtOkCode a)) :=
      h.ok.kept (hin.at 53 23 (by decide)).clear_loop
    rw [hsplit] at hkept
    rw [hs₁.mem, hs₁.eip]
    exact (bytes_append.mp hkept).2
  have hstep : step usable c₁ = exec usable (.jmp (0x600 - trampoline a)) (c₁.goto (c₁.eip + 5)) :=
    step_at (by simp) hjump
  have htarget : c₁.eip + 5 + (0x600 - trampoline a) = 0x600 := by
    have hbehind : c₁.eip + 5 = trampoline a := by
      rw [hs₁.eip, hat]
      exact BitVec.add_assoc a 71 5
    rw [hbehind, BitVec.add_comm]
    exact BitVec.sub_add_cancel ..
  have hexec : exec usable (.jmp (0x600 - trampoline a)) (c₁.goto (c₁.eip + 5)) =
      some ((c₁.goto (c₁.eip + 5)).goto (c₁.eip + 5 + (0x600 - trampoline a))) := rfl
  rw [htarget] at hexec
  exact ⟨_, hcopy.tail (hstep.trans hexec), (hs₁.goto _).goto 0x600⟩

/- The address behind the call of the kernel. -/
def afterCall : Word := 0x619

/-- The kernel is copied to where it is linked and called. -/
theorem steps_trampoline (hcode : Bytes mem 0x600 (assemble trampolineCode)) (hs : Stage mem 0x600 c) :
    ∃ c', Steps usable c c' ∧ c'.eip = kernelOffset ∧ c'.core.esp = 0x8FFFC ∧
      c'.mem = store32 0x8FFFC afterCall (moveBytes kernelOffset 0x10000 65536 mem) ∧
      (∀ s, c'.core.seg s = if s = .cs then codeSeg else dataSeg) ∧ c'.gdtBase = 0x80000 ∧
      c'.gdtLimit = 47 := by
  have hsplit : assemble trampolineCode = assemble (copyCode kernelOffset 0x10000 16384) ++
      (encode (.op (.mov .eax kernelOffset)) ++ (encode (.call .eax) ++ encode (.jmpShort (-2)))) := rfl
  have hkept : Bytes (moveBytes kernelOffset 0x10000 65536 mem) 0x600 (assemble trampolineCode) :=
    hcode.kept ⟨by decide, by decide⟩
  rw [hsplit] at hcode hkept
  obtain ⟨c₁, hcopy, hs₁⟩ := hs.copy hcode (by decide) ⟨by decide, by decide⟩
  obtain ⟨hmov, hrest⟩ := bytes_append.mp (bytes_append.mp hkept).2
  have hcall := (bytes_append.mp hrest).1
  have heip₁ : c₁.eip = 0x612 := hs₁.eip
  obtain ⟨c₂, hc₂⟩ : ∃ c₂, c₂ = (c₁.goto 0x617).map (·.setGpr .eax kernelOffset) := ⟨_, rfl⟩
  have hstep₁ : step usable c₁ = some c₂ := by
    have hstep : step usable c₁ = exec usable (.op (.mov .eax kernelOffset)) (c₁.goto (c₁.eip + 5)) :=
      step_at (by simp) (by rw [hs₁.mem, hs₁.eip]; exact hmov)
    rw [heip₁] at hstep
    rw [hc₂]
    exact hstep
  have hmem₂ : c₂.mem = moveBytes kernelOffset 0x10000 65536 mem := by
    rw [hc₂]
    exact hs₁.mem
  have hstep₂ : step usable c₂ = some ((c₂.map (·.push afterCall)).goto kernelOffset) := by
    have heip₂ : c₂.eip = 0x617 := by rw [hc₂]; rfl
    have hstep : step usable c₂ = exec usable (.call .eax) (c₂.goto (c₂.eip + 2)) :=
      step_at (by simp) (by rw [hmem₂, heip₂]; exact hcall)
    have heax : c₂.core.gpr .eax = kernelOffset := by
      rw [hc₂]
      exact Processor.setGpr_self
    rw [heip₂] at hstep
    rw [← heax]
    exact hstep
  have hesp : c₂.core.esp = 0x90000 := by
    rw [hc₂]
    exact hs₁.esp
  refine ⟨_, (hcopy.tail hstep₁).tail hstep₂, rfl, ?_, ?_, ?_, ?_, ?_⟩
  · change (c₂.core.push afterCall).esp = _
    rw [Processor.push_esp, hesp]
    rfl
  · change store32 (c₂.core.esp - 4) afterCall c₂.mem = _
    rw [hesp, hmem₂]
    rfl
  · rw [hc₂]
    exact hs₁.seg
  · rw [hc₂]
    exact hs₁.base
  · rw [hc₂]
    exact hs₁.limit

structure AtKernel (mem : Memory) (c : Cpu) : Prop where
  eip : c.eip = kernelOffset
  esp : c.core.esp = 0x8FFFC
  seg : ∀ s, c.core.seg s = if s = .cs then codeSeg else dataSeg
  base : c.gdtBase = 0x80000
  limit : c.gdtLimit = 47
  table : TableAt c.mem 0x80000
  kernel : ∀ image : List Byte, image.length ≤ kernelSectors * 512 → Bytes mem 0x10000 image →
    Bytes c.mem kernelOffset image
  /- Behind the call lies jmp $. -/
  returns : load32 c.mem 0x8FFFC = afterCall ∧ Bytes c.mem afterCall (encode (.jmpShort (-2)))
  others : ∀ x : Word, 28 ≤ (x - 0x600).toNat → 65536 ≤ (x - kernelOffset).toNat →
    48 ≤ (x - 0x80000).toNat → 4 ≤ (x - 0x8FFFC).toNat → c.mem x = mem x

/-- From protected mode to the kernel: wherever init_pm lies in the boot sector and whatever memory and the
registers hold, the kernel that was read to 0x10000 is entered at the address it is linked to, with a
segment table that its copy has not reached. -/
theorem kernel_entered {c : Cpu} (hcode : Bytes c.mem c.eip (bootCode c.eip (gdtLoaded code data)))
    (hin : InSector c.eip 157) (hbase : c.gdtBase = gdtStart c.eip) (hlimit : c.gdtLimit = 47) :
    ∃ c', Steps usable c c' ∧ AtKernel c.mem c' := by
  have hboot := boot_of_bytes hcode
  obtain ⟨c₁, hsteps₁, hs₁⟩ := steps_init hboot hin hbase hlimit
  have hboot₁ := hboot.table_moved hin
  obtain ⟨c₂, hsteps₂, hs₂⟩ := steps_gdtOk hboot₁ hin hs₁
  have hloop : Bytes (moveBytes 0x600 (trampoline c.eip) 28 (moveBytes 0x80000 (gdtStart c.eip) 48 c.mem))
      0x600 (assemble trampolineCode) := hboot₁.loop.moved (by decide) (by decide)
  obtain ⟨c₃, hsteps₃, heip, hesp, hmem, hseg, hgdt, hlim⟩ := steps_trampoline hloop hs₂
  refine ⟨c₃, (hsteps₁.trans hsteps₂).trans hsteps₃, heip, hesp, hseg, hgdt, hlim, ?_, ?_, ?_, ?_⟩
  · obtain ⟨x, y, htable⟩ : TableAt (moveBytes 0x80000 (gdtStart c.eip) 48 c.mem) 0x80000 :=
      hboot.table.moved
    rw [hmem]
    refine ⟨x, y, ((htable.kept ?_).kept ?_).stored ?_⟩ <;> rw [gdtLoaded_length] <;>
      exact ⟨by decide, by decide⟩
  · intro image hlength himage
    have htable : Clear 0x10000 65536 0x80000 48 := ⟨by decide, by decide⟩
    have hloop : Clear 0x10000 65536 0x600 28 := ⟨by decide, by decide⟩
    have hstack : Clear kernelOffset 65536 0x8FFFC 4 := ⟨by decide, by decide⟩
    have hfrom : Bytes (moveBytes 0x600 (trampoline c.eip) 28
        (moveBytes 0x80000 (gdtStart c.eip) 48 c.mem)) 0x10000 image :=
      (himage.kept (htable.head hlength)).kept (hloop.head hlength)
    rw [hmem]
    exact (hfrom.moved hlength (by decide)).stored (hstack.head hlength)
  · have hcall : Bytes (moveBytes kernelOffset 0x10000 65536 (moveBytes 0x600 (trampoline c.eip) 28
        (moveBytes 0x80000 (gdtStart c.eip) 48 c.mem))) 0x600 (assemble trampolineCode) :=
      hloop.kept ⟨by decide, by decide⟩
    have hlast : assemble trampolineCode =
        (assemble trampolineCode).take 25 ++ encode (.jmpShort (-2)) := rfl
    rw [hlast] at hcall
    have hback : Bytes _ afterCall (encode (.jmpShort (-2))) := (bytes_append.mp hcall).2
    rw [hmem]
    exact ⟨Processor.load32_store32, hback.stored ⟨by decide, by decide⟩⟩
  · intro x hloop hkernel htable hstack
    rw [hmem, Processor.store32_out hstack, moveBytes, if_neg (Nat.not_lt.mpr hkernel), moveBytes,
      if_neg (Nat.not_lt.mpr hloop), moveBytes, if_neg (Nat.not_lt.mpr htable)]

/- The direction flag is set, and nothing but the boot sector is in memory. -/
def sampleBoot : Cpu where
  core :=
    { gpr := fun _ => 0
      seg := fun _ => 0
      eip := 0x7D00
      eflags := df
      ss0 := 0
      esp0 := 0
      mem := fun x => (bootCode 0x7D00 (gdtLoaded true false)).getD (x - 0x7D00).toNat 0 }
  gdtBase := gdtStart 0x7D00
  gdtLimit := 47

theorem bootCode_length (a : Word) : (bootCode a (gdtLoaded code data)).length = 157 := by
  have hinit : (assemble (initPm a)).length = 53 := rfl
  have hok : (assemble (gdtOkCode a)).length = 23 := rfl
  have hloop : (assemble trampolineCode).length = 27 := rfl
  have htable : (newGdt ++ gdtLoaded code data).length = 54 := by
    rw [List.length_append, gdtLoaded_length]
    rfl
  rw [bootCode, List.length_append, List.length_append, List.length_append, hinit, hok, hloop, htable]

theorem sampleBoot_code :
    Bytes sampleBoot.mem sampleBoot.eip (bootCode sampleBoot.eip (gdtLoaded true false)) := by
  have heip : sampleBoot.eip = 0x7D00 := rfl
  have hmem : sampleBoot.mem =
      fun x => (bootCode 0x7D00 (gdtLoaded true false)).getD (x - 0x7D00).toNat 0 := rfl
  rw [heip, hmem]
  exact bytes_getD (by rw [bootCode_length]; decide)

theorem sampleBoot_entered : ∃ c', Steps usable sampleBoot c' ∧ AtKernel sampleBoot.mem c' :=
  kernel_entered sampleBoot_code ⟨by decide, by decide⟩ rfl rfl

end AdamOS.Bootstrap
