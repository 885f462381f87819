import AdamOS.Kernel.Frame

/-! page-table.c. A page stands for its virtual address divided by PAGE_SIZE: page / 1024 is the
index in the directory and page % 1024 the index in the table. The kernel reaches a frame at its
physical address; what that needs of the mapping in force is recorded in `nullTable` alone. -/
namespace AdamOS.Paging
open AdamOS.Process AdamOS.Word AdamOS.Loop

def pageFlagKernel : Nat := 3
def pageFlagUser : Nat := 7
/- USER_FUNC_VADDR, USER_HEAP_VADDR and USER_STACK_VADDR as pages -/
def userFuncPage : Nat := 0x40000
def userHeapPage : Nat := 0x48000
def userStackPage : Nat := 0x50000
def userIndex : Nat := userFuncPage / 1024

/- frame address | flags, for flags below PAGE_SIZE -/
def entry (frame flags : Nat) : Nat := frame * pageSize + flags
/- entry & 0xFFFFF000 -/
def frameOf (e : Nat) : Nat := e / pageSize
/- entry & 0xFFF -/
def flagsOf (e : Nat) : Nat := e % pageSize
/- entry & 1 -/
def present (e : Nat) : Bool := e % 2 = 1
/- entry & 0x4 -/
def user (e : Nat) : Bool := e / 4 % 2 = 1

/- Only the two ghost fields of the record say whether the tables were there. -/
def identityMapIn (pd f : Nat) (m : Memory) : Memory :=
  let e := m.phys pd (f / 1024)
  let m := if present e then m else { m with nullTable := true }
  m.put (frameOf e) (f % 1024) (entry f pageFlagKernel)

def createPageTable (m : Memory) : Nat × Memory :=
  let r := allocateFrame m
  (r.1, r.2.fill r.1 fun _ => 0)

def mapPage (pd page f flags : Nat) (m : Memory) : Memory :=
  let e := m.phys pd (page / 1024)
  if present e then m.put (frameOf e) (page % 1024) (entry f (flags ||| 1))
  else
    let r := createPageTable m
    let m := r.2.put pd (page / 1024) (entry r.1 (flags ||| 1))
    (identityMapIn pd r.1 m).put r.1 (page % 1024) (entry f (flags ||| 1))

def createPageDirectory (m : Memory) : Nat × Memory :=
  let r := allocateFrame m
  (r.1, mapPage r.1 r.1 r.1 pageFlagKernel (r.2.fill r.1 fun _ => 0))

/- The inner loop of copy_page_directory. The flags are read again after the copy. -/
def copyPage (source sourceTable destTable j : Nat) (m : Memory) : Memory :=
  let e := m.phys sourceTable j
  if present e then
    let r := allocateFrame m
    let m := identityMapIn source (frameOf e) (identityMapIn source r.1 r.2)
    let m := m.fill r.1 (m.phys (frameOf e))
    m.put destTable j (entry r.1 (flagsOf (m.phys sourceTable j)))
  else m

def copyEntry (dest source i : Nat) (m : Memory) : Memory :=
  let e := m.phys source i
  if present e then
    if i < userIndex then m.put dest i e
    else
      let r := allocateFrame m
      let m := (identityMapIn source r.1 r.2).fill r.1 fun _ => 0
      let m := loop 1024 (copyPage source (frameOf e) r.1) m
      m.put dest i (entry r.1 (flagsOf (m.phys source i)))
  else m

def copyPageDirectory (dest source : Nat) (m : Memory) : Memory :=
  loop 1024 (copyEntry dest source) m

def clearPage (table j : Nat) (m : Memory) : Memory :=
  let e := m.phys table j
  if present e && user e then freeFrame (frameOf e) m else m

def clearEntry (pd i : Nat) (m : Memory) : Memory :=
  let e := m.phys pd i
  if present e && decide (userIndex ≤ i) && user e then
    (freeFrame (frameOf e) (loop 1024 (clearPage (frameOf e)) m)).put pd i 0
  else m

def clearPageDirectory (pd : Nat) (m : Memory) : Memory := loop 1024 (clearEntry pd) m

def Memory.pte (m : Memory) (pd page : Nat) : Nat :=
  m.phys (frameOf (m.phys pd (page / 1024))) (page % 1024)

def writePage (pd page : Nat) (w : Nat → Nat) (m : Memory) : Memory :=
  m.fill (frameOf (m.pte pd page)) w

/- An executable file that exec could load: kmalloc found room for a buffer that is larger than
   the file. `words` is what memcpy and memset leave in each page. -/
structure Program where
  size : Nat
  words : Nat → Nat → Nat
  /- strlen of the argument, 0 for none, and the stack page with the argument on it -/
  argLen : Nat
  stack : Nat → Nat
  /- pushf in update_page_directory -/
  eflags : Nat
  loads : size < 0x300000

/- ceil(size, PAGE_SIZE); the int arithmetic of ceil does not overflow at these sizes -/
def codePages (p : Program) : Nat := (p.size + pageSize - 1) / pageSize
def bssPages : Nat := 32

def loadPage (pd page : Nat) (w : Nat → Nat) (m : Memory) : Memory :=
  let r := allocateFrame m
  writePage pd page w (mapPage pd page r.1 pageFlagUser r.2)

def updatePageDirectory (pd : Nat) (p : Program) (m : Memory) : Memory :=
  let m := loop (codePages p + bssPages) (fun i => loadPage pd (userFuncPage + i) (p.words i)) m
  let r := allocateFrame m
  mapPage pd userStackPage r.1 pageFlagUser r.2

def updateRegisters (p : Program) (regs : Registers) : Registers :=
  let stackTop := userStackPage * pageSize + pageSize - 4
  let useresp := if p.argLen = 0 then stackTop else sub32 stackTop (p.argLen + 1 + 4)
  { regs with
    eip := userFuncPage * pageSize, useresp := useresp, esp := useresp, cs := 27, ss := 35
    eflags := p.eflags ||| 0x200, eax := 0, ebx := 0, ecx := 0, edx := 0, esi := 0, edi := 0, ebp := 0 }

/-! ### Entries -/

theorem frameOf_entry {f flags : Nat} (h : flags < pageSize) : frameOf (entry f flags) = f := by
  simp only [frameOf, entry, pageSize] at *
  omega

theorem flagsOf_entry {f flags : Nat} (h : flags < pageSize) : flagsOf (entry f flags) = flags := by
  simp only [flagsOf, entry, pageSize] at *
  omega

theorem present_entry (f flags : Nat) : present (entry f flags) = decide (flags % 2 = 1) := by
  simp only [present, entry, pageSize]
  congr 1
  exact propext ⟨fun h => by omega, fun h => by omega⟩

theorem user_entry (f flags : Nat) : user (entry f flags) = decide (flags / 4 % 2 = 1) := by
  simp only [user, entry, pageSize]
  congr 1
  exact propext ⟨fun h => by omega, fun h => by omega⟩

theorem flagsOf_lt (e : Nat) : flagsOf e < pageSize := Nat.mod_lt e (by decide)

/-- An entry keeps its flags when it is pointed at another frame. -/
theorem present_flagsOf (f e : Nat) : present (entry f (flagsOf e)) = present e := by
  simp only [present, entry, flagsOf, pageSize]
  congr 1
  exact propext ⟨fun h => by omega, fun h => by omega⟩

theorem user_flagsOf (f e : Nat) : user (entry f (flagsOf e)) = user e := by
  simp only [user, entry, flagsOf, pageSize]
  congr 1
  exact propext ⟨fun h => by omega, fun h => by omega⟩

@[simp] theorem present_zero : present 0 = false := rfl

@[simp] theorem user_zero : user 0 = false := rfl

/-! ### Nothing here clears the record of a failed allocation -/

section Served
variable {m : Memory} {pd page f flags : Nat}

theorem allocateFrame_served (h : (allocateFrame m).2.exhausted = false) : m.exhausted = false := by
  by_contra hm
  rw [allocateFrame_exhausted (by simpa using hm)] at h
  cases h

@[simp] theorem identityMapIn_exhausted : (identityMapIn pd f m).exhausted = m.exhausted := by
  unfold identityMapIn
  by_cases hp : present (m.phys pd (f / 1024)) <;> simp [hp]

theorem mapPage_served (h : (mapPage pd page f flags m).exhausted = false) :
    m.exhausted = false := by
  unfold mapPage at h
  by_cases hp : present (m.phys pd (page / 1024))
  · simpa [hp] using h
  · exact allocateFrame_served (by simpa [hp, createPageTable] using h)

theorem loop_served {n : Nat} {body : Nat → Memory → Memory}
    (hb : ∀ i b, (body i b).exhausted = false → b.exhausted = false)
    (h : (loop n body m).exhausted = false) : m.exhausted = false := by
  induction n with
  | zero => exact h
  | succ n ih => exact ih (hb n _ h)

/-- The invariant rule for a loop in which every allocation was met. -/
theorem loop_met (inv : Nat → Memory → Prop) {n : Nat} {body : Nat → Memory → Memory}
    (hb : ∀ i b, (body i b).exhausted = false → b.exhausted = false)
    (h : (loop n body m).exhausted = false) (h0 : inv 0 m)
    (hs : ∀ i < n, ∀ b, inv i b → (body i b).exhausted = false → inv (i + 1) (body i b)) :
    inv n (loop n body m) := by
  have : (loop n body m).exhausted = false → inv n (loop n body m) :=
    loop_invariant (fun i b => b.exhausted = false → inv i b) (fun _ => h0)
      fun i hi b ih hm => hs i hi b (ih (hb i b hm)) hm
  exact this h

theorem copyPage_served {source sourceTable destTable j : Nat}
    (h : (copyPage source sourceTable destTable j m).exhausted = false) : m.exhausted = false := by
  unfold copyPage at h
  by_cases hp : present (m.phys sourceTable j)
  · exact allocateFrame_served (by simpa [hp] using h)
  · simpa [hp] using h

theorem copyEntry_served {dest source i : Nat}
    (h : (copyEntry dest source i m).exhausted = false) : m.exhausted = false := by
  unfold copyEntry at h
  by_cases hp : present (m.phys source i)
  · by_cases hi : i < userIndex
    · simpa only [hp, hi, if_true, Memory.put_exhausted] using h
    · simp only [hp, hi, if_true, if_false, Memory.put_exhausted] at h
      have hr := loop_served (fun _ _ => copyPage_served) h
      rw [Memory.fill_exhausted, identityMapIn_exhausted] at hr
      exact allocateFrame_served hr
  · simpa only [hp, if_false, Bool.false_eq_true] using h

theorem copyPageDirectory_served {dest source : Nat}
    (h : (copyPageDirectory dest source m).exhausted = false) : m.exhausted = false := by
  unfold copyPageDirectory at h
  exact loop_served (fun _ _ => copyEntry_served) h

theorem clearPage_exhausted (table j : Nat) : (clearPage table j m).exhausted = m.exhausted := by
  unfold clearPage
  by_cases hp : present (m.phys table j) && user (m.phys table j) <;> simp [hp]

theorem loop_exhausted {n : Nat} {body : Nat → Memory → Memory}
    (hb : ∀ i b, (body i b).exhausted = b.exhausted) :
    (loop n body m).exhausted = m.exhausted := by
  induction n with
  | zero => rfl
  | succ n ih => rw [loop_succ, hb, ih]

theorem clearEntry_exhausted (i : Nat) : (clearEntry pd i m).exhausted = m.exhausted := by
  have hl : ∀ t, (loop 1024 (clearPage t) m).exhausted = m.exhausted :=
    fun t => loop_exhausted fun j _ => clearPage_exhausted t j
  unfold clearEntry
  by_cases hp : present (m.phys pd i) && decide (userIndex ≤ i) && user (m.phys pd i)
  · simp only [hp, if_true, Memory.put_exhausted, freeFrame_exhausted, hl]
  · simp only [hp, if_false, Bool.false_eq_true]

@[simp] theorem clearPageDirectory_exhausted :
    (clearPageDirectory pd m).exhausted = m.exhausted := by
  unfold clearPageDirectory
  exact loop_exhausted fun i _ => clearEntry_exhausted i

@[simp] theorem writePage_exhausted (w : Nat → Nat) :
    (writePage pd page w m).exhausted = m.exhausted := Memory.fill_exhausted ..

theorem loadPage_served {w : Nat → Nat} (h : (loadPage pd page w m).exhausted = false) :
    m.exhausted = false := by
  unfold loadPage at h
  rw [writePage_exhausted] at h
  exact allocateFrame_served (mapPage_served h)

theorem updatePageDirectory_served {p : Program}
    (h : (updatePageDirectory pd p m).exhausted = false) : m.exhausted = false := by
  unfold updatePageDirectory at h
  have hl := allocateFrame_served (mapPage_served h)
  exact loop_served (fun _ _ => loadPage_served) hl

end Served

end AdamOS.Paging
