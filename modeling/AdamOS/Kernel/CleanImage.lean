import AdamOS.Files.ReadWrite
import AdamOS.Kernel.ExecImage
import AdamOS.Kernel.FrameCount

/-! Whether exec leaves a clean image: the file and zeros in its pages, the argument on the stack,
and nothing of the old image within reach. -/
namespace AdamOS.Paging
open AdamOS.Process AdamOS.Scheduler AdamOS.Lifecycle AdamOS.Word AdamOS.Loop AdamOS.Transition
open AdamOS.Fat16 AdamOS.Files

/- The file that exec found, read; some none where there is none. A file for which kmalloc has no
   room and an argument that overflows arg_buf leave defined behaviour. -/
def readImage (v : Volume) (d : Disk) (garbage : Fat16Entry) (name arg : CString) (eflags : Nat) :
    Option (Option Image) :=
  (fat16FindFile v d garbage name).bind fun
    | none => some none
    | some e => (fat16ReadFile v d e).bind fun data =>
      if h : e.fileSize < 0x300000 ∧ arg.chars.length < 256 then
        some (some { size := e.fileSize, data := fun k => data.getD k 0, arg := arg
                     eflags := eflags, loads := h.1, fits := h.2 })
      else none

def handleSyscallExec (v : Volume) (d : Disk) (garbage : Fat16Entry) (name arg : CString)
    (eflags pd : Nat) (regs : Registers) (m : Memory) : Option (Registers × Memory) :=
  (readImage v d garbage name arg eflags).map fun
    | none => ({ regs with eax := minusOne }, m)
    | some x => (updateRegisters (x.program pd (clearPageDirectory pd m)) regs, execImage pd x m)

def Memory.byteAt (m : Memory) (P a : Nat) : UInt8 :=
  pageByte (m.page P (a / pageSize)) (a % pageSize)

/-- The exec entry of the kernel is handle_syscall_exec. -/
theorem kernelEntry_exec {k k' : Kernel} {cur : Pcb} {ev : Event} {regs : Registers} {v : Volume}
    {d : Disk} {garbage : Fat16Entry} {name arg : CString} {eflags : Nat} {found : Option Image}
    (hcur : k.sched.currentProcess = some cur) (hcall : Calls ev .exec)
    (hread : readImage v d garbage name arg eflags = some found)
    (he : kernelEntry k ev (found.map fun x => x.program (frameOf cur.pageDirectory)
      (clearPageDirectory (frameOf cur.pageDirectory) k.memory)) = some (k', regs)) :
    handleSyscallExec v d garbage name arg eflags (frameOf cur.pageDirectory) ev.regs k.memory =
      some (regs, k'.memory) := by
  obtain ⟨cur', env, m, out, hc, hp, hout, -, hr, hmem⟩ := kernelEntry_eq he
  obtain rfl : cur' = cur := Option.some.inj (hc.symm.trans hcur)
  obtain ⟨hrel, -⟩ := exec_sched (hcall.withEnv env) hout
  have hregs : out.regs = env.execRegs := by
    rw [handle_syscall (hcall.withEnv env), syscallHandlerMain, (hcall.withEnv env).2] at hout
    cases hout
    rfl
  rw [hrel] at hmem
  simp only [pagingOf, called_iff.mpr hcall] at hp
  rw [handleSyscallExec, hread, Option.map_some, hr, hregs, hmem]
  cases found with
  | none =>
    cases hp
    rfl
  | some x =>
    obtain ⟨henv, hm⟩ := Prod.mk.inj (Option.some.inj hp)
    rw [← henv, ← hm]
    exact congrArg (fun m => some (_, m)) (execImage_eq _ x k.memory)

/-! ### A clean image -/

def FileByte (v : Volume) (d : Disk) (e : Fat16Entry) (k : Nat) (b : UInt8) : Prop :=
  ∃ cs, Chain v d e.startCluster cs ∧ (chainBytes v d cs)[k]? = some b

def ImagePage (size page : Nat) : Prop :=
  (userFuncPage ≤ page ∧ page < userFuncPage + ((size + pageSize - 1) / pageSize + bssPages)) ∨
    page = userStackPage

/- A string that the process can read is at an address. -/
def PointsTo (m : Memory) (P a : Nat) (s : List UInt8) : Prop :=
  ∀ k ≤ s.length, accessible m P ((a + k) / pageSize) = true ∧ m.byteAt P (a + k) = s.getD k 0

/- The process can reach the pages of the image and no others; they hold the file, zeros and the
   argument block. The call in _start puts the return address below useresp, so main finds its
   argument there. -/
structure CleanImage (v : Volume) (d : Disk) (e : Fat16Entry) (arg : CString) (P : Nat)
    (regs : Registers) (m : Memory) : Prop where
  mapped : ∀ page < 1048576, accessible m P page = true ↔ ImagePage e.fileSize page
  file : ∀ k < e.fileSize, FileByte v d e k (m.byteAt P (userFuncPage * pageSize + k))
  zero : ∀ a, ImagePage e.fileSize (a / pageSize) →
    ¬(userFuncPage * pageSize ≤ a ∧ a < userFuncPage * pageSize + e.fileSize) →
    ¬(regs.useresp ≤ a ∧ a < Image.stackTop) → m.byteAt P a = 0
  eip : regs.eip = userFuncPage * pageSize
  argument : PointsTo m P (le32 (m.byteAt P) regs.useresp) arg.chars

/- What exec relies on: it writes neither the rest of the last code page nor the stack page outside
   the argument, no argument block for an empty string, and no mapping below USER_FUNC_VADDR but
   those of the new tables. -/
structure StartsClean (M : Machine) (x : Image) (P : Nat) (m : Memory) : Prop where
  argument : x.arg.chars ≠ []
  code : x.size % pageSize ≠ 0 → ∀ k, x.size % pageSize ≤ k → k < pageSize →
    pageByte (m.phys (imageFrame (clearPageDirectory P m) (x.codePages - 1))) k = 0
  stack : ∀ k < pageSize,
    ¬((x.strAddr - 4) % pageSize ≤ k ∧ k < Image.stackTop % pageSize) →
      pageByte (m.phys (imageFrame (clearPageDirectory P m) x.totalPages)) k = 0
  low : ∀ page < userFuncPage,
    accessible (identityMapIn P (stackTable (clearPageDirectory P m) x)
      (identityMapIn P (imageTable (clearPageDirectory P m)) m)) P page = false
  device : ¬deviceIndex M userIndex ∧ ¬deviceIndex M stackIndex

section Read
variable {v : Volume} {d : Disk} {garbage e : Fat16Entry} {name arg : CString} {eflags : Nat}
  {x : Image}

structure ReadFrom (v : Volume) (d : Disk) (e : Fat16Entry) (arg : CString) (x : Image) : Prop where
  size : x.size = e.fileSize
  arg : x.arg = arg
  file : ∃ data, fat16ReadFile v d e = some data ∧ x.data = fun k => data.getD k 0

theorem readImage_found (hfind : fat16FindFile v d garbage name = some (some e))
    (hread : readImage v d garbage name arg eflags = some (some x)) : ReadFrom v d e arg x := by
  rw [readImage, hfind, Option.bind_some] at hread
  obtain ⟨data, hdata, hx⟩ := Option.bind_eq_some_iff.mp hread
  by_cases h : e.fileSize < 0x300000 ∧ arg.chars.length < 256
  · rw [dif_pos h] at hx
    cases hx
    exact ⟨rfl, rfl, data, hdata, rfl⟩
  · rw [dif_neg h] at hx
    cases hx

theorem readImage_of {data : List UInt8} (hfind : fat16FindFile v d garbage name = some (some e))
    (hdata : fat16ReadFile v d e = some data)
    (hfit : e.fileSize < 0x300000 ∧ arg.chars.length < 256) :
    ∃ x, x.arg = arg ∧ readImage v d garbage name arg eflags = some (some x) := by
  rw [readImage, hfind, Option.bind_some]
  dsimp only
  rw [hdata, Option.bind_some, dif_pos hfit]
  exact ⟨_, rfl, rfl⟩

theorem handleSyscallExec_found (pd : Nat) (regs : Registers) (m : Memory)
    (hread : readImage v d garbage name arg eflags = some (some x)) :
    handleSyscallExec v d garbage name arg eflags pd regs m =
      some (updateRegisters (x.program pd (clearPageDirectory pd m)) regs, execImage pd x m) := by
  rw [handleSyscallExec, hread, Option.map_some]

/-- A regular file of a well-formed volume is in the buffer byte for byte. -/
theorem ReadFrom.fileByte (h : ReadFrom v d e arg x) (wf : WellFormed v d)
    (hfind : fat16FindFile v d garbage name = some (some e)) (hreg : e.isRegular = true) {k : Nat}
    (hk : k < e.fileSize) : FileByte v d e k (x.data k) := by
  obtain ⟨data, hdata, hx⟩ := h.file
  obtain ⟨cs, hc, hlen⟩ : ∃ cs, Chain v d e.startCluster cs ∧
      cs.length = max 1 (clustersFor v e.fileSize) := by
    rcases found_entry hfind with rfl | ⟨hm, hn⟩
    · rw [rootEntry_regular] at hreg
      cases hreg
    · rcases (wf.entries e hm hn).chain with ⟨-, hz⟩ | ⟨cs, hc, hlen⟩
      · omega
      · exact ⟨cs, hc, hlen hreg⟩
  have heq : chainBytes v d cs = data := Option.some.inj (hc.readFile.symm.trans hdata)
  have hpos := wf.clusterBytes_pos
  have hceil : e.fileSize ≤ clustersFor v e.fileSize * v.clusterBytes := by
    have hdiv := Nat.div_add_mod (e.fileSize + v.clusterBytes - 1) v.clusterBytes
    have hmod := Nat.mod_lt (e.fileSize + v.clusterBytes - 1) hpos
    rw [Nat.mul_comm, ← clustersFor] at hdiv
    omega
  have hall : e.fileSize ≤ data.length := by
    rw [← heq, chainBytes_length, hlen]
    exact Nat.le_trans hceil (Nat.mul_le_mul_right _ (Nat.le_max_right ..))
  refine ⟨cs, hc, ?_⟩
  rw [heq, hx]
  dsimp only
  rw [List.getD_eq_getElem?_getD, List.getElem?_eq_getElem (Nat.lt_of_lt_of_le hk hall),
    Option.getD_some]

end Read

section Bytes
variable {R : Regime} {own : Owners} {dirs : List Nat} {m m' c : Memory} {P : Nat} {x : Image}
  {page off : Nat}

theorem byteAt_lookup {f : Nat} (h : m.lookup P page = entry f pageFlagUser) (hoff : off < pageSize) :
    m.byteAt P (page * pageSize + off) = pageByte (m.phys f) off := by
  have hpos : 0 < pageSize := by decide
  have hpage : (page * pageSize + off) / pageSize = page := by
    rw [Nat.mul_comm, Nat.mul_add_div hpos, Nat.div_eq_of_lt hoff, Nat.add_zero]
  have hmod : (page * pageSize + off) % pageSize = off := by
    rw [Nat.mul_comm, Nat.mul_add_mod, Nat.mod_eq_of_lt hoff]
  rw [Memory.byteAt, hpage, hmod, Memory.page]
  by_cases hp : present (m.phys P (page / 1024)) = true
  · rw [Memory.lookup, if_pos hp] at h
    rw [h, frameOf_entry (by decide)]
  · rw [Memory.lookup, if_neg hp] at h
    have hne : entry f pageFlagUser ≠ 0 := Nat.ne_of_gt (Nat.lt_of_lt_of_le (by decide) (Nat.le_add_left ..))
    exact absurd h.symm hne

theorem ImageLoaded.codeByte (h : ImageLoaded R own dirs m c P x m') {i : Nat} (hi : i < x.totalPages)
    (hoff : off < pageSize) : m'.byteAt P ((userFuncPage + i) * pageSize + off) =
      if i * pageSize + off < x.size then x.data (i * pageSize + off)
      else if i < x.codePages then pageByte (m.phys (imageFrame c i)) off else 0 := by
  obtain ⟨hp, hw⟩ := h.pages i hi
  rw [byteAt_lookup hp hoff, hw]
  by_cases hc : i < x.codePages
  · rw [if_pos hc, if_pos hc, Image.copyCode, pageByte_copyInto, Nat.sub_zero]
    have hiff : (0 ≤ off ∧ off < 0 + min (x.size - i * pageSize) pageSize) ↔
        i * pageSize + off < x.size := by omega
    simp only [hiff]
  · have hout : ¬i * pageSize + off < x.size := by
      simp only [Image.codePages, pageSize] at hc ⊢
      omega
    rw [if_neg hc, if_neg hout, if_neg hc, pageByte_zero]

theorem strAddr_eq (x : Image) :
    x.strAddr = userStackPage * pageSize + (4091 - x.arg.chars.length) ∧
      x.strAddr % pageSize = 4091 - x.arg.chars.length ∧
      (x.strAddr - 4) % pageSize = 4087 - x.arg.chars.length := by
  have := x.fits
  simp only [Image.strAddr, Image.stackTop, userStackPage, pageSize]
  omega

theorem pageByte_pushArgument (x : Image) (w : Nat → Nat) (off : Nat) :
    pageByte (x.pushArgument w) off =
      if 4087 - x.arg.chars.length ≤ off ∧ off < 4091 - x.arg.chars.length then
        byteOf x.strAddr (off - (4087 - x.arg.chars.length))
      else if 4091 - x.arg.chars.length ≤ off ∧ off < 4092 then
        x.arg.chars.getD (off - (4091 - x.arg.chars.length)) 0
      else pageByte w off := by
  have hfits := x.fits
  obtain ⟨-, hs, ht⟩ := strAddr_eq x
  have hword : 4087 - x.arg.chars.length + 4 = 4091 - x.arg.chars.length := by omega
  have hstr : 4091 - x.arg.chars.length + (x.arg.chars.length + 1) = 4092 := by omega
  rw [Image.pushArgument, pageByte_copyInto, pageByte_copyInto, hs, ht, hword, hstr]

theorem ImageLoaded.stackByte (h : ImageLoaded R own dirs m c P x m') (hoff : off < pageSize) :
    m'.byteAt P (userStackPage * pageSize + off) =
      pageByte (x.stackWords (m.phys (imageFrame c x.totalPages))) off := by
  rw [byteAt_lookup h.stack.1 hoff, h.stack.2]

/-- Below USER_FUNC_VADDR the process reaches what it reached, but for the two new tables. -/
theorem ImageLoaded.accessible_low (h : ImageLoaded R own dirs m c P x m')
    (ho : Owned R own dirs [] m) (hP : P ∈ dirs) (hlow : page < userFuncPage) : accessible m' P page =
      accessible (identityMapIn P (stackTable c x) (identityMapIn P (imageTable c) m)) P page := by
  obtain ⟨hlt₁, hlt₂⟩ := h.tables
  have ho₁ := (ho.identityMap hP (.inl (frame_index hlt₁))).1
  have ho₂ := (ho₁.identityMap hP (.inl (frame_index hlt₂))).1
  have hlike := h.low
  generalize identityMapIn P (stackTable c x) (identityMapIn P (imageTable c) m) = m₀ at *
  have hi := kernel_index hlow
  have he := hlike.entries _ hi
  unfold accessible Memory.pte
  rw [he]
  cases hp : present (m₀.phys P (page / 1024)) with
  | false => rfl
  | true => rw [hlike.tables _ (ho₂.low P hP _ hi hp).1]

theorem ImageLoaded.accessible_high (h : ImageLoaded R own dirs m c P x m') (hP : P ∈ dirs)
    (hcode : ¬R.device userIndex) (hstack : ¬R.device stackIndex) (hv : userFuncPage ≤ page)
    (hlt : page < 1048576) : accessible m' P page = true ↔ ImagePage x.size page := by
  obtain ⟨own', ho, -⟩ := h.owned
  have hn := totalPages_le x
  have hent : ∀ f, present (entry f pageFlagUser) = true ∧ user (entry f pageFlagUser) = true :=
    fun f => ⟨by rw [present_entry]; decide, by rw [user_entry]; decide⟩
  rw [ho.accessible_iff hP hv]
  constructor
  · rintro ⟨hd, hp, -⟩
    by_contra hout
    obtain ⟨hnot, hns⟩ := not_or.mp hout
    rw [h.others page hv hlt hd (fun i hi he => hnot ⟨hv, ?_⟩) hns, present_zero] at hp
    · cases hp
    · rw [he]
      exact Nat.add_lt_add_left hi _
  · rintro (⟨-, hend⟩ | rfl)
    · obtain ⟨i, rfl⟩ := Nat.exists_eq_add_of_le hv
      have hi : i < x.totalPages := Nat.lt_of_add_lt_add_left hend
      have hindex : (userFuncPage + i) / 1024 = userIndex := by
        simp only [userFuncPage, userIndex]
        omega
      rw [hindex, (h.pages i hi).1]
      exact ⟨hcode, hent _⟩
    · rw [h.stack.1]
      exact ⟨hstack, hent _⟩

theorem image_eip (x : Image) (P : Nat) (c : Memory) (regs : Registers) :
    (updateRegisters (x.program P c) regs).eip = userFuncPage * pageSize := rfl

theorem image_useresp (x : Image) (P : Nat) (c : Memory) (regs : Registers) :
    (updateRegisters (x.program P c) regs).useresp =
      if x.arg.chars = [] then Image.stackTop
      else userStackPage * pageSize + (4087 - x.arg.chars.length) := by
  have hfits := x.fits
  have harg : (x.program P c).argLen = x.arg.chars.length := rfl
  have hsub : sub32 Image.stackTop (x.arg.chars.length + 1 + 4) =
      userStackPage * pageSize + (4087 - x.arg.chars.length) := by
    rw [sub32_eq (by simp only [Image.stackTop, userStackPage, pageSize]; omega) (by decide)]
    simp only [Image.stackTop, userStackPage, pageSize]
    omega
  show (if (x.program P c).argLen = 0 then Image.stackTop
    else sub32 Image.stackTop ((x.program P c).argLen + 1 + 4)) = _
  rw [harg, hsub]
  simp only [List.length_eq_zero_iff]

def RestZero (x : Image) (P useresp : Nat) (m : Memory) : Prop :=
  ∀ a, ImagePage x.size (a / pageSize) →
    ¬(userFuncPage * pageSize ≤ a ∧ a < userFuncPage * pageSize + x.size) →
    ¬(useresp ≤ a ∧ a < Image.stackTop) → m.byteAt P a = 0

/-- The bytes of the last code page that memcpy does not reach. -/
theorem ImageLoaded.restZero_code (h : ImageLoaded R own dirs m c P x m') {useresp : Nat}
    (hres : userStackPage * pageSize ≤ useresp) (hz : RestZero x P useresp m')
    (hpart : x.size % pageSize ≠ 0) (hoff : x.size % pageSize ≤ off) (hlt : off < pageSize) :
    pageByte (m.phys (imageFrame c (x.codePages - 1))) off = 0 := by
  have hn := totalPages_le x
  have hcode : x.codePages - 1 < x.codePages ∧ x.size ≤ (x.codePages - 1) * pageSize + off := by
    simp only [Image.codePages, pageSize] at *
    omega
  have htotal : x.codePages - 1 < x.totalPages :=
    Nat.lt_of_lt_of_le hcode.1 (Nat.le_add_right ..)
  have hbyte := h.codeByte htotal hlt
  rw [if_neg (Nat.not_lt.mpr hcode.2), if_pos hcode.1] at hbyte
  rw [← hbyte]
  have hpage : ((userFuncPage + (x.codePages - 1)) * pageSize + off) / pageSize =
      userFuncPage + (x.codePages - 1) := by
    rw [Nat.mul_comm, Nat.mul_add_div (by decide), Nat.div_eq_of_lt hlt, Nat.add_zero]
  refine hz _ ?_ ?_ ?_
  · rw [hpage]
    exact .inl ⟨Nat.le_add_right .., Nat.add_lt_add_left htotal _⟩
  · rw [Nat.add_mul]
    omega
  · simp only [userFuncPage, userStackPage, pageSize] at *
    omega

/-- The bytes of the stack page that no memcpy reaches. -/
theorem ImageLoaded.restZero_stack (h : ImageLoaded R own dirs m c P x m')
    (harg : x.arg.chars ≠ [])
    (hz : RestZero x P (userStackPage * pageSize + (4087 - x.arg.chars.length)) m')
    (hlt : off < pageSize) (hout : ¬(4087 - x.arg.chars.length ≤ off ∧ off < 4092)) :
    pageByte (m.phys (imageFrame c x.totalPages)) off = 0 := by
  have hfits := x.fits
  have hsize := x.loads
  have hbyte := h.stackByte hlt
  rw [Image.stackWords, if_neg harg, pageByte_pushArgument, if_neg (by omega), if_neg (by omega)]
    at hbyte
  rw [← hbyte]
  have hpage : (userStackPage * pageSize + off) / pageSize = userStackPage := by
    rw [Nat.mul_comm, Nat.mul_add_div (by decide), Nat.div_eq_of_lt hlt, Nat.add_zero]
  refine hz _ (.inr hpage) ?_ ?_
  · simp only [userFuncPage, userStackPage, pageSize] at *
    omega
  · simp only [Image.stackTop, userStackPage, pageSize] at *
    omega

theorem ImageLoaded.restZero (h : ImageLoaded R own dirs m c P x m') (harg : x.arg.chars ≠ [])
    (hcode : x.size % pageSize ≠ 0 → ∀ k, x.size % pageSize ≤ k → k < pageSize →
      pageByte (m.phys (imageFrame c (x.codePages - 1))) k = 0)
    (hstack : ∀ k < pageSize, ¬(4087 - x.arg.chars.length ≤ k ∧ k < 4092) →
      pageByte (m.phys (imageFrame c x.totalPages)) k = 0) :
    RestZero x P (userStackPage * pageSize + (4087 - x.arg.chars.length)) m' := by
  intro a hpage hfile hblock
  have hoff : a % pageSize < pageSize := Nat.mod_lt a (by decide)
  have ha := Nat.div_add_mod' a pageSize
  generalize a % pageSize = off at *
  generalize a / pageSize = page at *
  subst ha
  rcases hpage with ⟨hv, hend⟩ | rfl
  · obtain ⟨i, rfl⟩ := Nat.exists_eq_add_of_le hv
    have hi : i < x.totalPages := Nat.lt_of_add_lt_add_left hend
    have hout : ¬i * pageSize + off < x.size := by
      rw [Nat.add_mul] at hfile
      omega
    rw [h.codeByte hi hoff, if_neg hout]
    by_cases hc : i < x.codePages
    · have hlast : i = x.codePages - 1 ∧ x.size % pageSize ≠ 0 ∧ x.size % pageSize ≤ off := by
        simp only [Image.codePages, pageSize] at *
        omega
      obtain ⟨rfl, hpart, hle⟩ := hlast
      rw [if_pos hc]
      exact hcode hpart off hle hoff
    · rw [if_neg hc]
  · have hnot : ¬(4087 - x.arg.chars.length ≤ off ∧ off < 4092) := by
      simp only [Image.stackTop, userStackPage, pageSize] at *
      omega
    rw [h.stackByte hoff, Image.stackWords, if_neg harg, pageByte_pushArgument, if_neg (by omega),
      if_neg (by omega)]
    exact hstack off hoff hnot

theorem ImageLoaded.pointsTo (h : ImageLoaded R own dirs m c P x m') (harg : x.arg.chars ≠ [])
    (hacc : accessible m' P userStackPage = true) :
    PointsTo m' P (le32 (m'.byteAt P) (userStackPage * pageSize + (4087 - x.arg.chars.length)))
      x.arg.chars := by
  have hfits := x.fits
  have hstack : ∀ off < pageSize, m'.byteAt P (userStackPage * pageSize + off) =
      pageByte (x.pushArgument (m.phys (imageFrame c x.totalPages))) off := by
    intro off hoff
    rw [h.stackByte hoff, Image.stackWords, if_neg harg]
  obtain ⟨haddr, -, -⟩ := strAddr_eq x
  have hword : ∀ t < 4, m'.byteAt P (userStackPage * pageSize + (4087 - x.arg.chars.length) + t) =
      byteOf x.strAddr t := by
    intro t ht
    rw [Nat.add_assoc, hstack _ (by simp only [pageSize]; omega), pageByte_pushArgument,
      if_pos ⟨Nat.le_add_right .., by omega⟩, Nat.add_sub_cancel_left]
  have hlt : x.strAddr < 4294967296 := by
    rw [haddr]
    simp only [userStackPage, pageSize]
    omega
  have hfirst : m'.byteAt P (userStackPage * pageSize + (4087 - x.arg.chars.length)) =
      byteOf x.strAddr 0 := hword 0 (by decide)
  rw [le32_byteOf hlt hfirst (hword 1 (by decide)) (hword 2 (by decide))
    (hword 3 (by decide)), haddr]
  intro k hk
  have hoff : 4091 - x.arg.chars.length + k < pageSize := by
    simp only [pageSize]
    omega
  have hpage : (userStackPage * pageSize + (4091 - x.arg.chars.length + k)) / pageSize =
      userStackPage := by
    rw [Nat.mul_comm, Nat.mul_add_div (by decide), Nat.div_eq_of_lt hoff, Nat.add_zero]
  rw [Nat.add_assoc, hpage]
  refine ⟨hacc, ?_⟩
  rw [hstack _ hoff, pageByte_pushArgument, if_neg (by omega), if_pos (by omega),
    Nat.add_sub_cancel_left]

end Bytes

/-- Without an argument block the word main reads is NULL, and page 0 is out of reach. -/
theorem clean_argument {v : Volume} {d : Disk} {e : Fat16Entry} {arg : CString} {P : Nat}
    {regs : Registers} {m : Memory} (h : CleanImage v d e arg P regs m) (hsize : e.fileSize < 0x300000)
    (huse : regs.useresp = Image.stackTop) : False := by
  have hpage : ∀ k < 4, (Image.stackTop + k) / pageSize = userStackPage := by decide
  have hbyte : ∀ k < 4, m.byteAt P (Image.stackTop + k) = 0 := by
    intro k hk
    refine h.zero _ (.inr (hpage k hk)) ?_ ?_
    · simp only [Image.stackTop, userFuncPage, userStackPage, pageSize]
      omega
    · rw [huse]
      omega
  have hnull : le32 (m.byteAt P) regs.useresp = 0 := by
    rw [huse, le32, le16, le16]
    have h0 := hbyte 0 (by decide)
    rw [Nat.add_zero] at h0
    rw [h0, hbyte 1 (by decide), hbyte 2 (by decide), hbyte 3 (by decide)]
    rfl
  have hacc := (h.argument 0 (Nat.zero_le _)).1
  rw [hnull] at hacc
  rcases (h.mapped 0 (by decide)).mp hacc with ⟨hv, -⟩ | hs
  · exact absurd hv (by decide)
  · exact absurd hs (by decide)

section Clean
variable {R : Regime} {own : Owners} {dirs : List Nat} {M : Machine} {m m' : Memory} {P : Nat} {x : Image}
  {v : Volume} {d : Disk} {e : Fat16Entry} {arg : CString} {regs : Registers}

theorem ImageLoaded.startsClean (hl : ImageLoaded R own dirs m (clearPageDirectory P m) P x m')
    (h : Owned R own dirs [] m) (hP : P ∈ dirs) (hdev : ∀ i, R.device i ↔ deviceIndex M i)
    (hcode : ¬R.device userIndex) (hstack : ¬R.device stackIndex) (hread : ReadFrom v d e arg x)
    (huse : regs.useresp = if x.arg.chars = [] then Image.stackTop
      else userStackPage * pageSize + (4087 - x.arg.chars.length))
    (hclean : CleanImage v d e arg P regs m') : StartsClean M x P m := by
  obtain ⟨-, -, ht⟩ := strAddr_eq x
  have htop : Image.stackTop % pageSize = 4092 := by decide
  have harg : x.arg.chars ≠ [] := fun he => clean_argument hclean (hread.size ▸ x.loads)
    (by rw [huse, if_pos he])
  rw [if_neg harg] at huse
  have hzero : RestZero x P (userStackPage * pageSize + (4087 - x.arg.chars.length)) m' := by
    have hz := hclean.zero
    rw [← hread.size, huse] at hz
    exact hz
  refine ⟨harg, fun hpart k hk hlt => ?_, fun k hlt hout => ?_, fun page hlow => ?_,
    fun hd => hcode ((hdev _).mpr hd), fun hd => hstack ((hdev _).mpr hd)⟩
  · exact hl.restZero_code (Nat.le_add_right ..) hzero hpart hk hlt
  · rw [ht, htop] at hout
    exact hl.restZero_stack harg hzero hlt hout
  · have hlt : page < 1048576 := Nat.lt_trans hlow (by decide)
    have hnot : ¬ImagePage e.fileSize page := by
      rintro (⟨hv, -⟩ | rfl)
      · exact absurd hv (Nat.not_le.mpr hlow)
      · exact absurd hlow (by decide)
    rw [← hl.accessible_low h hP hlow]
    exact Bool.eq_false_iff.mpr (mt (hclean.mapped page hlt).mp hnot)

theorem ImageLoaded.cleanImage (hl : ImageLoaded R own dirs m (clearPageDirectory P m) P x m')
    (h : Owned R own dirs [] m) (hP : P ∈ dirs) (hcode : ¬R.device userIndex)
    (hstack : ¬R.device stackIndex) (hread : ReadFrom v d e arg x)
    (hfile : ∀ k < e.fileSize, FileByte v d e k (x.data k))
    (heip : regs.eip = userFuncPage * pageSize)
    (huse : regs.useresp = if x.arg.chars = [] then Image.stackTop
      else userStackPage * pageSize + (4087 - x.arg.chars.length))
    (hs : StartsClean M x P m) : CleanImage v d e arg P regs m' := by
  obtain ⟨-, -, ht⟩ := strAddr_eq x
  have htop : Image.stackTop % pageSize = 4092 := by decide
  have harg := hs.argument
  rw [if_neg harg] at huse
  have hmapped : ∀ page < 1048576, accessible m' P page = true ↔ ImagePage e.fileSize page := by
    intro page hlt
    by_cases hv : userFuncPage ≤ page
    · rw [← hread.size]
      exact hl.accessible_high hP hcode hstack hv hlt
    · have hlt := Nat.lt_of_not_le hv
      rw [hl.accessible_low h hP hlt, hs.low page hlt]
      refine ⟨fun hf => absurd hf (by decide), ?_⟩
      rintro (⟨hv', -⟩ | rfl)
      · exact absurd hv' hv
      · exact absurd hlt (by decide)
  refine ⟨hmapped, fun k hk => ?_, ?_, heip, ?_⟩
  · have hoff : k % pageSize < pageSize := Nat.mod_lt k (by decide)
    have hk' : k / pageSize * pageSize + k % pageSize = k := Nat.div_add_mod' k pageSize
    have hi : k / pageSize < x.totalPages := by
      have hlt : k < x.size := by rw [hread.size]; exact hk
      simp only [Image.totalPages, Image.codePages, bssPages, pageSize]
      omega
    have hbyte := hl.codeByte hi hoff
    rw [Nat.add_mul, Nat.add_assoc, hk', hread.size, if_pos hk] at hbyte
    rw [hbyte]
    exact hfile k hk
  · have hz := hl.restZero harg hs.code fun k hlt hout =>
      hs.stack k hlt (by rw [ht, htop]; exact hout)
    rw [← huse] at hz
    rw [← hread.size]
    exact hz
  · rw [huse, ← hread.arg]
    exact hl.pointsTo harg ((hmapped userStackPage (by decide)).mpr (.inr rfl))

/-- What exec leaves is clean exactly when it started clean. -/
theorem Owned.clean_iff (h : Owned R own dirs [] m) (hP : P ∈ dirs) (hpl : Plain R)
    (hfur : Furnished R P m) (hdev : ∀ i, R.device i ↔ deviceIndex M i)
    (hm : (execImage P x m).exhausted = false) (hread : ReadFrom v d e arg x)
    (hfile : ∀ k < e.fileSize, FileByte v d e k (x.data k)) :
    CleanImage v d e arg P (updateRegisters (x.program P (clearPageDirectory P m)) regs)
      (execImage P x m) ↔ StartsClean M x P m := by
  have huse := image_useresp x P (clearPageDirectory P m) regs
  have heip := image_eip x P (clearPageDirectory P m) regs
  have hload : ¬R.device userIndex → ¬R.device stackIndex →
      ImageLoaded R own dirs m (clearPageDirectory P m) P x (execImage P x m) :=
    fun hcode hstack => h.imageLoaded hP hfur hcode hstack hm
  have hexec := execImage_eq P x m
  rw [hexec] at hm
  obtain ⟨own', hx⟩ := h.execed hP _ hpl hfur hm
  rw [← hexec] at hx
  generalize updateRegisters (x.program P (clearPageDirectory P m)) regs = regs' at *
  generalize execImage P x m = m' at *
  constructor
  · intro hclean
    have hreach : ∀ page < 1048576, userFuncPage ≤ page → ImagePage e.fileSize page →
        ¬R.device (page / 1024) := fun page hlt hv hi =>
      ((hx.owned.accessible_iff hP hv).mp ((hclean.mapped page hlt).mpr hi)).1
    have hcode : ¬R.device userIndex := hreach userFuncPage (by decide) (Nat.le_refl _)
      (.inl ⟨Nat.le_refl _, Nat.lt_add_of_pos_right (Nat.add_pos_right _ (by decide))⟩)
    have hstack : ¬R.device stackIndex := hreach userStackPage (by decide) (by decide) (.inr rfl)
    exact (hload hcode hstack).startsClean h hP hdev hcode hstack hread huse hclean
  · intro hs
    have hcode : ¬R.device userIndex := fun hc => hs.device.1 ((hdev _).mp hc)
    have hstack : ¬R.device stackIndex := fun hc => hs.device.2 ((hdev _).mp hc)
    exact (hload hcode hstack).cleanImage h hP hcode hstack hread hfile heip huse hs

end Clean

/-- A successful exec leaves a clean image exactly when a non-empty argument is passed, the frames
that the last code page and the stack get hold zeros where the file and the argument leave them, the
process could reach nothing below USER_FUNC_VADDR but at the new tables, and the frame buffer is not
mapped beside the code or the stack. -/
theorem exec_clean {M : Machine} {k : Kernel} {cur : Pcb} {v : Volume} {d : Disk}
    {garbage e : Fat16Entry} {name arg : CString} {eflags : Nat} {x : Image} {regs regs' : Registers}
    {m' : Memory} (h : Reach kernelStep anyStep (bootKernel M) k)
    (hcur : k.sched.currentProcess = some cur) (wf : WellFormed v d)
    (hfind : fat16FindFile v d garbage name = some (some e)) (hreg : e.isRegular = true)
    (hread : readImage v d garbage name arg eflags = some (some x))
    (hexec : handleSyscallExec v d garbage name arg eflags (frameOf cur.pageDirectory) regs k.memory =
      some (regs', m')) (hm : m'.exhausted = false) :
    CleanImage v d e arg (frameOf cur.pageDirectory) regs' m' ↔
      StartsClean M x (frameOf cur.pageDirectory) k.memory := by
  rw [handleSyscallExec_found _ _ _ hread] at hexec
  obtain ⟨rfl, rfl⟩ := Prod.mk.inj (Option.some.inj hexec)
  have hfrom := readImage_found hfind hread
  have hserved : k.memory.exhausted = false := by
    rw [execImage_eq] at hm
    exact execDirectory_served hm
  obtain ⟨own, hs⟩ := reach_sound h hserved
  obtain ⟨hc, -⟩ := Sched.deref_mem hcur
  exact hs.owned.clean_iff (mem_spaces hc) (fun ht => ht.elim) (hs.furnished cur hc) (fun _ => Iff.rfl)
    hm hfrom fun k hk => hfrom.fileByte wf hfind hreg hk

def sampleArg : CString := sampleName
def execCall : Event := call 11 0 0

theorem sample_find : fat16FindFile sampleVolume (fileDisk 1) (fun _ => 0) sampleName =
    some (some (fileEntry 1)) := sampleFile.found (fileDisk_wellFormed (by decide)) _

theorem sample_readImage (arg : CString) (h : arg.chars.length < 256) (eflags : Nat) :
    ∃ x, x.arg = arg ∧
      readImage sampleVolume (fileDisk 1) (fun _ => 0) sampleName arg eflags = some (some x) := by
  have hsize : (fileEntry 1).fileSize < 0x300000 := by
    rw [fileEntry_size (by decide)]
    decide
  exact readImage_of sample_find fileDisk_chain.readFile ⟨hsize, h⟩

theorem sample_execImage_served (x : Image) : (execImage (mainSpace sampleMachine).1 x
    (bootKernel sampleMachine).memory).exhausted = false := by
  rw [execImage_eq]
  exact sample_exec_served _

/-- main executes a file of one byte. -/
theorem sampleExec_clean : ∃ x regs' m',
    handleSyscallExec sampleVolume (fileDisk 1) (fun _ => 0) sampleName sampleArg 0
      (mainSpace sampleMachine).1 execCall.regs (bootKernel sampleMachine).memory = some (regs', m') ∧
    (CleanImage sampleVolume (fileDisk 1) (fileEntry 1) sampleArg (mainSpace sampleMachine).1 regs' m' ↔
      StartsClean sampleMachine x (mainSpace sampleMachine).1 (bootKernel sampleMachine).memory) := by
  obtain ⟨cur, hcur, hdir, -⟩ := bootKernel_main sampleMachine
  obtain ⟨x, -, hread⟩ := sample_readImage sampleArg (by decide) 0
  have hexec := handleSyscallExec_found (mainSpace sampleMachine).1 execCall.regs
    (bootKernel sampleMachine).memory hread
  have hm := sample_execImage_served x
  rw [← hdir] at hexec hm ⊢
  exact ⟨x, _, _, hexec, exec_clean .refl hcur (fileDisk_wellFormed (by decide)) sample_find
    fileEntry_regular hread hexec hm⟩

/-- For an empty string no argument block is built. -/
theorem empty_argument_null : ¬ ∀ M k cur v d garbage e name arg eflags x regs regs' m',
    Reach kernelStep anyStep (bootKernel M) k → k.sched.currentProcess = some cur →
    WellFormed v d → fat16FindFile v d garbage name = some (some e) → e.isRegular = true →
    readImage v d garbage name arg eflags = some (some x) →
    handleSyscallExec v d garbage name arg eflags (frameOf cur.pageDirectory) regs k.memory =
      some (regs', m') → m'.exhausted = false →
    CleanImage v d e arg (frameOf cur.pageDirectory) regs' m' := by
  intro hall
  obtain ⟨cur, hcur, hdir, -⟩ := bootKernel_main sampleMachine
  let empty : CString := ⟨[], noNul_of_all rfl⟩
  obtain ⟨x, harg, hread⟩ := sample_readImage empty (by decide) 0
  have hexec := handleSyscallExec_found (mainSpace sampleMachine).1 execCall.regs
    (bootKernel sampleMachine).memory hread
  have hm := sample_execImage_served x
  rw [← hdir] at hexec hm
  have hclean := hall sampleMachine _ cur _ _ _ _ _ _ _ _ _ _ _ .refl hcur
    (fileDisk_wellFormed (by decide)) sample_find fileEntry_regular hread hexec hm
  refine clean_argument hclean (by rw [fileEntry_size (by decide)]; decide) ?_
  rw [image_useresp, harg, if_pos rfl]

end AdamOS.Paging
