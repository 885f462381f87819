import AdamOS.Files.RoundTrip
import AdamOS.Kernel.Handout
import AdamOS.Kernel.SpaceRun

/-! handle_syscall_exec down to the bytes of the new pages. memcpy and memset reach a page through
the mapping of its virtual address; a frame holds what was left in it. -/
namespace AdamOS.Paging
open AdamOS.Process AdamOS.Scheduler AdamOS.Lifecycle AdamOS.Word AdamOS.Loop AdamOS.Fat16

/-! ### Bytes of a page -/

def pageByte (w : Nat → Nat) (k : Nat) : UInt8 := byteOf (w (k / 4)) (k % 4)

def ofBytes (b : Nat → UInt8) : Nat → Nat := fun j => le32 b (4 * j)

def copyInto (w : Nat → Nat) (start n : Nat) (b : Nat → UInt8) : Nat → Nat :=
  ofBytes fun k => if start ≤ k ∧ k < start + n then b (k - start) else pageByte w k

theorem byteOf_le32 (s : Nat → UInt8) (i : Nat) {k : Nat} (hk : k < 4) :
    byteOf (le32 s i) k = s (i + k) := by
  apply UInt8.toNat_inj.mp
  rw [byteOf_toNat, le32, le16, le16]
  rw [show i + 2 + 1 = i + 3 from rfl]
  have h0 := (s i).toNat_lt
  have h1 := (s (i + 1)).toNat_lt
  have h2 := (s (i + 2)).toNat_lt
  have h3 := (s (i + 3)).toNat_lt
  generalize hn : (s i).toNat + 256 * (s (i + 1)).toNat +
    65536 * ((s (i + 2)).toNat + 256 * (s (i + 3)).toNat) = n
  obtain rfl | rfl | rfl | rfl : k = 0 ∨ k = 1 ∨ k = 2 ∨ k = 3 := by omega
  · show n / 1 % 256 = (s i).toNat
    omega
  · show n / 256 % 256 = (s (i + 1)).toNat
    omega
  · show n / 65536 % 256 = (s (i + 2)).toNat
    omega
  · show n / 16777216 % 256 = (s (i + 3)).toNat
    omega

@[simp] theorem pageByte_ofBytes (b : Nat → UInt8) (k : Nat) : pageByte (ofBytes b) k = b k := by
  rw [pageByte, ofBytes, byteOf_le32 _ _ (Nat.mod_lt k (by decide)), Nat.div_add_mod]

theorem pageByte_copyInto (w : Nat → Nat) (start n : Nat) (b : Nat → UInt8) (k : Nat) :
    pageByte (copyInto w start n b) k =
      if start ≤ k ∧ k < start + n then b (k - start) else pageByte w k := by
  rw [copyInto, pageByte_ofBytes]

@[simp] theorem pageByte_zero (k : Nat) : pageByte (fun _ => 0) k = 0 := by
  rw [pageByte, byteOf, Nat.zero_div]
  rfl

/-! ### The code of exec -/

/- What exec has read when it clears the old image: the buffer behind `data`, the size in the
   directory entry and arg_buf. kmalloc found room for the buffer, which is larger than the file. -/
structure Image where
  size : Nat
  data : Nat → UInt8
  arg : CString
  /- pushf in update_page_directory -/
  eflags : Nat
  loads : size < 0x300000
  fits : arg.chars.length < 256

namespace Image
variable (x : Image)

/- ceil(size, PAGE_SIZE) -/
def codePages : Nat := (x.size + pageSize - 1) / pageSize

def totalPages : Nat := x.codePages + bssPages

def stackTop : Nat := userStackPage * pageSize + pageSize - 4

def strAddr : Nat := stackTop - (x.arg.chars.length + 1)

/- A page that memcpy(vaddr, fn + offset, min(remaining, PAGE_SIZE)) was given. -/
def copyCode (i : Nat) (w : Nat → Nat) : Nat → Nat :=
  copyInto w 0 (min (x.size - i * pageSize) pageSize) fun k => x.data (i * pageSize + k)

def pushArgument (w : Nat → Nat) : Nat → Nat :=
  copyInto
    (copyInto w (x.strAddr % pageSize) (x.arg.chars.length + 1) fun k => x.arg.chars.getD k 0)
    ((x.strAddr - 4) % pageSize) 4 (byteOf x.strAddr)

end Image

def Memory.page (m : Memory) (P page : Nat) : Nat → Nat := m.phys (frameOf (m.pte P page))

def loadCode (pd : Nat) (x : Image) (i : Nat) (m : Memory) : Memory :=
  let r := allocateFrame m
  let m := mapPage pd (userFuncPage + i) r.1 pageFlagUser r.2
  writePage pd (userFuncPage + i) (x.copyCode i (m.page pd (userFuncPage + i))) m

def updateImage (pd : Nat) (x : Image) (m : Memory) : Memory :=
  let m := loop x.codePages (loadCode pd x) m
  let m := loop bssPages (fun i => loadPage pd (userFuncPage + (x.codePages + i)) fun _ => 0) m
  let r := allocateFrame m
  mapPage pd userStackPage r.1 pageFlagUser r.2

/- arg_buf[0] is the end of the string when no argument, or an empty one, was passed. -/
def execImage (pd : Nat) (x : Image) (m : Memory) : Memory :=
  let m := updateImage pd x (clearPageDirectory pd m)
  if x.arg.chars = [] then m
  else writePage pd userStackPage (x.pushArgument (m.page pd userStackPage)) m

/-! ### The words it leaves are a program's -/

def codeWords (pd : Nat) (x : Image) (i : Nat) (m : Memory) : Nat → Nat :=
  let r := allocateFrame m
  x.copyCode i ((mapPage pd (userFuncPage + i) r.1 pageFlagUser r.2).page pd (userFuncPage + i))

def Image.program (x : Image) (pd : Nat) (m : Memory) : Program where
  size := x.size
  words := fun i =>
    if i < x.codePages then codeWords pd x i (loop i (loadCode pd x) m) else fun _ => 0
  argLen := x.arg.chars.length
  stack := x.pushArgument ((updateImage pd x m).page pd userStackPage)
  eflags := x.eflags
  loads := x.loads

theorem loadCode_eq (pd : Nat) (x : Image) (i : Nat) (m : Memory) :
    loadCode pd x i m = loadPage pd (userFuncPage + i) (codeWords pd x i m) m := (rfl)

theorem loadCode_loop (pd : Nat) (x : Image) (m : Memory) {n : Nat} (hn : n ≤ x.codePages) :
    loop n (fun i => loadPage pd (userFuncPage + i) ((x.program pd m).words i)) m =
      loop n (loadCode pd x) m := by
  induction n with
  | zero => rfl
  | succ n ih =>
    rw [loop_succ, loop_succ, ih (Nat.le_of_succ_le hn), loadCode_eq]
    exact congrArg (loadPage pd (userFuncPage + n) · _) (if_pos hn)

theorem updateImage_loop (pd : Nat) (x : Image) (m : Memory) :
    loop x.totalPages (fun i => loadPage pd (userFuncPage + i) ((x.program pd m).words i)) m =
      loop bssPages (fun i => loadPage pd (userFuncPage + (x.codePages + i)) fun _ => 0)
        (loop x.codePages (loadCode pd x) m) := by
  rw [Image.totalPages, loop_add, loadCode_loop pd x m (Nat.le_refl _)]
  have hbss : ∀ i, (x.program pd m).words (x.codePages + i) = fun _ => 0 :=
    fun i => if_neg (Nat.not_lt.mpr (Nat.le_add_right ..))
  simp only [hbss]

theorem updateImage_eq (pd : Nat) (x : Image) (m : Memory) :
    updateImage pd x m = updatePageDirectory pd (x.program pd m) m := by
  unfold updateImage updatePageDirectory
  have hpages : codePages (x.program pd m) + bssPages = x.totalPages := rfl
  dsimp only
  rw [hpages, updateImage_loop]

theorem execImage_eq (pd : Nat) (x : Image) (m : Memory) :
    execImage pd x m = execDirectory pd (x.program pd (clearPageDirectory pd m)) m := by
  unfold execImage execDirectory
  generalize clearPageDirectory pd m = c
  dsimp only
  rw [← updateImage_eq]
  have harg : (x.program pd c).argLen = 0 ↔ x.arg.chars = [] := List.length_eq_zero_iff
  by_cases h : x.arg.chars = []
  · rw [if_pos h, if_pos (harg.mpr h)]
  · rw [if_neg h, if_neg (mt harg.mp h)]
    rfl

/-! ### Where the pages are -/

/- Page i of the image, and the stack when i is their number, is in the frame allocate_frame hands
   out for it once the old image is given back. -/
def imageFrame (c : Memory) (i : Nat) : Nat := handedOut c (taken i)

def imageTable (c : Memory) : Nat := handedOut c 1
def stackTable (c : Memory) (x : Image) : Nat := handedOut c (taken x.totalPages + 1)

def Image.stackWords (x : Image) (w : Nat → Nat) : Nat → Nat :=
  if x.arg.chars = [] then w else x.pushArgument w

def stackIndex : Nat := userStackPage / 1024

section Loaded
variable {R : Regime} {own own' : Owners} {dirs : List Nat} {m m' c : Memory} {P : Nat} {x : Image}

theorem writePage_page (P v : Nat) (m : Memory) : writePage P v (m.page P v) m = m := by
  have hphys : (m.fill (frameOf (m.pte P v)) (m.page P v)).phys = m.phys := by
    funext g
    by_cases hg : g = frameOf (m.pte P v)
    · rw [hg, Memory.fill_self, Memory.page]
    · rw [m.fill_ne _ hg]
  cases m
  simp only [writePage, Memory.fill] at hphys ⊢
  rw [hphys]

/-- Without an argument the stack page is left as it was found. -/
theorem execImage_write (P : Nat) (x : Image) (m : Memory) : execImage P x m =
    writePage P userStackPage
      (x.stackWords ((updateImage P x (clearPageDirectory P m)).page P userStackPage))
      (updateImage P x (clearPageDirectory P m)) := by
  unfold execImage Image.stackWords
  dsimp only
  by_cases h : x.arg.chars = []
  · rw [if_pos h, if_pos h, writePage_page]
  · rw [if_neg h, if_neg h]

theorem totalPages_le (x : Image) : x.totalPages ≤ 800 := by
  have := x.loads
  simp only [Image.totalPages, Image.codePages, bssPages, pageSize]
  omega

theorem totalPages_pos (x : Image) : 0 < x.totalPages :=
  Nat.lt_of_lt_of_le (by decide) (Nat.le_add_left bssPages x.codePages)

theorem Opened.page {w : Nat → Nat} {page : Nat} (h : Opened own P page w m m') :
    m'.page P page = w := by
  rw [Memory.page, h.pte, frameOf_entry (by decide), h.words]

theorem loop_served_prefix {n i : Nat} {body : Nat → Memory → Memory}
    (hb : ∀ i b, (body i b).exhausted = false → b.exhausted = false) (hi : i ≤ n)
    (h : (loop n body m).exhausted = false) : (loop i body m).exhausted = false := by
  obtain ⟨b, rfl⟩ := Nat.exists_eq_add_of_le hi
  rw [loop_add] at h
  exact loop_served (fun _ _ => hb _ _) h

/-- The image may be loaded where the old one was cleared. -/
theorem imageLoadable (hfur : Furnished R P m) (hd : ¬R.device userIndex)
    (hfree : ∀ v, userFuncPage ≤ v → v < 1048576 → ¬R.device (v / 1024) → m.lookup P v = 0)
    {n : Nat} (hn : n ≤ 1024) : Loadable R P userFuncPage n m := by
  have hindex : ∀ i < n, (userFuncPage + i) / 1024 = userIndex := by
    intro i hi
    simp only [userFuncPage, userIndex]
    omega
  refine ⟨hfur, fun i _ hlt => absurd hlt (by omega), fun _ i hi => by rw [hindex i hi]; decide,
    fun _ i _ hlt => absurd hlt (by omega), fun _ i hi hp => ?_⟩
  have hlt : userFuncPage + i < 1048576 := by
    simp only [userFuncPage]
    omega
  rw [hfree _ (Nat.le_add_right ..) hlt (hindex i hi ▸ hd), present_zero] at hp
  cases hp

/-- The frame that is handed out next holds what it held before the pages were laid. -/
theorem Laid.next {w : Nat → Nat → Nat} {n : Nat} (h : Laid own P w c n m)
    (hm : (allocateFrame m).2.exhausted = false) :
    handedOut m 0 = imageFrame c n ∧ m.phys (handedOut m 0) = c.phys (imageFrame c n) := by
  have hframe : handedOut m 0 = imageFrame c n := (handedOut_congr h.bitmap 0).2
  refine ⟨hframe, ?_⟩
  have hfree := h.free (handedOut m 0) (allocateFrame_spec hm).free
  rw [hfree, hframe]

/-- memcpy finds in the frame of a page what the frame held all along. -/
theorem Owned.codeWords_eq (h : Owned R own dirs [] c) (hP : P ∈ dirs)
    (hload : Loadable R P userFuncPage x.totalPages c) (hempty : present (c.phys P userIndex) = false)
    (hm : (loop x.totalPages (fun i => loadPage P (userFuncPage + i) ((x.program P c).words i))
      c).exhausted = false) {i : Nat} (hi : i < x.codePages) :
    (x.program P c).words i = x.copyCode i (c.phys (imageFrame c i)) := by
  have hlt : i < x.totalPages := Nat.lt_of_lt_of_le hi (Nat.le_add_right ..)
  have hn := totalPages_le x
  have hpre := loop_served_prefix (fun _ _ => loadPage_served) hlt hm
  rw [loop_succ] at hpre
  obtain ⟨own₁, h₁, hL⟩ := h.laid hP (hload.mono (Nat.le_of_lt hlt)) (by omega) hempty
    (loadPage_served hpre)
  have hmap := hload.mappable h₁ (h.directory P hP) hP hlt
  have hwords : (x.program P c).words i = codeWords P x i (loop i (loadCode P x) c) := if_pos hi
  rw [hwords, ← loadCode_loop P x c (Nat.le_of_lt hi)]
  generalize loop i (fun i => loadPage P (userFuncPage + i) ((x.program P c).words i)) c = r at *
  unfold loadPage at hpre
  rw [writePage_exhausted] at hpre
  have ho := h₁.owned.opened hP (Nat.le_add_right ..) hmap hpre
  unfold codeWords
  dsimp only
  rw [ho.page, (hL.next (mapPage_served hpre)).2]

/- What exec leaves of P: the image in its frames, the stack, nothing else from USER_FUNC_VADDR on,
   and below it what was there, but for the entries of the two new tables. -/
structure ImageLoaded (R : Regime) (own : Owners) (dirs : List Nat) (m c : Memory) (P : Nat)
    (x : Image) (m' : Memory) : Prop where
  owned : ∃ own', Owned R own' dirs [] m' ∧ ∀ f, own f = some .low → own' f = some .low
  pages : ∀ i < x.totalPages, m'.lookup P (userFuncPage + i) = entry (imageFrame c i) pageFlagUser ∧
    m'.phys (imageFrame c i) =
      if i < x.codePages then x.copyCode i (m.phys (imageFrame c i)) else fun _ => 0
  stack : m'.lookup P userStackPage = entry (imageFrame c x.totalPages) pageFlagUser ∧
    m'.phys (imageFrame c x.totalPages) = x.stackWords (m.phys (imageFrame c x.totalPages))
  others : ∀ v, userFuncPage ≤ v → v < 1048576 → ¬R.device (v / 1024) →
    (∀ i < x.totalPages, v ≠ userFuncPage + i) → v ≠ userStackPage → m'.lookup P v = 0
  tables : imageTable c < numFrames ∧ stackTable c x < numFrames
  low : LowLike own P (identityMapIn P (stackTable c x) (identityMapIn P (imageTable c) m)) m'

/-- What update_page_directory and the argument make of a space that was cleared. -/
theorem Owned.imageUpdated (h : Owned R own dirs [] c) (hP : P ∈ dirs) (hfur : Furnished R P c)
    (hcode : ¬R.device userIndex)
    (hfree : ∀ v, userFuncPage ≤ v → v < 1048576 → ¬R.device (v / 1024) → c.lookup P v = 0)
    (hempty : present (c.phys P userIndex) = false) (hnone : present (c.phys P stackIndex) = false)
    (hstack : ¬R.device stackIndex) (hm : (updateImage P x c).exhausted = false) :
    ImageLoaded R own dirs c c P x (writePage P userStackPage
      (x.stackWords ((updateImage P x c).page P userStackPage)) (updateImage P x c)) := by
  have hn := totalPages_le x
  have hdir := h.directory P hP
  have hload := imageLoadable hfur hcode hfree (n := x.totalPages) (by omega)
  unfold updateImage at hm ⊢
  dsimp only at hm ⊢
  rw [← updateImage_loop] at hm ⊢
  have hloop := allocateFrame_served (mapPage_served hm)
  have hwords := fun i => h.codeWords_eq (i := i) hP hload hempty hloop
  have hbss : ∀ i, ¬i < x.codePages → (x.program P c).words i = fun _ => 0 := fun _ hi => if_neg hi
  obtain ⟨own₁, h₁, hL⟩ := h.laid hP hload (by omega) hempty hloop
  generalize loop x.totalPages (fun i => loadPage P (userFuncPage + i) ((x.program P c).words i)) c = r
    at *
  have hrest : ∀ v, userHeapPage ≤ v → r.lookup P v = c.lookup P v := by
    intro v hv
    refine h₁.others P hP v (Nat.le_trans (by decide) hv) (.inr fun i hi => ?_)
    simp only [userHeapPage, userFuncPage] at *
    omega
  have hmap : Mappable R P userStackPage r := by
    refine ⟨fun hlt => absurd hlt (by decide), fun _ => by decide,
      fun _ hlt => absurd hlt (by decide), fun hd => ?_, fun _ hp => ?_⟩
    · exact absurd hd hstack
    · rw [hrest _ (by decide), hfree _ (by decide) (by decide) hstack, present_zero] at hp
      cases hp
  have hnone' : present (r.phys P (userStackPage / 1024)) = false := by
    rw [hL.elsewhere _ (by decide)]
    exact hnone
  have ho := h₁.owned.opened hP (by decide) hmap hm
  obtain ⟨-, -, own₂, hu⟩ := h₁.owned.pageMapped hP hmap hm
  obtain ⟨hframe, hold⟩ := hL.next (mapPage_served hm)
  have htable : handedOut r 1 = stackTable c x := (handedOut_congr hL.bitmap 1).2
  generalize hw : x.stackWords ((mapPage P userStackPage (allocateFrame r).1 pageFlagUser
    (allocateFrame r).2).page P userStackPage) = w
  rw [ho.page, hold] at hw
  have hfin := ho.write hP (by decide) w hu
  have hlow₁ := hL.low
  rw [if_neg (Nat.ne_of_gt (totalPages_pos x))] at hlow₁
  have hlow₂ := hfin.low
  have hlt₂ := hfin.table hnone'
  rw [if_neg (by rw [hnone']; decide)] at hlow₂
  rw [htable] at hlow₂ hlt₂
  have hpte := ho.pte
  have howner : own₂ (handedOut r 0) = _ := hu.owner
  generalize mapPage P userStackPage (allocateFrame r).1 pageFlagUser (allocateFrame r).2 = m₃ at *
  have hwrite : writePage P userStackPage w m₃ = m₃.fill (handedOut r 0) w := by
    rw [writePage, hpte, frameOf_entry (by decide)]
  obtain ⟨howned, hkeep⟩ := hu.owned.fill_page w howner
  have hlook : ∀ v, userFuncPage ≤ v → v ≠ userStackPage →
      (m₃.fill (handedOut r 0) w).lookup P v = r.lookup P v := by
    intro v hv hne
    rw [hu.owned.lookup_fill w howner hP hv, hu.others P hP v hv (.inr hne)]
  refine ⟨⟨own₂, ?_, fun f hf => hu.grows.owners f _ (h₁.grows.owners f _ hf)⟩, fun i hi => ?_,
    ⟨?_, ?_⟩, fun v hv hlt hd hout hns => ?_, ⟨hL.tableFrame (totalPages_pos x), hlt₂⟩, ?_⟩
  · rw [hwrite]
    exact howned
  · have hv : userFuncPage ≤ userFuncPage + i := Nat.le_add_right ..
    have hne : userFuncPage + i ≠ userStackPage := by
      simp only [userFuncPage, userStackPage]
      omega
    obtain ⟨hp, hwi⟩ := hL.pages i hi
    have hown := h₁.owned.lookup_page hP hv (by rw [hp, present_entry]; decide)
      (by rw [hp, user_entry]; decide)
    rw [hp, frameOf_entry (by decide)] at hown
    have hapart : handedOut c (taken i) ≠ handedOut r 0 := by
      refine owner_ne (hu.grows.owners _ _ hown) howner fun he => ?_
      have hj := (Owner.page.inj he).2.1
      simp only [userFuncPage, userStackPage] at hj
      omega
    rw [hwrite, hlook _ hv hne, imageFrame, hkeep _ hapart, hu.grows.pages _ _ _ _ hown, hwi]
    refine ⟨hp, ?_⟩
    by_cases hic : i < x.codePages
    · rw [if_pos hic, hwords i hic, imageFrame]
    · rw [if_neg hic, hbss i hic]
  · have hl : present ((writePage P userStackPage w m₃).phys P (userStackPage / 1024)) = true := by
      rw [hwrite, hkeep P (owner_ne (hu.owned.directory P hP) howner (by simp))]
      exact hu.link
    rw [Memory.lookup, if_pos hl, hfin.pte, hframe]
  · rw [← hframe, hfin.words, ← hw, hframe]
  · rw [hwrite, hlook v hv hns, h₁.others P hP v hv (.inr hout), hfree v hv hlt hd]
  · have hstep := hlow₁.identityMap hlt₂ (h₁.owned.lowTable_ne hP hlt₂)
    exact hstep.trans (hlow₂.mono fun f => h₁.grows.owners f _)

/-- No table is left at an index that is not the frame buffer's. -/
theorem Owned.cleared_absent (h : Owned R own dirs [] m) (hP : P ∈ dirs) {i : Nat} (hi : userIndex ≤ i)
    (hlt : i < 1024) (hd : ¬R.device i) : present ((clearPageDirectory P m).phys P i) = false := by
  rw [clearPageDirectory_entry m P hlt]
  cases hp : present (m.phys P i) with
  | false =>
    rw [if_neg fun hc => absurd (clears_iff.mp hc).1 (by rw [hp]; decide)]
    exact hp
  | true =>
    rw [if_pos (clears_iff.mpr ⟨hp, hi, (h.userEntry P hP i hi hp).mpr hd⟩), present_zero]

theorem Owned.lowLike_cleared (h : Owned R own dirs [] m) (hP : P ∈ dirs) :
    LowLike own P m (clearPageDirectory P m) where
  tables := fun _ hT => clearPageDirectory_other m (owner_ne hT (h.directory P hP) (by simp))
  entries := fun i hi => h.entry_cleared hP (Nat.lt_of_lt_of_le hi (by decide)) (.inl hi)

/-- exec in a space apart from whose code and stack the frame buffer lies. -/
theorem Owned.imageLoaded (h : Owned R own dirs [] m) (hP : P ∈ dirs) (hfur : Furnished R P m)
    (hcode : ¬R.device userIndex) (hstack : ¬R.device stackIndex)
    (hm : (execImage P x m).exhausted = false) :
    ImageLoaded R own dirs m (clearPageDirectory P m) P x (execImage P x m) := by
  rw [execImage_write] at hm ⊢
  rw [writePage_exhausted] at hm
  obtain ⟨own₁, h₁⟩ := h.clearSpace hP
  have hlike := h.lowLike_cleared hP
  have hempty := h.cleared_absent hP (Nat.le_refl userIndex) (by decide) hcode
  have hnone := h.cleared_absent hP (i := stackIndex) (by decide) (by decide) hstack
  have hfur₁ : Furnished R P (clearPageDirectory P m) := by
    intro i hi
    rw [h.entry_cleared hP (R.bounded i hi).2 (.inr hi)]
    exact hfur i hi
  have hfree : ∀ v, userFuncPage ≤ v → v < 1048576 → ¬R.device (v / 1024) →
      (clearPageDirectory P m).lookup P v = 0 := fun v hv hlt => (h.lookup_cleared hP hv hlt).2
  have hother : ∀ f, f ≠ P → (clearPageDirectory P m).phys f = m.phys f :=
    fun f hf => clearPageDirectory_other m hf
  generalize clearPageDirectory P m = c at *
  have hnew := h₁.owned.imageUpdated hP hfur₁ hcode hfree hempty hnone hstack hm
  generalize writePage P userStackPage (x.stackWords ((updateImage P x c).page P userStackPage))
    (updateImage P x c) = m' at *
  obtain ⟨own', howned, hlows⟩ := hnew.owned
  -- a frame that is mapped for the user is not the directory
  have hframe : ∀ {v f}, userFuncPage ≤ v → m'.lookup P v = entry f pageFlagUser →
      c.phys f = m.phys f := by
    intro v f hv hlook
    have hown := howned.lookup_page hP hv (by rw [hlook, present_entry]; decide)
      (by rw [hlook, user_entry]; decide)
    rw [hlook, frameOf_entry (by decide)] at hown
    exact hother f (owner_ne hown (howned.directory P hP) (by simp))
  obtain ⟨hlt₁, hlt₂⟩ := hnew.tables
  have hkept : ∀ f, own f = some .low → own₁ f = some .low := fun f hf => h₁.owners f _ hf id
  refine ⟨⟨own', howned, fun f hf => hlows f (hkept f hf)⟩, fun i hi => ?_, ?_, hnew.others,
    hnew.tables, ?_⟩
  · rw [← hframe (Nat.le_add_right ..) (hnew.pages i hi).1]
    exact hnew.pages i hi
  · rw [← hframe (by decide) hnew.stack.1]
    exact hnew.stack
  · have hid := (h₁.owned.identityMap hP (.inl (frame_index hlt₁))).1
    have hstep := (hlike.identityMap hlt₁ (h₁.owned.lowTable_ne hP hlt₁)).identityMap hlt₂
      (hid.lowTable_ne hP hlt₂)
    exact hstep.trans (hnew.low.mono hkept)

end Loaded

end AdamOS.Paging
