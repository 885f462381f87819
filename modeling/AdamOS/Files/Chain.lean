import AdamOS.Files.Directory
import Mathlib.Data.List.Nodup
import Mathlib.Data.List.Perm.Subperm

/-! Cluster chains and well-formed volumes: a file is the concatenation of the clusters the FAT
links, and fat16_read_file follows any chain that ends. -/
namespace AdamOS.Fat16
open AdamOS.Loop AdamOS.Word

/-! ### The FAT -/

/- A cluster number that a FAT entry can link to: entries 0 and 1 are reserved, 0xFFF7 marks a bad
   cluster, and the FAT has 256 entries a sector. -/
structure ValidCluster (v : Volume) (c : Nat) : Prop where
  ge : 2 ≤ c
  lt : c < 0xFFF7
  inFat : c / 256 < v.sectorsPerFat

theorem ValidCluster.lt16 {v : Volume} {c : Nat} (h : ValidCluster v c) : c < 65536 :=
  Nat.lt_trans h.lt (by decide)

theorem fatSector_lt {v : Volume} {c : Nat} (hf : 0 < v.numFats) (hc : c / 256 < v.sectorsPerFat) :
    fatSector v c < v.rootDirStartLba := by
  have := Nat.le_mul_of_pos_left v.sectorsPerFat hf
  rw [fatSector, Volume.rootDirStartLba]
  omega

theorem rootDirStartLba_le (v : Volume) : v.rootDirStartLba ≤ v.dataStartLba :=
  Nat.le_add_right _ _

theorem fatEntry_setFat {v : Volume} {c x : Nat} (d : Disk) (hf : 0 < v.numFats)
    (hc : c / 256 < v.sectorsPerFat) (hx : x / 256 < v.sectorsPerFat) :
    fatEntry v (setFat v c d) x = if x = c then endOfChain else fatEntry v d x := by
  have hd := v.dataStartLba_lt
  have hr := rootDirStartLba_le v
  have hlc := fatSector_lt hf hc
  have hlx := fatSector_lt hf hx
  by_cases hsec : x / 256 = c / 256
  · have hs : fatSector v x = fatSector v c := by rw [fatSector, fatSector, hsec]
    rw [fatEntry, setFat, hs, ataRead_write_self]
    by_cases hxc : x = c
    · subst hxc
      rw [if_pos rfl]
      exact le16_byteOf (by decide) (if_pos rfl) ((if_neg (by omega)).trans (if_pos rfl))
    · have hmod : x % 256 ≠ c % 256 := fun hm => hxc (by omega)
      rw [if_neg hxc, fatEntry, hs, le16, le16, if_neg (by omega), if_neg (by omega),
        if_neg (by omega), if_neg (by omega)]
  · have hxc : x ≠ c := fun h => hsec (h ▸ rfl)
    have hne : ataLba (fatSector v x) ≠ ataLba (fatSector v c) := by
      rw [ataLba_eq (by omega), ataLba_eq (by omega), fatSector, fatSector]
      omega
    rw [if_neg hxc, fatEntry, setFat, ataRead_write_ne _ _ hne, ← fatEntry]

theorem setFat_frame {v : Volume} {c l : Nat} (d : Disk) (hc : fatSector v c < 268435456)
    (h : l ≠ fatSector v c) : setFat v c d l = d l := if_neg (by rw [ataLba_eq hc]; exact h)

theorem fatEntry_congr {v : Volume} {d d' : Disk} {x : Nat} (hf : 0 < v.numFats)
    (hx : x / 256 < v.sectorsPerFat) (h : ∀ l < v.rootDirStartLba, d' l = d l) :
    fatEntry v d' x = fatEntry v d x := by
  have hl := fatSector_lt hf hx
  have hd := v.dataStartLba_lt
  have hr := rootDirStartLba_le v
  rw [fatEntry, fatEntry, ataReadSector, ataReadSector, ataLba_eq (by omega), h _ hl]

/-! ### Chains -/

/- `Chain v d c cs`: the clusters that the FAT links from c on, up to an end mark. -/
inductive Chain (v : Volume) (d : Disk) : Nat → List Nat → Prop
  | last {c : Nat} : ValidCluster v c → endOfChain ≤ fatEntry v d c → Chain v d c [c]
  | next {c : Nat} {cs : List Nat} : ValidCluster v c → Chain v d (fatEntry v d c) cs → c ∉ cs →
      Chain v d c (c :: cs)

def chainBytes (v : Volume) (d : Disk) (cs : List Nat) : List UInt8 :=
  cs.flatMap (readCluster v d)

section Chains
variable {v : Volume} {d d' : Disk} {c : Nat} {cs : List Nat}

theorem Chain.valid (h : Chain v d c cs) : ∀ x ∈ cs, ValidCluster v x := by
  induction h with
  | last hv _ => exact fun x hx => List.mem_singleton.mp hx ▸ hv
  | next hv _ _ ih => exact fun x hx => (List.mem_cons.mp hx).elim (fun he => he ▸ hv) (ih x)

theorem Chain.nodup (h : Chain v d c cs) : cs.Nodup := by
  induction h with
  | last _ _ => exact List.nodup_singleton _
  | next _ _ hn ih => exact List.nodup_cons.mpr ⟨hn, ih⟩

theorem Chain.head (h : Chain v d c cs) : ∃ rest, cs = c :: rest := by
  cases h with
  | last _ _ => exact ⟨[], rfl⟩
  | next _ _ _ => exact ⟨_, rfl⟩

theorem Chain.start (h : Chain v d c cs) : ValidCluster v c := by
  obtain ⟨rest, he⟩ := h.head
  exact h.valid c (he ▸ List.mem_cons_self)

theorem Chain.nonzero (h : Chain v d c cs) : ∀ x ∈ cs, fatEntry v d x ≠ 0 := by
  induction h with
  | last hv he =>
    intro x hx
    rw [List.mem_singleton.mp hx]
    exact Nat.ne_of_gt (Nat.lt_of_lt_of_le (by decide) he)
  | next hv hc _ ih =>
    intro x hx
    cases List.mem_cons.mp hx with
    | inl he => exact he ▸ Nat.ne_of_gt (Nat.lt_of_lt_of_le (by decide) hc.start.ge)
    | inr he => exact ih x he

theorem Chain.congr (h : Chain v d c cs) (he : ∀ x ∈ cs, fatEntry v d' x = fatEntry v d x) :
    Chain v d' c cs := by
  induction h with
  | last hv hend => exact .last hv (by rw [he _ List.mem_cons_self]; exact hend)
  | next hv _ hn ih =>
    refine .next hv ?_ hn
    rw [he _ List.mem_cons_self]
    exact ih fun x hx => he x (List.mem_cons_of_mem _ hx)

theorem Chain.unique {cs' : List Nat} (h : Chain v d c cs) (h' : Chain v d c cs') : cs = cs' := by
  induction h generalizing cs' with
  | last hv hend =>
    cases h' with
    | last _ _ => rfl
    | next _ hc _ =>
      have := hc.start.lt
      exact absurd (Nat.lt_of_lt_of_le this (by decide : 0xFFF7 ≤ endOfChain)) (Nat.not_lt.mpr hend)
  | next hv hc _ ih =>
    cases h' with
    | last _ hend =>
      have := hc.start.lt
      exact absurd (Nat.lt_of_lt_of_le this (by decide : 0xFFF7 ≤ endOfChain)) (Nat.not_lt.mpr hend)
    | next _ hc' _ => rw [ih hc']

theorem Chain.length_le (h : Chain v d c cs) : cs.length ≤ 0xFFF7 := by
  have hs : cs ⊆ List.range 0xFFF7 := fun x hx => List.mem_range.mpr (h.valid x hx).lt
  have := (List.Nodup.subperm h.nodup hs).length_le
  rwa [List.length_range] at this

/-- With more fuel than clusters a chain is read to its end. -/
theorem Chain.readChain (h : Chain v d c cs) {fuel : Nat} (hf : cs.length < fuel) :
    readChain v d fuel c = some (chainBytes v d cs) := by
  induction h generalizing fuel with
  | last hv hend =>
    obtain ⟨n, rfl⟩ := Nat.exists_eq_succ_of_ne_zero (Nat.ne_of_gt (Nat.zero_lt_of_lt hf))
    obtain ⟨n, rfl⟩ : ∃ k, n = k + 1 :=
      Nat.exists_eq_succ_of_ne_zero (Nat.ne_of_gt (Nat.lt_of_succ_lt_succ hf))
    rw [Fat16.readChain, if_pos (Nat.lt_trans hv.lt (by decide)), Fat16.readChain,
      if_neg (Nat.not_lt.mpr hend), Option.map_some, chainBytes, List.flatMap_singleton,
      List.append_nil]
  | next hv _ _ ih =>
    obtain ⟨n, rfl⟩ := Nat.exists_eq_succ_of_ne_zero (Nat.ne_of_gt (Nat.zero_lt_of_lt hf))
    rw [Fat16.readChain, if_pos (Nat.lt_trans hv.lt (by decide)),
      ih (Nat.lt_of_succ_lt_succ hf), Option.map_some]
    rfl

/-- fat16_read_file returns the clusters of the file, in the order of the chain. -/
theorem Chain.readFile {e : Fat16Entry} (h : Chain v d e.startCluster cs) :
    fat16ReadFile v d e = some (chainBytes v d cs) := by
  have hlen := h.length_le
  rw [fat16ReadFile]
  cases h with
  | last hv hend =>
    rw [Fat16.readChain, if_neg (Nat.not_lt.mpr hend), Option.map_some, chainBytes,
      List.flatMap_singleton, List.append_nil]
  | next hv hc _ =>
    rw [hc.readChain (Nat.lt_of_lt_of_le (Nat.lt_of_succ_le hlen) (by decide)), Option.map_some]
    rfl

@[simp] theorem chainBytes_length (v : Volume) (d : Disk) (cs : List Nat) :
    (chainBytes v d cs).length = cs.length * v.clusterBytes := by
  induction cs with
  | nil => rw [List.length_nil, Nat.zero_mul]; rfl
  | cons c cs ih =>
    rw [chainBytes, List.flatMap_cons, List.length_append, readCluster_length, ← chainBytes, ih,
      List.length_cons, Nat.succ_mul, Nat.add_comm]

theorem chainBytes_congr (hv : ∀ x ∈ cs, ValidCluster v x)
    (h : ∀ x ∈ cs, ∀ i < v.sectorsPerCluster, d' (v.clusterLba x + i) = d (v.clusterLba x + i)) :
    chainBytes v d' cs = chainBytes v d cs :=
  List.flatMap_congr fun x hx => readCluster_congr (hv x hx).lt16 (h x hx)

end Chains

/-! ### Well-formed volumes -/

namespace Fat16Entry

/- Neither a directory nor a volume label or long name. -/
def isRegular (e : Fat16Entry) : Bool := e.attributes &&& 0x18 == 0

/- The slots of a long name have a NUL among the first characters, no short name has. -/
def isNamed (e : Fat16Entry) : Bool := (List.range 11).all fun i => e i != 0

end Fat16Entry

def clustersFor (v : Volume) (size : Nat) : Nat := (size + v.clusterBytes - 1) / v.clusterBytes

/- The clusters of an entry are what its size asks for, and one at least. Directories have size 0;
   an empty file or a label may have no cluster at all. -/
structure EntryOk (v : Volume) (d : Disk) (e : Fat16Entry) : Prop where
  chain : (e.startCluster = 0 ∧ e.fileSize = 0) ∨ ∃ cs, Chain v d e.startCluster cs ∧
    (e.isRegular = true → cs.length = max 1 (clustersFor v e.fileSize))
  size : e.isRegular = false → e.fileSize = 0

def sameName (e f : Fat16Entry) : Prop := ∀ i < 11, e i = f i

structure WellFormed (v : Volume) (d : Disk) : Prop where
  bytes : v.bytesPerSector = sectorSize
  spc : v.sectorsPerCluster ∈ [1, 2, 4, 8, 16, 32, 64, 128]
  fats : 0 < v.numFats
  fat : 0 < v.sectorsPerFat
  /- the media descriptor is in the entry of cluster 0 -/
  media : endOfChain ≤ fatEntry v d 0
  entries : ∀ e ∈ live (rootSlots v d), e.isNamed = true → EntryOk v d e
  /- no two entries of one name, and none that "/" would be -/
  names : (live (rootSlots v d)).Pairwise fun e f => e.isNamed = true → ¬sameName e f
  noRoot : ∀ e ∈ live (rootSlots v d), e 0 ≠ slash

theorem WellFormed.spc_pos {v : Volume} {d : Disk} (h : WellFormed v d) :
    0 < v.sectorsPerCluster := by
  have := h.spc
  simp only [List.mem_cons, List.not_mem_nil, or_false] at this
  omega

theorem WellFormed.clusterBytes_pos {v : Volume} {d : Disk} (h : WellFormed v d) :
    0 < v.clusterBytes := Nat.mul_pos h.spc_pos (by decide)

theorem WellFormed.frame {v : Volume} {d d' : Disk} (wf : WellFormed v d)
    (h : ∀ l < v.dataStartLba, d' l = d l) : WellFormed v d' := by
  have hr := rootDirStartLba_le v
  have hroot : rootSlots v d' = rootSlots v d := rootSlots_congr fun l _ hl => h l hl
  have hfat : ∀ {x}, x / 256 < v.sectorsPerFat → fatEntry v d' x = fatEntry v d x :=
    fun hx => fatEntry_congr wf.fats hx fun l hl => h l (by omega)
  refine ⟨wf.bytes, wf.spc, wf.fats, wf.fat, ?_, ?_, ?_, ?_⟩
  · rw [hfat wf.fat]
    exact wf.media
  · rw [hroot]
    intro e he hn
    have hok := wf.entries e he hn
    refine ⟨hok.chain.imp id fun ⟨cs, hc, hlen⟩ => ⟨cs, ?_, hlen⟩, hok.size⟩
    exact hc.congr fun x hx => hfat (hc.valid x hx).inFat
  · rw [hroot]
    exact wf.names
  · rw [hroot]
    exact wf.noRoot

/-- The entry a short name finds satisfies what the volume promises of named entries. -/
theorem names_isNamed {n : ShortName} {e : Fat16Entry} (h : n.names e = true) :
    e.isNamed = true := by
  simp only [ShortName.names, strncmp, Bool.and_eq_true, List.all_eq_true, List.mem_range,
    beq_iff_eq, bne_iff_ne] at h
  simp only [Fat16Entry.isNamed, List.all_eq_true, List.mem_range, bne_iff_ne]
  intro i hi
  by_cases h8 : i < 8
  · have := h.1 i h8
    exact this.1 ▸ this.2
  · have := h.2 (i - 8) (by omega)
    rw [show 8 + (i - 8) = i by omega] at this
    exact this.1 ▸ this.2

/-! ### A small volume -/

/- One FAT of one sector, sixteen directory slots, clusters of one sector. -/
def sampleVolume : Volume where
  bytesPerSector := 512
  sectorsPerCluster := 1
  reservedSectors := 1
  numFats := 1
  rootEntryCount := 16
  sectorsPerFat := 1
  bytesPerSector_pos := by decide
  sectorsPerCluster_lt := by decide
  reservedSectors_lt := by decide
  numFats_lt := by decide
  rootEntryCount_lt := by decide
  sectorsPerFat_lt := by decide

def emptyDisk : Disk := fun l j =>
  if l = 2049 ∧ j < 4 then if j = 0 then 0xF8 else 0xFF else 0

theorem emptyDisk_live : live (rootSlots sampleVolume emptyDisk) = [] := rfl

theorem emptyDisk_wellFormed : WellFormed sampleVolume emptyDisk where
  bytes := by decide
  spc := by decide
  fats := by decide
  fat := by decide
  media := by decide
  entries := by rw [emptyDisk_live]; exact fun e he => absurd he List.not_mem_nil
  names := by rw [emptyDisk_live]; exact .nil
  noRoot := by rw [emptyDisk_live]; exact fun e he => absurd he List.not_mem_nil

/- "a" -/
def sampleName : CString := ⟨[97], noNul_of_all rfl⟩

def fileFat : Sector := fun j => if j < 6 then if j = 0 ∨ j = 4 then 0xF8 else 0xFF else 0

/- The volume with one file, of at most 512 bytes, all ones, in cluster 2. -/
def fileDisk (size : Nat) : Disk := fun l j =>
  if l = 2049 then fileFat j
  else if l = 2050 ∧ j < entrySize then newEntry ⟨padField [97], padField []⟩ 2 size j
  else if l = 2051 then 1
  else 0

def fileEntry (size : Nat) : Fat16Entry := newEntry ⟨padField [97], padField []⟩ 2 size

section FileDisk
variable {size : Nat}

theorem fileDisk_live : live (rootSlots sampleVolume (fileDisk size)) = [fileEntry size] := by
  have hslots : live (rootSlots sampleVolume (fileDisk size)) = [dirSlot (fileDisk size) 2050 0] :=
    rfl
  rw [hslots]
  congr 1
  funext k
  by_cases hk : k < entrySize
  · rw [dirSlot, if_pos hk]
    have h0 : 0 % slotsPerSector * entrySize + k = k := by
      rw [Nat.zero_mod, Nat.zero_mul, Nat.zero_add]
    have hl : ataLba (2050 + 0 / slotsPerSector) = 2050 := by decide
    rw [ataReadSector, h0, hl, fileDisk, if_neg (by decide), if_pos ⟨rfl, hk⟩]
    rfl
  · rw [dirSlot, if_neg hk]
    exact (newEntry_tail (Nat.le_of_not_lt hk)).symm

theorem fileEntry_start : (fileEntry size).startCluster = 2 := newEntry_startCluster (by decide)

theorem fileEntry_size (h : size ≤ 512) : (fileEntry size).fileSize = size :=
  newEntry_fileSize (by omega)

theorem fileEntry_regular : (fileEntry size).isRegular = true := by
  have hattr : (fileEntry size).attributes = 0x20 := rfl
  rw [Fat16Entry.isRegular, hattr]
  decide

theorem fileDisk_chain :
    Chain sampleVolume (fileDisk size) (fileEntry size).startCluster [2] := by
  have hfat : fatEntry sampleVolume (fileDisk size) 2 = le16 fileFat 4 := rfl
  rw [fileEntry_start]
  exact .last ⟨by decide, by decide, by decide⟩ (hfat ▸ by decide)

theorem fileDisk_wellFormed (h : size ≤ 512) : WellFormed sampleVolume (fileDisk size) where
  bytes := by decide
  spc := by decide
  fats := by decide
  fat := by decide
  media := by
    have hfat : fatEntry sampleVolume (fileDisk size) 0 = le16 fileFat 0 := rfl
    exact hfat ▸ by decide
  entries := by
    rw [fileDisk_live]
    intro e he _
    rw [List.mem_singleton.mp he]
    refine ⟨.inr ⟨[2], fileDisk_chain, fun _ => ?_⟩, fun hr => ?_⟩
    · have hb : sampleVolume.clusterBytes = 512 := by decide
      rw [fileEntry_size h, clustersFor, hb, List.length_singleton]
      omega
    · rw [fileEntry_regular] at hr
      cases hr
  names := by rw [fileDisk_live]; exact List.pairwise_singleton ..
  noRoot := by
    rw [fileDisk_live]
    intro e he
    have hfirst : fileEntry size 0 = 65 := rfl
    rw [List.mem_singleton.mp he, hfirst]
    decide

end FileDisk

end AdamOS.Fat16
