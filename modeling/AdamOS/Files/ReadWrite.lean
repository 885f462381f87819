import AdamOS.Files.Descriptors

/-! What user programs read from files and what their writes leave on the disk. -/
namespace AdamOS.Files
open AdamOS.Fat16 AdamOS.Process AdamOS.Kmalloc AdamOS.Word
variable {v : Volume} {d : Disk} {s s' : FileState} {e : Fat16Entry} {name : CString}
  {n : ShortName} {room : Room} {garbage : Fat16Entry} {ptr j : Nat} {cs : List Nat}

/-! ### open -/

theorem openEntry_spec {f : Fat16Fd} (h : openEntry v d room e = some f) :
    f.size = f.data.length ∧ f.attributes = e.attributes ∧ f.startCluster = e.startCluster ∧
      readEntry v d e = some f.data := by
  obtain ⟨data, hdata, h⟩ := Option.bind_eq_some_iff.mp h
  split at h
  · cases h
    exact ⟨rfl, rfl, rfl, hdata⟩
  · cases h

/-- kmalloc had a block for it, so it is smaller than the heap. -/
theorem openEntry_room {f : Fat16Fd} (h : openEntry v d room e = some f) :
    bufferSize v e < heapSize ∧ f.data.length ≤ bufferSize v e := by
  obtain ⟨data, -, h⟩ := Option.bind_eq_some_iff.mp h
  split at h
  · rename_i hroom
    obtain ⟨hserved, hle⟩ := Bool.and_eq_true_iff.mp hroom
    cases h
    exact ⟨room.bounded _ hserved, of_decide_eq_true hle⟩
  · cases h

theorem closedSlot_spec {fds : List FileDescriptor} {i : Nat} (h : closedSlot fds = some i) :
    2 ≤ i ∧ i < maxFds := by
  have hm := List.mem_range'_1.mp (List.mem_of_find?_eq_some h)
  simp only [maxFds] at *
  omega

/-- A descriptor that open returns is at the start of the entry's data. -/
theorem open_spec (hfind : fat16FindFile v s.disk garbage name = some (some e))
    (h : handleSyscallOpen v room garbage ptr (some name) s = some (j, s')) (hj : j ≠ minusOne) :
    ∃ f, openEntry v s.disk room e = some f ∧ j < maxFds ∧ s'.disk = s.disk ∧
      s'.fds.getD j closedFd = ⟨.file, ptr, 0, true⟩ ∧ s'.files ptr = f := by
  simp only [handleSyscallOpen, hfind, Option.bind_eq_bind, Option.bind_some,
    Option.bind_eq_some_iff] at h
  obtain ⟨f, hf, h⟩ := h
  refine ⟨f, hf, ?_⟩
  cases hc : closedSlot s.fds with
  | none =>
    rw [hc] at h
    cases h
    exact absurd rfl hj
  | some i =>
    rw [hc] at h
    cases h
    have hself := (s.setFile ptr f).setFd_self (closedSlot_spec hc).2 ⟨.file, ptr, 0, true⟩
    exact ⟨(closedSlot_spec hc).2, rfl, hself, if_pos rfl⟩

theorem open_openAt (hfind : fat16FindFile v s.disk garbage name = some (some e))
    (h : handleSyscallOpen v room garbage ptr (some name) s = some (j, s')) (hj : j ≠ minusOne) :
    ∃ f, openEntry v s.disk room e = some f ∧ OpenAt s' j f.data 0 := by
  obtain ⟨f, hf, hslot, -, hfd, hfile⟩ := open_spec hfind h hj
  obtain ⟨hsize, -⟩ := openEntry_spec hf
  obtain ⟨hheap, hlen⟩ := openEntry_room hf
  exact ⟨f, hf, hslot, by rw [hfd], by rw [hfd], by rw [hfd, hfile], by rw [hfd, hfile, hsize],
    Nat.lt_trans (Nat.lt_of_le_of_lt hlen hheap) (by decide)⟩

/-! ### Regular files of a well-formed volume -/

/- A live entry of the root directory for a regular file, with its clusters and its name. -/
structure IsFile (v : Volume) (d : Disk) (name : CString) (e : Fat16Entry) (cs : List Nat) :
    Prop where
  mem : e ∈ live (rootSlots v d)
  regular : e.isRegular = true
  chain : Chain v d e.startCluster cs
  named : ∃ n, fat16FormatName name = some n ∧ n.names e = true

theorem sameName_of_names {f : Fat16Entry} (he : n.names e = true) (hf : n.names f = true) :
    sameName e f := by
  simp only [ShortName.names, strncmp, Bool.and_eq_true, List.all_eq_true, List.mem_range,
    beq_iff_eq, bne_iff_ne] at he hf
  intro i hi
  by_cases h8 : i < 8
  · exact (he.1 i h8).1.symm.trans (hf.1 i h8).1
  · have h1 := (he.2 (i - 8) (by omega)).1
    have h2 := (hf.2 (i - 8) (by omega)).1
    rw [show 8 + (i - 8) = i by omega] at h1 h2
    exact h1.symm.trans h2

theorem formatName_slash {n : ShortName} (hname : name.chars = [slash])
    (hn : fat16FormatName name = some n) : n.name 0 = slash := by
  have h : fat16FormatName name = some ⟨padField [slash], padField []⟩ := by
    rw [fat16FormatName, hname]
    rfl
  rw [hn] at h
  cases h
  rfl

theorem find?_unique {α : Type*} {p : α → Bool} {x : α} {xs : List α}
    (h : xs.Pairwise fun a b => ¬(p a = true ∧ p b = true)) (hx : x ∈ xs) (hp : p x = true) :
    xs.find? p = some x := by
  induction xs with
  | nil => cases hx
  | cons a as ih =>
    obtain ⟨ha, has⟩ := List.pairwise_cons.mp h
    rw [List.find?_cons]
    cases hpa : p a with
    | true =>
      cases List.mem_cons.mp hx with
      | inl he => rw [he]
      | inr he => exact absurd ⟨hpa, hp⟩ (ha x he)
    | false =>
      cases List.mem_cons.mp hx with
      | inl he => rw [he, hpa] at hp; cases hp
      | inr he => exact ih has he

/-- open finds the file: no other entry has its name, and it is not "/". -/
theorem IsFile.found (h : IsFile v d name e cs) (wf : WellFormed v d) (garbage : Fat16Entry) :
    fat16FindFile v d garbage name = some (some e) := by
  obtain ⟨n, hn, hnames⟩ := h.named
  have hfirst : n.name 0 = e 0 := by
    simp only [ShortName.names, strncmp, Bool.and_eq_true, List.all_eq_true, List.mem_range,
      beq_iff_eq] at hnames
    exact (hnames.1 0 (by decide)).1
  have hslash : name.chars ≠ [slash] := fun hs =>
    wf.noRoot e h.mem (hfirst ▸ formatName_slash hs hn)
  rw [fat16FindFile, if_neg hslash, hn, Option.map_some, findSlot_eq]
  exact congrArg some (find?_unique (wf.names.imp fun hp hfg =>
    hp (names_isNamed hfg.1) (sameName_of_names hfg.1 hfg.2)) h.mem hnames)

/-- The clusters of a regular file are as many as its size asks for, and one at least. -/
theorem IsFile.length (h : IsFile v d name e cs) (wf : WellFormed v d) :
    cs.length = max 1 (clustersFor v e.fileSize) := by
  obtain ⟨n, hn, hnames⟩ := h.named
  rcases (wf.entries e h.mem (names_isNamed hnames)).chain with ⟨h0, -⟩ | ⟨cs', hcs', hlen⟩
  · have := h.chain.start.ge
    omega
  · rw [h.chain.unique hcs', hlen h.regular]

theorem clustersFor_mul (v : Volume) {size : Nat} (h : 0 < v.clusterBytes) :
    max 1 (clustersFor v size) * v.clusterBytes ≤ size ↔ 0 < size ∧ v.clusterBytes ∣ size := by
  have hdiv := Nat.div_add_mod (size + v.clusterBytes - 1) v.clusterBytes
  have hmod := Nat.mod_lt (size + v.clusterBytes - 1) h
  rw [Nat.mul_comm, ← clustersFor] at hdiv
  constructor
  · intro hle
    have h1 : v.clusterBytes ≤ max 1 (clustersFor v size) * v.clusterBytes :=
      Nat.le_mul_of_pos_left _ (by omega)
    have h2 : clustersFor v size * v.clusterBytes ≤ max 1 (clustersFor v size) * v.clusterBytes :=
      Nat.mul_le_mul_right _ (Nat.le_max_right ..)
    exact ⟨by omega, clustersFor v size, by rw [Nat.mul_comm]; omega⟩
  · rintro ⟨hpos, k, rfl⟩
    have hk : clustersFor v (v.clusterBytes * k) = k := by
      rw [clustersFor, Nat.add_sub_assoc h, Nat.mul_add_div h, Nat.div_eq_of_lt (by omega), Nat.add_zero]
    have hk1 : max 1 k = k := Nat.max_eq_right (Nat.pos_of_mul_pos_left hpos)
    rw [hk, hk1, Nat.mul_comm]

/-- A chain is never a whole cluster longer than the file, except for one that is empty. -/
theorem clustersFor_le (v : Volume) (size : Nat) (h : 0 < v.clusterBytes) :
    size ≤ max 1 (clustersFor v size) * v.clusterBytes ∧
      max 1 (clustersFor v size) * v.clusterBytes ≤ size + v.clusterBytes := by
  have hdiv := Nat.div_add_mod (size + v.clusterBytes - 1) v.clusterBytes
  have hmod := Nat.mod_lt (size + v.clusterBytes - 1) h
  rw [Nat.mul_comm, ← clustersFor] at hdiv
  have h2 : clustersFor v size * v.clusterBytes ≤ max 1 (clustersFor v size) * v.clusterBytes :=
    Nat.mul_le_mul_right _ (Nat.le_max_right ..)
  refine ⟨by omega, ?_⟩
  by_cases h1 : 1 ≤ clustersFor v size
  · rw [Nat.max_eq_right h1]
    omega
  · rw [Nat.max_eq_left (by omega), Nat.one_mul]
    omega

theorem regular_file (h : e.isRegular = true) : isFolder e = false := by
  have hz : e.attributes &&& 0x18 = 0 := by simpa [Fat16Entry.isRegular] using h
  have h10 : e.attributes &&& 0x10 = 0 := by
    have hsplit : (0x10 : UInt8) = 0x18 &&& 0x10 := by decide
    rw [hsplit, ← UInt8.and_assoc, hz, UInt8.zero_and]
  rw [isFolder, h10]
  rfl

/-- What open reads of a regular file are its clusters. -/
theorem IsFile.opened (h : IsFile v d name e cs) {f : Fat16Fd}
    (hf : openEntry v d room e = some f) : f.data = chainBytes v d cs := by
  obtain ⟨-, -, -, hread⟩ := openEntry_spec hf
  rw [readEntry, regular_file h.regular, if_neg Bool.false_ne_true, h.chain.readFile] at hread
  exact (Option.some.inj hread).symm

theorem take_eq_self {α : Type*} {xs : List α} {k : Nat} : xs.take k = xs ↔ xs.length ≤ k := by
  constructor
  · intro h
    have hlen := congrArg List.length h
    rw [List.length_take] at hlen
    omega
  · exact List.take_of_length_le

def freshState (d : Disk) : FileState where
  disk := d
  fds := initialFds
  files := fun _ => ⟨[], 0, 0, 0⟩
  fds_length := by decide

def wholeHeap : Room := ⟨fun n => decide (n < heapSize), fun _ h => of_decide_eq_true h⟩

theorem IsFile.opens (h : IsFile v d name e cs) (wf : WellFormed v d)
    (hfits : e.fileSize + v.clusterBytes < heapSize) :
    ∃ s', handleSyscallOpen v wholeHeap (fun _ => 0) 4 (some name) (freshState d) = some (2, s') := by
  have hlen : (chainBytes v d cs).length ≤ e.fileSize + v.clusterBytes := by
    rw [chainBytes_length, h.length wf]
    exact (clustersFor_le v e.fileSize wf.clusterBytes_pos).2
  have hsize : bufferSize v e = e.fileSize + v.clusterBytes := by
    rw [bufferSize, regular_file h.regular, if_neg Bool.false_ne_true]
    exact wrap_eq (Nat.lt_trans hfits (by decide))
  have hentry : openEntry v d wholeHeap e = some ⟨chainBytes v d cs, (chainBytes v d cs).length,
      e.attributes, e.startCluster⟩ := by
    rw [openEntry, readEntry, regular_file h.regular, if_neg Bool.false_ne_true,
      h.chain.readFile, Option.bind_some, hsize, if_pos]
    rw [Bool.and_eq_true, decide_eq_true_iff]
    exact ⟨decide_eq_true hfits, hlen⟩
  have hslot : closedSlot (freshState d).fds = some 2 := rfl
  have hfind := h.found wf fun _ => 0
  have hd : (freshState d).disk = d := rfl
  simp only [handleSyscallOpen, hd, hfind, Option.bind_eq_bind, Option.bind_some, hentry, hslot]
  exact ⟨_, rfl⟩

theorem sampleFile {size : Nat} : IsFile sampleVolume (fileDisk size) sampleName (fileEntry size) [2] where
  mem := by rw [fileDisk_live]; exact List.mem_singleton_self _
  regular := fileEntry_regular
  chain := fileDisk_chain
  named := ⟨⟨padField [97], padField []⟩, rfl, newEntry_named fun i =>
    ⟨padField_ne_zero sampleName.noNul i,
      padField_ne_zero (fun _ hc => absurd hc List.not_mem_nil) i⟩⟩

theorem sampleFile_opens {size : Nat} (h : size ≤ 512) : ∃ s',
    handleSyscallOpen sampleVolume wholeHeap (fun _ => 0) 4 (some sampleName)
      (freshState (fileDisk size)) = some (2, s') := by
  refine sampleFile.opens (fileDisk_wellFormed h) ?_
  have hb : sampleVolume.clusterBytes = 512 := by decide
  have hh : heapSize = 3145728 := by decide
  rw [fileEntry_size h]
  omega

/- Descriptor i was opened on the file; its copy may be older than the disk. -/
structure OpenFile (v : Volume) (s : FileState) (i : Nat) (e : Fat16Entry) (cs : List Nat) :
    Prop where
  slot : i < maxFds
  isOpen : (s.fds.getD i closedFd).isOpen = true
  start : (s.files (s.fds.getD i closedFd).data).startCluster = e.startCluster
  size : (s.files (s.fds.getD i closedFd).data).size =
    (s.files (s.fds.getD i closedFd).data).data.length
  length : (s.files (s.fds.getD i closedFd).data).data.length = cs.length * v.clusterBytes
  fits : e.fileSize + v.clusterBytes < heapSize

/-- What open returns for a regular file is such a descriptor. -/
theorem open_openFile (wf : WellFormed v s.disk) (h : IsFile v s.disk name e cs)
    (hopen : handleSyscallOpen v room garbage ptr (some name) s = some (j, s'))
    (hj : j ≠ minusOne) : OpenFile v s' j e cs := by
  obtain ⟨f, hf, hslot, -, hfd, hfile⟩ := open_spec (h.found wf garbage) hopen hj
  obtain ⟨hsize, -, hstart, -⟩ := openEntry_spec hf
  have hdata := h.opened hf
  have hlength : f.data.length = cs.length * v.clusterBytes := by rw [hdata, chainBytes_length]
  refine ⟨hslot, by rw [hfd], by rw [hfd, hfile, hstart], by rw [hfd, hfile, hsize],
    by rw [hfd, hfile, hlength], ?_⟩
  -- the block that open asked for holds the whole file, so the size it asked for did not wrap
  obtain ⟨hheap, hroom⟩ := openEntry_room hf
  have hle := (clustersFor_le v e.fileSize wf.clusterBytes_pos).1
  rw [← h.length wf, ← hlength] at hle
  rw [bufferSize, regular_file h.regular, if_neg Bool.false_ne_true] at hheap hroom
  have hsmall : v.clusterBytes ≤ 255 * 512 :=
    Nat.mul_le_mul_right 512 (Nat.le_of_lt_succ v.sectorsPerCluster_lt)
  have hheap' : heapSize = 3145728 := by decide
  have hwrap : wrap (e.fileSize + v.clusterBytes) = e.fileSize + v.clusterBytes :=
    wrap_eq (by omega)
  omega

theorem IsFile.frame {d' : Disk} (h : IsFile v d name e cs) (wf : WellFormed v d)
    (hl : ∀ l < v.dataStartLba, d' l = d l) : IsFile v d' name e cs := by
  have hr := rootDirStartLba_le v
  have hroot : rootSlots v d' = rootSlots v d := rootSlots_congr fun l _ h2 => hl l h2
  refine ⟨hroot ▸ h.mem, h.regular, h.chain.congr fun x hx => ?_, h.named⟩
  exact fatEntry_congr wf.fats (h.chain.valid x hx).inFat fun l h2 => hl l (by omega)

/- A later open and read of the file, by any process, delivers `out`. -/
def ReadsBack (v : Volume) (d : Disk) (name : CString) (out : List UInt8) : Prop :=
  ∀ s room garbage ptr j s', s.disk = d →
    handleSyscallOpen v room garbage ptr (some name) s = some (j, s') → j ≠ minusOne →
    Delivers s' j out

/-- It reads back as its clusters, and as nothing else. -/
theorem IsFile.readsBack_iff (h : IsFile v d name e cs) (wf : WellFormed v d)
    (hfits : e.fileSize + v.clusterBytes < heapSize) {out : List UInt8} :
    ReadsBack v d name out ↔ out = chainBytes v d cs := by
  constructor
  · intro hback
    obtain ⟨s', hs'⟩ := h.opens wf hfits
    obtain ⟨f, hf, hat⟩ := open_openAt (s := freshState d) (h.found wf fun _ => 0) hs' (by decide)
    rw [IsFile.opened h hf] at hat
    exact hat.delivers_iff.mp (hback _ _ _ _ _ _ rfl hs' (by decide))
  · rintro rfl s room garbage ptr j s' rfl hopen hj
    obtain ⟨f, hf, hat⟩ := open_openAt (h.found wf garbage) hopen hj
    rw [h.opened hf] at hat
    exact hat.delivers_iff.mpr rfl

def overwrite (n : Nat) (buf : Nat → UInt8) (old : List UInt8) : List UInt8 :=
  (List.range n).map buf ++ old.drop n

theorem overwrite_getElem? {n : Nat} (buf : Nat → UInt8) (old : List UInt8)
    (k : Nat) : (overwrite n buf old)[k]? = if k < n then some (buf k) else old[k]? := by
  rw [overwrite, List.getElem?_append, List.length_map, List.length_range]
  by_cases hk : k < n
  · rw [if_pos hk, if_pos hk, List.getElem?_map, List.getElem?_range hk, Option.map_some]
  · rw [if_neg hk, if_neg hk, List.getElem?_drop, Nat.add_sub_cancel' (by omega)]

/-- Writing moves the first cluster of the file to the buffer and touches nothing else. -/
theorem writeFd_spec {i len m : Nat} {buf : Nat → UInt8} (wf : WellFormed v s.disk)
    (h : IsFile v s.disk name e cs) (ho : OpenFile v s i e cs) (hl : len < 2147483648)
    (hw : writeFd v i buf len s = some (m, s')) :
    m = min len (cs.length * v.clusterBytes) ∧
      ClusterWritten v (v.clusterLba e.startCluster) m buf s.disk s'.disk ∧
      (s'.files (s.fds.getD i closedFd).data).data =
        overwrite m buf (s.files (s.fds.getD i closedFd).data).data := by
  have hbytes := (clustersFor_le v e.fileSize wf.clusterBytes_pos).2
  have hfits := ho.fits
  have hheap : heapSize = 3145728 := by decide
  have hmin : min32 len (s.files (s.fds.getD i closedFd).data).size =
      min len (cs.length * v.clusterBytes) := by
    rw [ho.size, ho.length]
    refine min32_eq hl ?_
    rw [h.length wf]
    omega
  have hopened : ¬(s.fds.getD i closedFd).isOpen = false := by rw [ho.isOpen]; decide
  have hle : min len (cs.length * v.clusterBytes) ≤
      (s.files (s.fds.getD i closedFd).data).data.length := ho.length ▸ Nat.min_le_right _ _
  simp only [writeFd, if_neg hopened, hmin, if_pos hle] at hw
  obtain ⟨d, hd, he⟩ := Option.map_eq_some_iff.mp hw
  cases he
  obtain ⟨d', hd', hcw⟩ := writeCluster_spec v buf s.disk
    (fun k hk => v.clusterLba_lt h.chain.start.lt16 hk)
    (Nat.lt_of_le_of_lt (Nat.min_le_left len (cs.length * v.clusterBytes)) hl)
  rw [ho.start, hd'] at hd
  cases hd
  exact ⟨rfl, hcw, congrArg Fat16Fd.data (if_pos rfl)⟩

/-- After the write the file consists of the buffer as far as the first cluster goes, zeros up to
its end, and the old clusters behind it. -/
theorem chainBytes_written {d' : Disk} {m : Nat} {buf : Nat → UInt8} {c : Nat}
    (hc : Chain v d c cs) (hw : ClusterWritten v (v.clusterLba c) m buf d d') (k : Nat) :
    (chainBytes v d' cs)[k]? = if k < v.clusterBytes then some (if k < m then buf k else 0)
      else (chainBytes v d cs)[k]? := by
  obtain ⟨rest, rfl⟩ := hc.head
  have hrest : chainBytes v d' rest = chainBytes v d rest := by
    refine chainBytes_congr (fun x hx => hc.valid x (List.mem_cons_of_mem _ hx)) fun x hx i hi => ?_
    have hx' := hc.valid x (List.mem_cons_of_mem _ hx)
    refine hw.others _ fun i' hi' he => ?_
    have hxc := (v.clusterLba_apart hx'.ge hx'.lt16 hc.start.ge hc.start.lt16 hi hi' he).1
    exact (List.nodup_cons.mp hc.nodup).1 (hxc ▸ hx)
  have hcons : ∀ d, chainBytes v d (c :: rest) = readCluster v d c ++ chainBytes v d rest :=
    fun _ => rfl
  rw [hcons, hcons, hrest, hw.read, List.getElem?_append, List.getElem?_append, readCluster_length,
    List.length_map, List.length_range]
  by_cases hk : k < v.clusterBytes
  · rw [if_pos hk, if_pos hk, List.getElem?_map, List.getElem?_range hk, Option.map_some]
  · rw [if_neg hk, if_neg hk, if_neg hk]

/- What the file and the writing descriptor's copy should be after `m` bytes were written. -/
def WriteAgrees (v : Volume) (s s' : FileState) (i : Nat) (name : CString) (cs : List Nat)
    (buf : Nat → UInt8) (m : Nat) : Prop :=
  ReadsBack v s'.disk name (overwrite m buf (chainBytes v s.disk cs)) ∧
    (s'.files (s.fds.getD i closedFd).data).data = overwrite m buf (chainBytes v s.disk cs)

/- The rest of the first cluster is zero, what is written behind it is there already, and the
   descriptor's copy is up to date behind what is written. -/
structure WriteAgreesWhen (v : Volume) (s : FileState) (i : Nat) (cs : List Nat)
    (buf : Nat → UInt8) (m : Nat) : Prop where
  zeros : ∀ k, m ≤ k → k < v.clusterBytes → (chainBytes v s.disk cs)[k]? = some 0
  beyond : ∀ k, v.clusterBytes ≤ k → k < m → (chainBytes v s.disk cs)[k]? = some (buf k)
  current : ∀ k, m ≤ k →
    (s.files (s.fds.getD i closedFd).data).data[k]? = (chainBytes v s.disk cs)[k]?

/-- A write is seen by later readers exactly when it stays in the first cluster and that holds
zeros behind it. -/
theorem write_reaches_disk {i len m : Nat} {buf : Nat → UInt8} (wf : WellFormed v s.disk)
    (h : IsFile v s.disk name e cs) (ho : OpenFile v s i e cs) (hl : len < 2147483648)
    (hw : writeFd v i buf len s = some (m, s')) :
    WriteAgrees v s s' i name cs buf m ↔
      WriteAgreesWhen v s i cs buf (min len (cs.length * v.clusterBytes)) := by
  obtain ⟨hm, hcw, hcopy⟩ := writeFd_spec wf h ho hl hw
  rw [← hm]
  have hlow : ∀ l < v.dataStartLba, s'.disk l = s.disk l := fun l hlt =>
    hcw.others l fun k _ => by
      have := v.clusterLba_ge h.chain.start.ge h.chain.start.lt16
      omega
  have hdisk := chainBytes_written h.chain hcw
  rw [WriteAgrees, (h.frame wf hlow).readsBack_iff (wf.frame hlow) ho.fits, hcopy]
  constructor
  · rintro ⟨hfile, hown⟩
    have hk : ∀ k, (if k < m then some (buf k) else (chainBytes v s.disk cs)[k]?) =
        if k < v.clusterBytes then some (if k < m then buf k else 0)
        else (chainBytes v s.disk cs)[k]? := fun k => by
      rw [← hdisk k, ← overwrite_getElem? buf, hfile]
    have ho : ∀ k, (if k < m then some (buf k)
          else (s.files (s.fds.getD i closedFd).data).data[k]?) =
        if k < m then some (buf k) else (chainBytes v s.disk cs)[k]? := fun k => by
      rw [← overwrite_getElem? buf, ← overwrite_getElem? buf, hown]
    refine ⟨fun k h1 h2 => ?_, fun k h1 h2 => ?_, fun k h1 => ?_⟩
    · have := hk k
      rwa [if_neg (by omega), if_pos h2, if_neg (by omega)] at this
    · have := hk k
      rw [if_pos h2, if_neg (by omega)] at this
      exact this.symm
    · have := ho k
      rwa [if_neg (by omega), if_neg (by omega)] at this
  · intro hwhen
    refine ⟨List.ext_getElem? fun k => ?_, List.ext_getElem? fun k => ?_⟩
    · rw [overwrite_getElem? buf, hdisk]
      by_cases h1 : k < m
      · by_cases h2 : k < v.clusterBytes
        · rw [if_pos h1, if_pos h2, if_pos h1]
        · rw [if_pos h1, if_neg h2, hwhen.beyond k (by omega) h1]
      · by_cases h2 : k < v.clusterBytes
        · rw [if_neg h1, if_pos h2, if_neg h1, hwhen.zeros k (by omega) h2]
        · rw [if_neg h1, if_neg h2]
    · rw [overwrite_getElem? buf, overwrite_getElem? buf]
      by_cases h1 : k < m
      · rw [if_pos h1, if_pos h1]
      · rw [if_neg h1, if_neg h1, hwhen.current k (by omega)]

theorem sampleFile_openFile {size : Nat} (h : size ≤ 512) : ∃ s', s'.disk = fileDisk size ∧
    OpenFile sampleVolume s' 2 (fileEntry size) [2] ∧
    (s'.files (s'.fds.getD 2 closedFd).data).data = chainBytes sampleVolume (fileDisk size) [2] := by
  obtain ⟨s', hs'⟩ := sampleFile_opens h
  have wf := fileDisk_wellFormed h
  have hfind := (sampleFile : IsFile _ (fileDisk size) _ _ _).found wf fun _ => 0
  obtain ⟨f, hf, -, hdisk, hfd, hfile⟩ := open_spec (s := freshState (fileDisk size)) hfind hs'
    (by decide)
  refine ⟨s', hdisk, open_openFile (s := freshState (fileDisk size)) wf sampleFile hs' (by decide), ?_⟩
  rw [hfd, hfile]
  exact IsFile.opened sampleFile hf

theorem OpenFile.writes {i len : Nat} (ho : OpenFile v s i e cs) (hl : len < 2147483648)
    (hsize : cs.length * v.clusterBytes < 2147483648) (buf : Nat → UInt8) :
    ∃ s', writeFd v i buf len s = some (min len (cs.length * v.clusterBytes), s') := by
  have hmin : min32 len (s.files (s.fds.getD i closedFd).data).size =
      min len (cs.length * v.clusterBytes) := by
    rw [ho.size, ho.length]
    exact min32_eq hl hsize
  have hopened : ¬(s.fds.getD i closedFd).isOpen = false := by rw [ho.isOpen]; decide
  have hle : min len (cs.length * v.clusterBytes) ≤
      (s.files (s.fds.getD i closedFd).data).data.length := ho.length ▸ Nat.min_le_right _ _
  have hlba : ∀ k < v.sectorsPerCluster, v.clusterLba e.startCluster + k < 268435456 :=
    fun k hk => v.clusterLba_lt (le16_lt e 26) hk
  obtain ⟨d', hd', -⟩ := writeCluster_spec v buf s.disk hlba
    (Nat.lt_of_le_of_lt (Nat.min_le_left len (cs.length * v.clusterBytes)) hl)
  rw [← ho.start] at hd'
  simp only [writeFd, if_neg hopened, hmin, if_pos hle, hd', Option.map_some]
  exact ⟨_, rfl⟩

theorem fullWrite_agrees : ∃ s s', writeFd sampleVolume 2 (fun _ => 7) 512 s = some (512, s') ∧
    WriteAgrees sampleVolume s s' 2 sampleName [2] (fun _ => 7) 512 := by
  obtain ⟨s, hdisk, ho, hdata⟩ := sampleFile_openFile (Nat.le_refl 512)
  have hb : [2].length * sampleVolume.clusterBytes = 512 := by decide
  obtain ⟨s', hs'⟩ := ho.writes (by decide : 512 < 2147483648) (by rw [hb]; decide) fun _ => 7
  have wf := fileDisk_wellFormed (Nat.le_refl 512)
  rw [hb] at hs'
  rw [← hdisk] at wf
  refine ⟨s, s', hs', (write_reaches_disk wf (hdisk ▸ sampleFile) ho (by decide) hs').mpr ?_⟩
  rw [hb]
  refine ⟨fun k h1 h2 => absurd h2 (Nat.not_lt.mpr h1), fun k h1 h2 => absurd h2 (Nat.not_lt.mpr h1),
    fun k _ => ?_⟩
  rw [hdata, hdisk]

/-- Writing one byte clears the other 511. -/
theorem oneByteWrite_clears : ¬ ∀ v s s' i name e cs buf len m, WellFormed v s.disk →
    IsFile v s.disk name e cs → OpenFile v s i e cs → len < 2147483648 →
    writeFd v i buf len s = some (m, s') → WriteAgrees v s s' i name cs buf m := by
  intro hall
  obtain ⟨s, hdisk, ho, -⟩ := sampleFile_openFile (Nat.le_refl 512)
  have hb : [2].length * sampleVolume.clusterBytes = 512 := by decide
  obtain ⟨s', hs'⟩ := ho.writes (by decide : 1 < 2147483648) (by rw [hb]; decide) fun _ => 7
  have wf : WellFormed sampleVolume s.disk := hdisk ▸ fileDisk_wellFormed (Nat.le_refl 512)
  have hfile : IsFile sampleVolume s.disk sampleName (fileEntry 512) [2] := hdisk ▸ sampleFile
  have hagree := hall _ _ _ _ _ _ _ _ _ _ wf hfile ho (by decide) hs'
  obtain ⟨hm, hcw, -⟩ := writeFd_spec wf hfile ho (by decide) hs'
  have hlow : ∀ l < sampleVolume.dataStartLba, s'.disk l = s.disk l := fun l hlt =>
    hcw.others l fun k _ => by
      have := sampleVolume.clusterLba_ge hfile.chain.start.ge hfile.chain.start.lt16
      omega
  have heq := ((hfile.frame wf hlow).readsBack_iff (wf.frame hlow) ho.fits).mp hagree.1
  have hk := congrArg (fun xs : List UInt8 => xs[1]?) heq
  have hold : (chainBytes sampleVolume s.disk [2])[1]? = some 1 := by
    rw [hdisk, chainBytes, List.flatMap_singleton, readCluster_eq, List.getElem?_map,
      List.getElem?_range (by decide), Option.map_some]
    exact congrArg some (by decide +kernel)
  have hmin : min 1 ([2].length * sampleVolume.clusterBytes) = 1 := by decide
  have hb1 : 1 < sampleVolume.clusterBytes := by decide
  simp only [overwrite_getElem?, chainBytes_written hfile.chain hcw, hmin, hold, hb1, if_true,
    Nat.lt_irrefl, if_false] at hk
  exact absurd hk (by decide)

/-! ### Which sectors a write changes -/

/- A write to the non-empty regular file `e` changes sectors of its clusters only; a write to
   anything else changes no sector. -/
def StaysInside (v : Volume) (d d' : Disk) (e : Fat16Entry) : Prop :=
  if e.isRegular = true ∧ 0 < e.fileSize then
    ∀ l, d' l ≠ d l → ∃ cs, Chain v d e.startCluster cs ∧
      ∃ c ∈ cs, ∃ k < v.sectorsPerCluster, l = v.clusterLba c + k
  else ∀ l, ∀ j < sectorSize, d' l j = d l j

/- The sectors from the start cluster on hold what is written to them already. -/
def StaysInsideWhen (v : Volume) (d : Disk) (e : Fat16Entry) (buf : Nat → UInt8) (m : Nat) : Prop :=
  (e.isRegular = true ∧ 0 < e.fileSize) ∨ ∀ k < v.sectorsPerCluster, ∀ j < sectorSize,
    d (v.clusterLba e.startCluster + k) j = padded m buf k j

theorem found_entry (h : fat16FindFile v d garbage name = some (some e)) :
    e = rootEntry garbage ∨ (e ∈ live (rootSlots v d) ∧ e.isNamed = true) := by
  by_cases hs : name.chars = [slash]
  · rw [fat16FindFile, if_pos hs] at h
    exact .inl (Option.some.inj (Option.some.inj h)).symm
  · rw [fat16FindFile, if_neg hs] at h
    obtain ⟨n, -, hn⟩ := Option.map_eq_some_iff.mp h
    rw [findSlot_eq] at hn
    exact .inr ⟨List.mem_of_find?_eq_some hn, names_isNamed (List.find?_some hn)⟩

theorem rootEntry_regular (garbage : Fat16Entry) : (rootEntry garbage).isRegular = false := by
  have hattr : (rootEntry garbage).attributes = 0x10 := rfl
  rw [Fat16Entry.isRegular, hattr]
  decide

theorem startCluster_lt (e : Fat16Entry) : e.startCluster < 65536 := le16_lt e 26

/-- A non-empty regular file that a name finds has clusters. -/
theorem found_chain (wf : WellFormed v d) (h : fat16FindFile v d garbage name = some (some e))
    (hr : e.isRegular = true) (hs : 0 < e.fileSize) : ∃ cs, Chain v d e.startCluster cs := by
  rcases found_entry h with rfl | ⟨hm, hn⟩
  · rw [rootEntry_regular] at hr
    cases hr
  · rcases (wf.entries e hm hn).chain with ⟨-, hz⟩ | ⟨cs, hc, -⟩
    · omega
    · exact ⟨cs, hc⟩

/-- Whatever the start cluster is, a write fills its sectors with the padded buffer. -/
theorem writeFd_sectors {i len m : Nat} {buf : Nat → UInt8} (hs : 0 < v.sectorsPerCluster)
    (hopen : (s.fds.getD i closedFd).isOpen = true)
    (hstart : (s.files (s.fds.getD i closedFd).data).startCluster = e.startCluster)
    (hw : writeFd v i buf len s = some (m, s')) :
    m = min32 len (s.files (s.fds.getD i closedFd).data).size ∧
      ClusterWritten v (v.clusterLba e.startCluster) m buf s.disk s'.disk := by
  have hopened : ¬(s.fds.getD i closedFd).isOpen = false := by rw [hopen]; decide
  simp only [writeFd, if_neg hopened] at hw
  split at hw
  · obtain ⟨d, hd, he⟩ := Option.map_eq_some_iff.mp hw
    cases he
    refine ⟨rfl, ?_⟩
    have hlt : min32 len (s.files (s.fds.getD i closedFd).data).size < 4294967296 := by
      unfold min32
      split <;> exact wrap_lt _
    have hsmall : min32 len (s.files (s.fds.getD i closedFd).data).size < 2147483648 := by
      by_contra hbig
      rw [writeCluster_none v buf s.disk hs (by omega) hlt] at hd
      cases hd
    obtain ⟨d', hd', hcw⟩ := writeCluster_spec v buf s.disk
      (fun k hk => v.clusterLba_lt (startCluster_lt e) hk) hsmall
    rw [hstart, hd'] at hd
    cases hd
    exact hcw
  · cases hw

/-- A write stays inside the file exactly when there is a file with something in it, or nothing to
change. -/
theorem file_write_inside {i len m : Nat} {buf : Nat → UInt8} (wf : WellFormed v s.disk)
    (hfound : fat16FindFile v s.disk garbage name = some (some e))
    (hopen : (s.fds.getD i closedFd).isOpen = true)
    (hstart : (s.files (s.fds.getD i closedFd).data).startCluster = e.startCluster)
    (hw : writeFd v i buf len s = some (m, s')) :
    StaysInside v s.disk s'.disk e ↔
      StaysInsideWhen v s.disk e buf (min32 len (s.files (s.fds.getD i closedFd).data).size) := by
  obtain ⟨hm, hcw⟩ := writeFd_sectors wf.spc_pos hopen hstart hw
  rw [← hm]
  have hlba : ∀ k < v.sectorsPerCluster, ataReadSector s'.disk (v.clusterLba e.startCluster + k) =
      s'.disk (v.clusterLba e.startCluster + k) := fun k hk => by
    rw [ataReadSector, ataLba_eq (v.clusterLba_lt (startCluster_lt e) hk)]
  by_cases hfile : e.isRegular = true ∧ 0 < e.fileSize
  · refine ⟨fun _ => .inl hfile, fun _ => ?_⟩
    obtain ⟨cs, hc⟩ := found_chain wf hfound hfile.1 hfile.2
    obtain ⟨rest, hhead⟩ := hc.head
    rw [StaysInside, if_pos hfile]
    intro l hl
    by_contra hno
    refine hl (hcw.others l fun k hk he => hno ⟨cs, hc, e.startCluster, ?_, k, hk, he⟩)
    rw [hhead]
    exact List.mem_cons_self
  · rw [StaysInside, if_neg hfile]
    constructor
    · intro hsame
      refine .inr fun k hk j hj => ?_
      rw [← hsame _ j hj, ← hlba k hk, hcw.written k hk]
    · rintro (hf | hsame) l j hj
      · exact absurd hf hfile
      · by_cases hl : ∃ k < v.sectorsPerCluster, l = v.clusterLba e.startCluster + k
        · obtain ⟨k, hk, rfl⟩ := hl
          rw [hsame k hk j hj, ← hlba k hk, hcw.written k hk]
        · rw [hcw.others l fun k hk he => hl ⟨k, hk, he⟩]

theorem sampleWrite_inside : ∃ s s' m, writeFd sampleVolume 2 (fun _ => 7) 3 s = some (m, s') ∧
    StaysInside sampleVolume s.disk s'.disk (fileEntry 3) := by
  obtain ⟨s, hdisk, ho, -⟩ := sampleFile_openFile (by decide : 3 ≤ 512)
  have hb : [2].length * sampleVolume.clusterBytes < 2147483648 := by decide
  obtain ⟨s', hs'⟩ := ho.writes (by decide : 3 < 2147483648) hb fun _ => 7
  have wf : WellFormed sampleVolume s.disk := hdisk ▸ fileDisk_wellFormed (by decide : 3 ≤ 512)
  have hfile : IsFile sampleVolume s.disk sampleName (fileEntry 3) [2] := hdisk ▸ sampleFile
  refine ⟨s, s', _, hs', (file_write_inside wf (hfile.found wf fun _ => 0) ho.isOpen ho.start
    hs').mpr (.inl ⟨fileEntry_regular, ?_⟩)⟩
  rw [fileEntry_size (by decide : 3 ≤ 512)]
  decide

/- Descriptor 2 open on "/", whose block from kmalloc held zeros. -/
def rootState : FileState :=
  ((freshState emptyDisk).setFile 4 ⟨[], 0, 0x10, 0⟩).setFd 2 ⟨.file, 4, 0, true⟩

theorem rootState_opened : handleSyscallOpen sampleVolume wholeHeap (fun _ => 0) 4
    (some ⟨[slash], noNul_of_all rfl⟩) (freshState emptyDisk) = some (2, rootState) := by
  have hentry : openEntry sampleVolume emptyDisk wholeHeap (rootEntry fun _ => 0) =
      some ⟨[], 0, 0x10, 0⟩ := rfl
  have hslot : closedSlot (freshState emptyDisk).fds = some 2 := rfl
  have hfind : fat16FindFile sampleVolume emptyDisk (fun _ => 0) ⟨[slash], noNul_of_all rfl⟩ =
      some (some (rootEntry fun _ => 0)) := if_pos rfl
  have hd : (freshState emptyDisk).disk = emptyDisk := rfl
  simp only [handleSyscallOpen, hd, hfind, Option.bind_eq_bind, Option.bind_some, hentry, hslot]
  rfl

theorem rootWrite : ∃ s', writeFd sampleVolume 2 (fun _ => 7) 1 rootState = some (0, s') := by
  obtain ⟨d', hd', -⟩ := writeCluster_spec sampleVolume (fun _ => (7 : UInt8)) emptyDisk
    (fun k hk => sampleVolume.clusterLba_lt (by decide : 0 < 65536) hk) (by decide : 0 < 2147483648)
  have hfd : rootState.fds.getD 2 closedFd = ⟨.file, 4, 0, true⟩ := rfl
  have hfile : rootState.files 4 = ⟨[], 0, 0x10, 0⟩ := rfl
  have hdisk : rootState.disk = emptyDisk := rfl
  have hmin : min32 1 0 = 0 := by decide
  have hopen : ¬true = false := by decide
  simp only [writeFd, hfd, hfile, hdisk, hmin, if_neg hopen, List.length_nil, Nat.le_refl, if_true,
    hd', Option.map_some]
  exact ⟨_, rfl⟩

/-- A write to "/" clears the FAT: with start_cluster 0 its sector is two in front of the data. -/
theorem rootWrite_clearsFat : ¬ ∀ v s₀ s s' room garbage ptr name e i buf len m,
    WellFormed v s.disk → handleSyscallOpen v room garbage ptr (some name) s₀ = some (i, s) →
    fat16FindFile v s.disk garbage name = some (some e) → writeFd v i buf len s = some (m, s') →
    StaysInside v s.disk s'.disk e := by
  intro hall
  obtain ⟨s', hs'⟩ := rootWrite
  have hin := hall _ _ _ _ _ _ _ _ _ _ _ _ _ emptyDisk_wellFormed rootState_opened (if_pos rfl) hs'
  rw [StaysInside, rootEntry_regular, if_neg (by decide)] at hin
  obtain ⟨-, hcw⟩ := writeFd_sectors (e := rootEntry fun _ => 0) (by decide) rfl rfl hs'
  have hclear := congrFun (hcw.written 0 (by decide)) 0
  have hlba : ataLba (sampleVolume.clusterLba (rootEntry fun _ => 0).startCluster + 0) = 2049 := by
    decide +kernel
  rw [ataReadSector, hlba, hin 2049 0 (by decide)] at hclear
  exact absurd hclear (by decide)

end AdamOS.Files
