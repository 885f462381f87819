import AdamOS.Files.Chain

/-! fat16_write_file and what fat16_find_file and fat16_read_file make of its result. -/
namespace AdamOS.Fat16
open AdamOS.Loop AdamOS.Word

/- The file found under the name has the size and the bytes. The block find_file allocates may
   hold anything. -/
def RoundTrip (v : Volume) (d : Disk) (name : CString) (data : Nat → UInt8) (size : Nat) : Prop :=
  ∀ garbage, ∃ e bytes, fat16FindFile v d garbage name = some (some e) ∧ e.fileSize = size ∧
    fat16ReadFile v d e = some bytes ∧ ∀ k < size, bytes[k]? = some (data k)

/- The entry describes a file of this size that begins with these bytes. -/
def Describes (v : Volume) (d : Disk) (e : Fat16Entry) (data : Nat → UInt8) (size : Nat) : Prop :=
  e.fileSize = size ∧ ∀ cs, Chain v d e.startCluster cs →
    ∀ k < size, (chainBytes v d cs)[k]? = some (data k)

/- No other entry of that name is in the way and the data fit a cluster; or the entry in the way
   describes the same file. -/
def RoundTripWhen (v : Volume) (d : Disk) (name : CString) (data : Nat → UInt8) (size : Nat) :
    Prop :=
  name.chars ≠ [slash] ∧ ∃ n, fat16FormatName name = some n ∧
    match (taken v d).find? n.names with
    | some e => Describes v d e data size
    | none => (∃ e ∈ rootSlots v d, isFreeSlot e = true) ∧ n.name 0 ≠ deleted ∧
        size ≤ v.clusterBytes

/-! ### What fat16_write_file changes -/

structure Created (v : Volume) (d : Disk) (n : ShortName) (c : Nat) (data : Nat → UInt8)
    (size : Nat) (d' : Disk) : Prop where
  cluster : ValidCluster v c
  free : fatEntry v d c = 0
  fat : ∀ x, x / 256 < v.sectorsPerFat →
    fatEntry v d' x = if x = c then endOfChain else fatEntry v d x
  root : rootSlots v d' = match freeSlot v d with
    | some s => (rootSlots v d).set s (newEntry n c size)
    | none => rootSlots v d
  data : readCluster v d' c = (List.range v.clusterBytes).map fun k => if k < size then data k else 0
  others : ∀ x, ValidCluster v x → x ≠ c → ∀ i < v.sectorsPerCluster,
    d' (v.clusterLba x + i) = d (v.clusterLba x + i)

theorem freeCluster_spec {v : Volume} {d : Disk} {c : Nat} (h : freeCluster v d = some c) :
    ValidCluster v c ∧ fatEntry v d c = 0 := by
  have hm := List.mem_range'_1.mp (List.mem_of_find?_eq_some h)
  have hz := List.find?_some h
  have ht : totalClusters v ≤ v.sectorsPerFat * 256 := by
    rw [totalClusters]
    simp only [sectorSize]
    omega
  have hm256 : totalClusters v ≤ 65280 := by
    rw [totalClusters]
    simp only [sectorSize]
    omega
  exact ⟨⟨hm.1, by omega, by omega⟩, by simpa using hz⟩

/-- A file is created by writing to one FAT entry, one cluster and one slot of the directory. -/
theorem writeFile_created {v : Volume} {d d' : Disk} {name : CString} {data : Nat → UInt8}
    {size : Nat} (hf : 0 < v.numFats) (hs : 0 < v.sectorsPerCluster) (hsize : size < 4294967296)
    (h : fat16WriteFile v name data size d = some (true, d')) :
    ∃ n c, fat16FormatName name = some n ∧ Created v d n c data size d' := by
  rw [fat16WriteFile, fat16AllocCluster] at h
  cases hc : freeCluster v d with
  | none => rw [hc] at h; cases h
  | some c =>
    obtain ⟨hv, hz⟩ := freeCluster_spec hc
    have h2 := hv.ge
    have hd := v.dataStartLba_lt
    have hr := rootDirStartLba_le v
    have hsec := fatSector_lt hf hv.inFat
    rw [hc] at h
    simp only [if_neg (show ¬c = 0 by omega)] at h
    obtain ⟨d₂, hw, h⟩ := Option.bind_eq_some_iff.mp h
    obtain ⟨d₃, hdir, h⟩ := Option.bind_eq_some_iff.mp h
    cases h
    have hlba : ∀ i < v.sectorsPerCluster, v.clusterLba c + i < 268435456 :=
      fun i hi => v.clusterLba_lt hv.lt16 hi
    have hge := v.clusterLba_ge h2 hv.lt16
    have hsmall : size < 2147483648 := by
      by_contra hbig
      rw [writeCluster_none v data _ hs (by omega) hsize] at hw
      cases hw
    obtain ⟨d₂', hw', hcw⟩ := writeCluster_spec v data (setFat v c d) hlba hsmall
    rw [hw] at hw'
    cases hw'
    obtain ⟨n, hn, hput⟩ := Option.map_eq_some_iff.mp hdir
    -- below the clusters only the FAT sector has changed so far
    have hlow : ∀ l < v.dataStartLba, d₂ l = setFat v c d l :=
      fun l hl => hcw.others l fun i _ => by omega
    have hroot : rootSlots v d₂ = rootSlots v d := rootSlots_congr fun l h1 h2 => by
      rw [hlow l h2, setFat_frame d (by omega) (by omega)]
    have hslot : freeSlot v d₂ = freeSlot v d := by rw [freeSlot, hroot, freeSlot]
    have hend : ∀ l, l < v.rootDirStartLba ∨ v.dataStartLba ≤ l → d' l = d₂ l := fun l hl => by
      rw [← hput]
      cases hfs : freeSlot v d₂ with
      | none => rfl
      | some s =>
        have hlt := rootSlot_lt v (rootSlots_length v d₂ ▸ (findIdx?_split hfs).1)
        have hle : v.rootDirStartLba ≤ v.rootDirStartLba + s / slotsPerSector := Nat.le_add_right _ _
        exact putSlot_frame _ _ (by omega) (by omega)
    refine ⟨n, c, hn, ⟨hv, hz, fun x hx => ?_, ?_, ?_, fun x hx hxc i hi => ?_⟩⟩
    · rw [fatEntry_congr hf hx fun l hl => (hend l (.inl hl)).trans (hlow l (by omega)),
        fatEntry_setFat d hf hv.inFat hx]
    · rw [← hput, ← hslot]
      cases hfs : freeSlot v d₂ with
      | none => exact hroot
      | some s =>
        have hlt := rootSlots_length v d₂ ▸ (findIdx?_split hfs).1
        exact (rootSlots_putSlot v d₂ hlt fun _ => newEntry_tail).trans (by rw [hroot])
    · rw [← hcw.read]
      exact readCluster_congr hv.lt16 fun i _ => hend _ (.inr (by omega))
    · have hxge := v.clusterLba_ge hx.ge hx.lt16
      rw [hend _ (.inr (by omega)), hcw.others, setFat_frame d (by omega) (by omega)]
      exact fun i' hi' he => hxc (v.clusterLba_apart hx.ge hx.lt16 h2 hv.lt16 hi hi' he).1

/-! ### What is found -/

theorem roundTrip_slash {v : Volume} {d : Disk} {name : CString} {data : Nat → UInt8} {size : Nat}
    (hname : name.chars = [slash]) : ¬RoundTrip v d name data size := by
  intro h
  have hsize : ∀ g : Fat16Entry, (rootEntry g).fileSize = size := fun g => by
    obtain ⟨e, bytes, he, hs, -⟩ := h g
    rw [fat16FindFile, if_pos hname] at he
    cases he
    exact hs
  have h0 := hsize fun _ => 0
  have h1 := hsize fun _ => 1
  exact absurd (h0.trans h1.symm) (by decide)

theorem findFile_eq {v : Volume} {d : Disk} {garbage : Fat16Entry} {name : CString} {n : ShortName}
    (hname : name.chars ≠ [slash]) (hn : fat16FormatName name = some n) :
    fat16FindFile v d garbage name = some ((live (rootSlots v d)).find? n.names) := by
  rw [fat16FindFile, if_neg hname, hn, Option.map_some, findSlot_eq]

/-- The round trip is about the entry that the name finds. -/
theorem roundTrip_iff {v : Volume} {d : Disk} {name : CString} {n : ShortName}
    {data : Nat → UInt8} {size : Nat} (hname : name.chars ≠ [slash])
    (hn : fat16FormatName name = some n) : RoundTrip v d name data size ↔
      ∃ e bytes, (live (rootSlots v d)).find? n.names = some e ∧ e.fileSize = size ∧
        fat16ReadFile v d e = some bytes ∧ ∀ k < size, bytes[k]? = some (data k) := by
  simp only [RoundTrip, findFile_eq hname hn, Option.some.injEq, forall_const]

theorem Created.old {v : Volume} {d d' : Disk} {n : ShortName} {c : Nat} {data : Nat → UInt8}
    {size : Nat} (h : Created v d n c data size d') (wf : WellFormed v d) {e : Fat16Entry}
    (he : EntryOk v d e) : (e.fileSize = size ∧ ∃ bytes, fat16ReadFile v d' e = some bytes ∧
      ∀ k < size, bytes[k]? = some (data k)) ↔ Describes v d e data size := by
  rcases he.chain with ⟨h0, hz⟩ | ⟨cs, hcs, -⟩
  · -- an empty entry without clusters: entry 0 of the FAT ends the chain at once
    have hend : endOfChain ≤ fatEntry v d' 0 := by
      rw [h.fat 0 wf.fat, if_neg (Nat.ne_of_lt (Nat.lt_of_lt_of_le (by decide) h.cluster.ge))]
      exact wf.media
    have hread : ∃ bytes, fat16ReadFile v d' e = some bytes := by
      rw [fat16ReadFile, h0, readChain, if_neg (Nat.not_lt.mpr hend)]
      exact ⟨_, rfl⟩
    constructor
    · rintro ⟨hs, -⟩
      have hzero : size = 0 := hs.symm.trans hz
      exact ⟨hs, fun cs _ k hk => absurd (hzero ▸ hk) (Nat.not_lt_zero k)⟩
    · rintro ⟨hs, -⟩
      have hzero : size = 0 := hs.symm.trans hz
      obtain ⟨bytes, hb⟩ := hread
      exact ⟨hs, bytes, hb, fun k hk => absurd (hzero ▸ hk) (Nat.not_lt_zero k)⟩
  · have hne : ∀ x ∈ cs, x ≠ c := fun x hx hxc => hcs.nonzero x hx (hxc ▸ h.free)
    have hchain : Chain v d' e.startCluster cs := hcs.congr fun x hx => by
      rw [h.fat x (hcs.valid x hx).inFat, if_neg (hne x hx)]
    have hbytes : chainBytes v d' cs = chainBytes v d cs :=
      chainBytes_congr hcs.valid fun x hx => h.others x (hcs.valid x hx) (hne x hx)
    constructor
    · rintro ⟨hs, bytes, hb, hk⟩
      rw [hchain.readFile, hbytes] at hb
      cases hb
      exact ⟨hs, fun cs' hcs' => hcs.unique hcs' ▸ hk⟩
    · rintro ⟨hs, hk⟩
      refine ⟨hs, _, hchain.readFile, fun k hlt => ?_⟩
      rw [hbytes]
      exact hk cs hcs k hlt

/-- The new file reads back as far as one cluster goes. -/
theorem Created.new {v : Volume} {d d' : Disk} {n : ShortName} {c : Nat} {data : Nat → UInt8}
    {size : Nat} (h : Created v d n c data size d') :
    (∃ bytes, fat16ReadFile v d' (newEntry n c size) = some bytes ∧
      ∀ k < size, bytes[k]? = some (data k)) ↔ size ≤ v.clusterBytes := by
  have hstart : Fat16Entry.startCluster (newEntry n c size) = c := newEntry_startCluster h.cluster.lt16
  have hchain : Chain v d' (Fat16Entry.startCluster (newEntry n c size)) [c] := by
    rw [hstart]
    exact .last h.cluster (by rw [h.fat c h.cluster.inFat, if_pos rfl])
  have hbytes : chainBytes v d' [c] =
      (List.range v.clusterBytes).map fun k => if k < size then data k else 0 := by
    rw [chainBytes, List.flatMap_singleton, h.data]
  rw [hchain.readFile, hbytes]
  constructor
  · rintro ⟨bytes, hb, hk⟩
    cases hb
    by_contra hlt
    have hlast := hk v.clusterBytes (by omega)
    rw [List.getElem?_eq_none (by rw [List.length_map, List.length_range])] at hlast
    cases hlast
  · intro hle
    refine ⟨_, rfl, fun k hk => ?_⟩
    rw [List.getElem?_map, List.getElem?_range (by omega), Option.map_some, if_pos hk]

/-- The directory after the call: the slots taken before it, then perhaps the new entry. -/
theorem Created.live {v : Volume} {d d' : Disk} {n : ShortName} {c : Nat} {data : Nat → UInt8}
    {size : Nat} (h : Created v d n c data size d') :
    (live (rootSlots v d') = taken v d ∧ ∀ e ∈ rootSlots v d, isFreeSlot e = false) ∨
    ((∃ e ∈ rootSlots v d, isFreeSlot e = true) ∧ ∃ post,
      live (rootSlots v d') = taken v d ++ live (newEntry n c size :: post)) := by
  have hroot := h.root
  cases hfs : freeSlot v d with
  | none =>
    rw [hfs] at hroot
    refine .inl ⟨?_, List.findIdx?_eq_none_iff.mp hfs⟩
    have hl : Fat16.live (taken v d ++ []) = taken v d ++ Fat16.live [] :=
      live_append (fun _ => mem_taken) []
    rw [List.append_nil, taken_full hfs] at hl
    rw [hroot, hl, taken_full hfs]
    exact List.append_nil _
  | some s =>
    rw [hfs] at hroot
    obtain ⟨-, x, post, hx, hsplit, hset⟩ := findIdx?_split hfs
    refine .inr ⟨⟨x, hsplit ▸ List.mem_append_right _ List.mem_cons_self, hx⟩, post, ?_⟩
    have hset' : rootSlots v d' = taken v d ++ newEntry n c size :: post := hroot.trans (hset _)
    rw [hset', live_append fun _ => mem_taken]

/-- Behind the slots taken before, the name finds the new entry, unless that looks deleted. -/
theorem find_newEntry {n : ShortName} {c size : Nat} (post : List Fat16Entry)
    (hn : ∀ i, n.name i ≠ 0 ∧ n.ext i ≠ 0) :
    (live (newEntry n c size :: post)).find? n.names =
      if n.name 0 = deleted then none else some (newEntry n c size) := by
  by_cases hdel : n.name 0 = deleted
  · rw [if_pos hdel, List.find?_eq_none]
    intro e he hnames
    have hfree := (mem_live he).2
    rw [isFreeSlot_iff.mpr (.inr ((names_first hnames).symm.trans hdel))] at hfree
    cases hfree
  · have hfree : isFreeSlot (newEntry n c size) = false := by
      rw [← Bool.not_eq_true, isFreeSlot_iff, newEntry_first]
      exact not_or.mpr ⟨(hn 0).1, hdel⟩
    rw [if_neg hdel, live_cons hfree, List.find?_cons, newEntry_named hn]

/-- fat16_write_file and fat16_find_file agree exactly when the file fits a cluster, finds a slot
and is not hidden by an entry of the same name. -/
theorem create_read_round_trip {v : Volume} {d d' : Disk} {name : CString} {data : Nat → UInt8}
    {size : Nat} (wf : WellFormed v d) (hsize : size < 4294967296)
    (h : fat16WriteFile v name data size d = some (true, d')) :
    RoundTrip v d' name data size ↔ RoundTripWhen v d name data size := by
  obtain ⟨n, c, hn, hcr⟩ := writeFile_created wf.fats wf.spc_pos hsize h
  by_cases hname : name.chars = [slash]
  · exact ⟨fun hr => absurd hr (roundTrip_slash hname), fun hw => absurd hname hw.1⟩
  have hwhen : RoundTripWhen v d name data size ↔ match (taken v d).find? n.names with
      | some e => Describes v d e data size
      | none => (∃ e ∈ rootSlots v d, isFreeSlot e = true) ∧ n.name 0 ≠ deleted ∧
          size ≤ v.clusterBytes := by
    simp only [RoundTripWhen, ne_eq, hname, not_false_eq_true, hn, Option.some.injEq, true_and,
      exists_eq_left']
  rw [roundTrip_iff hname hn, hwhen]
  cases hold : (taken v d).find? n.names with
  | some e =>
    -- the entry in the way is found before and after
    have hmem := List.mem_of_find?_eq_some hold
    have hok := wf.entries e (taken_live hmem) (names_isNamed (List.find?_some hold))
    have hfind : (Fat16.live (rootSlots v d')).find? n.names = some e := by
      rcases hcr.live with ⟨hl, -⟩ | ⟨-, post, hl⟩
      · rw [hl, hold]
      · rw [hl, List.find?_append, hold, Option.some_or]
    rw [hfind]
    simp only [Option.some.injEq]
    rw [← hcr.old wf hok]
    constructor
    · rintro ⟨e', bytes, rfl, hs, hb⟩
      exact ⟨hs, bytes, hb⟩
    · rintro ⟨hs, bytes, hb⟩
      exact ⟨e, bytes, rfl, hs, hb⟩
  | none =>
    simp only
    rcases hcr.live with ⟨hl, hfull⟩ | ⟨hexists, post, hl⟩
    · rw [hl, hold]
      constructor
      · rintro ⟨e, bytes, he, -⟩
        cases he
      · rintro ⟨⟨e, he, hfree⟩, -⟩
        rw [hfull e he] at hfree
        cases hfree
    · rw [hl, List.find?_append, hold, Option.none_or, find_newEntry post (formatName_ne_zero hn)]
      by_cases hdel : n.name 0 = deleted
      · rw [if_pos hdel]
        constructor
        · rintro ⟨e, bytes, he, -⟩
          cases he
        · rintro ⟨-, hne, -⟩
          exact absurd hdel hne
      · rw [if_neg hdel]
        simp only [Option.some.injEq]
        constructor
        · rintro ⟨e, bytes, rfl, -, hb⟩
          exact ⟨hexists, hdel, hcr.new.mp ⟨bytes, hb⟩⟩
        · rintro ⟨-, -, hle⟩
          obtain ⟨bytes, hb⟩ := hcr.new.mpr hle
          exact ⟨_, bytes, rfl, newEntry_fileSize hsize, hb⟩

/-! ### A file of one byte too many -/

def sampleData (k : Nat) : UInt8 := UInt8.ofNat (k + 1)

theorem sample_written (size : Nat) (h : size < 2147483648) : ∃ d',
    fat16WriteFile sampleVolume sampleName sampleData size emptyDisk = some (true, d') := by
  have hfree : freeCluster sampleVolume emptyDisk = some 2 := by decide +kernel
  have hc : fat16AllocCluster sampleVolume emptyDisk = (2, setFat sampleVolume 2 emptyDisk) := by
    rw [fat16AllocCluster, hfree]
  obtain ⟨d₂, hw, -⟩ := writeCluster_spec sampleVolume sampleData (setFat sampleVolume 2 emptyDisk)
    (fun i hi => sampleVolume.clusterLba_lt (by decide : 2 < 65536) hi) h
  rw [fat16WriteFile, hc, if_neg (by decide)]
  simp only [hw, Option.bind_eq_bind, Option.bind_some]
  exact ⟨_, rfl⟩

theorem sample_round_trip : ∃ d',
    fat16WriteFile sampleVolume sampleName sampleData 3 emptyDisk = some (true, d') ∧
      RoundTrip sampleVolume d' sampleName sampleData 3 := by
  obtain ⟨d', h⟩ := sample_written 3 (by decide)
  refine ⟨d', h, (create_read_round_trip emptyDisk_wellFormed (by decide) h).mpr ?_⟩
  exact ⟨by decide, _, rfl, ⟨dirSlot emptyDisk 2050 0, List.mem_of_getElem? (i := 0) rfl, rfl⟩,
    by decide, by decide⟩

/-- A file of 513 bytes on clusters of 512 loses its last byte, and the call returns true. -/
theorem long_file_truncated : ¬ ∀ v d name data size d', WellFormed v d → size < 4294967296 →
    fat16WriteFile v name data size d = some (true, d') → RoundTrip v d' name data size := by
  intro hall
  obtain ⟨d', h⟩ := sample_written 513 (by decide)
  have hr := hall _ _ _ _ _ _ emptyDisk_wellFormed (by decide) h
  obtain ⟨n, c, hn, hcr⟩ := writeFile_created (by decide) (by decide) (by decide) h
  obtain ⟨e, bytes, hfind, -, hread, hbytes⟩ := (roundTrip_iff (by decide) hn).mp hr
  have hdel : n.name 0 ≠ deleted := by
    have hall : (fat16FormatName sampleName).all (fun n => n.name 0 != deleted) = true := by decide
    rw [hn] at hall
    simpa using hall
  have htaken : taken sampleVolume emptyDisk = [] := rfl
  rcases hcr.live with ⟨hl, -⟩ | ⟨-, post, hl⟩
  · rw [hl, htaken] at hfind
    cases hfind
  · rw [hl, htaken, List.nil_append, find_newEntry post (formatName_ne_zero hn), if_neg hdel] at hfind
    cases hfind
    exact absurd (hcr.new.mp ⟨bytes, hread, hbytes⟩) (by decide)

end AdamOS.Fat16
