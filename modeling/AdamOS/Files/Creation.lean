import AdamOS.Files.RoundTrip

/-! What a failing fat16_write_file leaves behind. The cluster is marked in the FAT and filled
before fat16_create_dir_entry looks for a slot, and that function has no way to report that there
is none. -/
namespace AdamOS.Fat16
open AdamOS.Loop AdamOS.Word

structure Untouched (v : Volume) (d d' : Disk) : Prop where
  tables : ∀ l, v.fatStartLba ≤ l → l < v.dataStartLba → d' l = d l
  clusters : ∀ c, ValidCluster v c → fatEntry v d c ≠ 0 →
    ∀ i < v.sectorsPerCluster, d' (v.clusterLba c + i) = d (v.clusterLba c + i)

theorem Untouched.refl (v : Volume) (d : Disk) : Untouched v d d :=
  ⟨fun _ _ _ => rfl, fun _ _ _ _ _ => rfl⟩

structure NewEntryAt (v : Volume) (d d' : Disk) (s : Nat) (e : Fat16Entry) : Prop where
  slot : (rootSlots v d')[s]? = some e
  used : isFreeSlot e = false
  changed : (rootSlots v d)[s]? ≠ some e

def OneNewEntry (v : Volume) (d d' : Disk) : Prop :=
  ∃ s e cs, NewEntryAt v d d' s e ∧ (∀ s' e', NewEntryAt v d d' s' e' → s' = s) ∧
    Chain v d' e.startCluster cs ∧ ∀ c ∈ cs, fatEntry v d c = 0

def FullRoot (v : Volume) (d : Disk) : Prop := ∀ e ∈ rootSlots v d, isFreeSlot e = false

def FullFat (v : Volume) (d : Disk) : Prop := ∀ c, ValidCluster v c → fatEntry v d c ≠ 0

structure AllOrNothing (v : Volume) (d : Disk) (name : CString) (data : Nat → UInt8)
    (size : Nat) : Prop where
  nothing : FullRoot v d ∨ FullFat v d →
    ∃ d', fat16WriteFile v name data size d = some (false, d') ∧ Untouched v d d'
  all : ∀ d', fat16WriteFile v name data size d = some (true, d') → OneNewEntry v d d'

/- The root directory has a slot and the entry put there does not read as deleted (a length that
   is negative as an int never gets so far); or fat16_alloc_cluster finds nothing. -/
def EntryFits (v : Volume) (d : Disk) (name : CString) (size : Nat) : Prop :=
  freeCluster v d = none ∨ (freeSlot v d).isSome = true ∧
    (size < 2147483648 → ∀ n, fat16FormatName name = some n → n.name 0 ≠ deleted)

variable {v : Volume} {d d' : Disk} {name : CString} {n : ShortName} {data : Nat → UInt8}
  {size c : Nat}

theorem freeSlot_none : freeSlot v d = none ↔ FullRoot v d := List.findIdx?_eq_none_iff

theorem writeFile_full (h : freeCluster v d = none) :
    fat16WriteFile v name data size d = some (false, d) := by
  rw [fat16WriteFile, fat16AllocCluster, h]
  exact if_pos rfl

/-- With a cluster in hand the call never returns false. -/
theorem writeFile_true {b : Bool} (hc : freeCluster v d = some c)
    (h : fat16WriteFile v name data size d = some (b, d')) : b = true := by
  have h2 := (freeCluster_spec hc).1.ge
  rw [fat16WriteFile, fat16AllocCluster, hc] at h
  simp only [if_neg (show ¬c = 0 by omega)] at h
  obtain ⟨d₂, -, h⟩ := Option.bind_eq_some_iff.mp h
  obtain ⟨d₃, -, h⟩ := Option.bind_eq_some_iff.mp h
  cases h
  rfl

/-- A name that fits and a length that is no negative int are written. -/
theorem writeFile_served (hc : freeCluster v d = some c) (hn : fat16FormatName name = some n)
    (hsize : size < 2147483648) : ∃ d', fat16WriteFile v name data size d = some (true, d') := by
  have hv := (freeCluster_spec hc).1
  have h2 := hv.ge
  obtain ⟨d₂, hw, -⟩ := writeCluster_spec v data (setFat v c d)
    (fun i hi => v.clusterLba_lt hv.lt16 hi) hsize
  have hdir : ∀ d, ∃ d', fat16CreateDirEntry v name c size d = some d' :=
    fun d => ⟨_, by rw [fat16CreateDirEntry, hn, Option.map_some]⟩
  obtain ⟨d₃, hdir⟩ := hdir d₂
  rw [fat16WriteFile, fat16AllocCluster, hc]
  simp only [if_neg (show ¬c = 0 by omega), hw, hdir, Option.bind_eq_bind, Option.bind_some]
  exact ⟨_, rfl⟩

theorem writeFile_small (hc : freeCluster v d = some c) (hs : 0 < v.sectorsPerCluster)
    (hsize : size < 4294967296) (h : fat16WriteFile v name data size d = some (true, d')) :
    size < 2147483648 := by
  by_contra hbig
  have h2 := (freeCluster_spec hc).1.ge
  rw [fat16WriteFile, fat16AllocCluster, hc] at h
  simp only [if_neg (show ¬c = 0 by omega)] at h
  obtain ⟨d₂, hw, -⟩ := Option.bind_eq_some_iff.mp h
  rw [writeCluster_none v data _ hs (by omega) hsize] at hw
  cases hw

/-- The slots that differ after the call are the one that was free. -/
theorem Created.newEntryAt {s : Nat} {e : Fat16Entry} (h : Created v d n c data size d')
    (he : NewEntryAt v d d' s e) : freeSlot v d = some s ∧ e = newEntry n c size := by
  have hroot := h.root
  have hslot := he.slot
  have hchanged := he.changed
  cases hfs : freeSlot v d with
  | none =>
    rw [hfs] at hroot
    rw [hroot] at hslot
    exact absurd hslot hchanged
  | some t =>
    rw [hfs] at hroot
    rw [hroot, List.getElem?_set] at hslot
    split at hslot
    · rename_i hts
      split at hslot
      · exact ⟨congrArg some hts, (Option.some.inj hslot).symm⟩
      · cases hslot
    · exact absurd hslot hchanged

theorem newEntry_free (hn : fat16FormatName name = some n) :
    isFreeSlot (newEntry n c size) = false ↔ n.name 0 ≠ deleted := by
  have h0 : n.name 0 ≠ 0 := (formatName_ne_zero hn 0).1
  rw [← Bool.not_eq_true, isFreeSlot_iff, newEntry_first]
  simp [h0]

theorem Created.oneNewEntry (h : Created v d n c data size d')
    (hn : fat16FormatName name = some n) {s : Nat} (hs : freeSlot v d = some s) :
    OneNewEntry v d d' ↔ n.name 0 ≠ deleted := by
  constructor
  · rintro ⟨t, e, -, he, -⟩
    obtain ⟨-, rfl⟩ := h.newEntryAt he
    exact (newEntry_free hn).mp he.used
  · intro hdel
    have hroot := h.root
    rw [hs] at hroot
    obtain ⟨hlt, x, post, hx, hsplit, -⟩ := findIdx?_split hs
    have hused : isFreeSlot (newEntry n c size) = false := (newEntry_free hn).mpr hdel
    have hold : ∃ e, (rootSlots v d)[s]? = some e ∧ isFreeSlot e = true := by
      obtain ⟨hlt', hp, -⟩ := List.findIdx?_eq_some_iff_getElem.mp hs
      exact ⟨_, List.getElem?_eq_getElem hlt', hp⟩
    have hat : NewEntryAt v d d' s (newEntry n c size) := by
      refine ⟨?_, hused, fun hsame => ?_⟩
      · rw [hroot]
        exact List.getElem?_set_self hlt
      · obtain ⟨e, he, hfree⟩ := hold
        cases he.symm.trans hsame
        exact absurd hfree (by rw [hused]; decide)
    have hstart : Fat16Entry.startCluster (newEntry n c size) = c :=
      newEntry_startCluster h.cluster.lt16
    refine ⟨s, _, [c], hat, fun s' e' he' => ?_, ?_, fun x hx => ?_⟩
    · exact Option.some.inj ((h.newEntryAt he').1.symm.trans hs)
    · rw [hstart]
      exact .last h.cluster (by rw [h.fat c h.cluster.inFat, if_pos rfl])
    · rw [List.mem_singleton.mp hx]
      exact h.free

/- Empty files "A" to "P": all sixteen slots are taken, no cluster is. -/
def crowdedRoot : Sector := fun j =>
  if j % entrySize = 0 then UInt8.ofNat (65 + j / entrySize)
  else if j % entrySize < 11 then space
  else if j % entrySize = 11 then 0x20
  else 0

def crowdedDisk : Disk := fun l => if l = 2050 then crowdedRoot else emptyDisk l

end AdamOS.Fat16
