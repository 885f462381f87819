import AdamOS.Files.Descriptors

/-! What fat16_read_folder lists. open gives it a buffer of one cluster: the root directory may
hold more, and of a folder it reads the first cluster alone. -/
namespace AdamOS.Fat16
open AdamOS.Files AdamOS.Word

/- The entries before the first one that is 0x00, without those deleted. -/
def listed (es : List Fat16Entry) : List Fat16Entry :=
  (es.takeWhile fun e => e 0 != 0).filter fun e => e 0 != deleted

def entryBytes (e : Fat16Entry) : List UInt8 := (List.range entrySize).map e

def clusterSlots (v : Volume) (d : Disk) (c : Nat) : List Fat16Entry :=
  dirSlots d (v.clusterLba c) v.sectorsPerCluster

/- What open can be asked to list: "/", or a folder with the clusters that the FAT links. -/
inductive Directory (v : Volume) (d : Disk) where
  | root (garbage : Fat16Entry)
  | folder (e : Fat16Entry) (clusters : List Nat) (isFolder : isFolder e = true)
      (chain : Chain v d e.startCluster clusters)

namespace Directory
variable {v : Volume} {d : Disk}

def entry : Directory v d → Fat16Entry
  | root garbage => rootEntry garbage
  | folder e _ _ _ => e

def slots : Directory v d → List Fat16Entry
  | root _ => rootSlots v d
  | folder _ clusters _ _ => clusters.flatMap (clusterSlots v d)

/- The listing stays in the block that open allocates and has every entry of the directory. -/
structure ListsInside (D : Directory v d) : Prop where
  fits : (fat16ReadFolder v d D.entry).length ≤ bufferSize v D.entry
  exact : fat16ReadFolder v d D.entry = (listed D.slots).flatMap entryBytes

def RootFits (v : Volume) (d : Disk) : Prop :=
  entrySize * (listed (rootSlots v d)).length ≤ v.clusterBytes

/- The folder ends in its first cluster, or has nothing to list in the others. A folder whose name
   begins with '/' is taken for the root directory. -/
def Listable : Directory v d → Prop
  | root _ => RootFits v d
  | folder e clusters _ _ =>
    if e 0 = slash then
      RootFits v d ∧ (listed (rootSlots v d)).flatMap entryBytes =
        (listed (clusters.flatMap (clusterSlots v d))).flatMap entryBytes
    else
      (∃ s ∈ clusterSlots v d e.startCluster, s 0 = 0) ∨
        listed (clusters.tail.flatMap (clusterSlots v d)) = []

end Directory

section listing
variable {v : Volume} {d : Disk} {es fs : List Fat16Entry}

theorem live_eq (es : List Fat16Entry) : live es = listed es := by
  induction es with
  | nil => rfl
  | cons e es ih =>
    unfold listed at ih ⊢
    rw [live, List.takeWhile_cons]
    by_cases h0 : e 0 = 0
    · rw [if_pos h0, if_neg (fun h => bne_iff_ne.mp h h0)]
      rfl
    · rw [if_neg h0, if_pos (bne_iff_ne.mpr h0), List.filter_cons, ← ih]
      by_cases h5 : e 0 = deleted
      · rw [if_pos h5, if_neg (fun h => bne_iff_ne.mp h h5)]
      · rw [if_neg h5, if_pos (bne_iff_ne.mpr h5)]

theorem collectSlots_eq (es : List Fat16Entry) : collectSlots es = (listed es).flatMap entryBytes := by
  rw [← live_eq]
  induction es with
  | nil => rfl
  | cons e es ih =>
    rw [collectSlots, live]
    split
    · rfl
    · split
      · exact ih
      · rw [List.flatMap_cons, ih]
        rfl

theorem flatMap_entryBytes_length (es : List Fat16Entry) :
    (es.flatMap entryBytes).length = entrySize * es.length := by
  induction es with
  | nil => rfl
  | cons e es ih =>
    rw [List.flatMap_cons, List.length_append, ih, entryBytes, List.length_map, List.length_range,
      List.length_cons, Nat.mul_succ, Nat.add_comm]

theorem listed_length_le (es : List Fat16Entry) : (listed es).length ≤ es.length :=
  Nat.le_trans (List.length_filter_le _ _) (List.takeWhile_sublist _).length_le

theorem listed_append_ended (h : ∃ s ∈ es, s 0 = 0) : listed (es ++ fs) = listed es := by
  unfold listed
  rw [List.takeWhile_append, if_neg]
  intro hlen
  obtain ⟨s, hs, h0⟩ := h
  rw [← (List.takeWhile_prefix _).eq_of_length hlen] at hs
  have hne := List.mem_takeWhile_imp (p := fun e : Fat16Entry => e 0 != 0) hs
  exact bne_iff_ne.mp hne h0

theorem listed_append_open (h : ∀ s ∈ es, s 0 ≠ 0) : listed (es ++ fs) = listed es ++ listed fs := by
  unfold listed
  rw [List.takeWhile_append_of_pos fun s hs => bne_iff_ne.mpr (h s hs), List.filter_append,
    List.takeWhile_eq_self_iff.mpr fun s hs => bne_iff_ne.mpr (h s hs)]

theorem clusterSlots_length (v : Volume) (d : Disk) (c : Nat) :
    (clusterSlots v d c).length = v.sectorsPerCluster * slotsPerSector := by
  rw [clusterSlots, dirSlots, List.length_map, List.length_range]

theorem readFolder_root {e : Fat16Entry} (he : e 0 = slash) :
    fat16ReadFolder v d e = (listed (rootSlots v d)).flatMap entryBytes := by
  rw [fat16ReadFolder, if_pos he, collectSlots_eq]

theorem readFolder_cluster {e : Fat16Entry} (he : e 0 ≠ slash) : fat16ReadFolder v d e =
    (listed (clusterSlots v d e.startCluster)).flatMap entryBytes := by
  rw [fat16ReadFolder, if_neg he, collectSlots_eq, clusterSlots]

/-- One cluster holds no more than a cluster of entries. -/
theorem readFolder_cluster_fits {e : Fat16Entry} (he : e 0 ≠ slash) :
    (fat16ReadFolder v d e).length ≤ v.clusterBytes := by
  have hlen := listed_length_le (clusterSlots v d e.startCluster)
  rw [clusterSlots_length] at hlen
  rw [readFolder_cluster he, flatMap_entryBytes_length]
  simp only [entrySize, slotsPerSector, Volume.clusterBytes, sectorSize] at *
  omega

theorem readFolder_root_fits {e : Fat16Entry} (he : e 0 = slash) :
    (fat16ReadFolder v d e).length ≤ v.clusterBytes ↔ Directory.RootFits v d := by
  rw [readFolder_root he, flatMap_entryBytes_length]
  rfl

theorem bufferSize_folder {e : Fat16Entry} (h : isFolder e = true) : bufferSize v e = v.clusterBytes :=
  if_pos h

theorem isFolder_root (garbage : Fat16Entry) : isFolder (rootEntry garbage) = true :=
  (by decide : ((0x10 : UInt8) &&& 0x10 != 0) = true)

/-- What the further clusters of a folder add to its listing. -/
theorem folder_exact_iff : (listed es).flatMap entryBytes = (listed (es ++ fs)).flatMap entryBytes ↔
    (∃ s ∈ es, s 0 = 0) ∨ listed fs = [] := by
  by_cases hend : ∃ s ∈ es, s 0 = 0
  · rw [listed_append_ended hend]
    exact iff_of_true rfl (.inl hend)
  · rw [or_iff_right hend, listed_append_open fun s hs h0 => hend ⟨s, hs, h0⟩, List.flatMap_append]
    constructor
    · intro h
      have hlen := congrArg List.length h
      rw [List.length_append, flatMap_entryBytes_length (listed fs)] at hlen
      refine List.eq_nil_of_length_eq_zero ?_
      simp only [entrySize] at hlen
      omega
    · intro h
      rw [h, List.flatMap_nil, List.append_nil]

end listing

namespace Directory

/-- open lists a directory in its buffer, and all of it, exactly if the root directory holds no more
than a cluster and a folder no more than its first one. -/
theorem listsInside_iff {v : Volume} {d : Disk} (D : Directory v d) :
    D.ListsInside ↔ D.Listable := by
  cases D with
  | root garbage =>
    have h0 : rootEntry garbage 0 = slash := rfl
    have hb : bufferSize v (rootEntry garbage) = v.clusterBytes := bufferSize_folder (isFolder_root garbage)
    constructor
    · intro h
      have hfits := h.fits
      exact (readFolder_root_fits h0).mp (hb ▸ hfits)
    · intro h
      exact ⟨hb.symm ▸ (readFolder_root_fits h0).mpr h, readFolder_root h0⟩
  | folder e clusters hfolder hchain =>
    have hb : bufferSize v e = v.clusterBytes := bufferSize_folder hfolder
    by_cases h0 : e 0 = slash
    · have hl : (folder e clusters hfolder hchain).Listable = (RootFits v d ∧
          (listed (rootSlots v d)).flatMap entryBytes =
            (listed (clusters.flatMap (clusterSlots v d))).flatMap entryBytes) := if_pos h0
      rw [hl, ← readFolder_root_fits h0, ← readFolder_root h0, ← hb]
      exact ⟨fun h => ⟨h.fits, h.exact⟩, fun h => ⟨h.1, h.2⟩⟩
    · obtain ⟨rest, rfl⟩ := hchain.head
      have hl : (folder e (e.startCluster :: rest) hfolder hchain).Listable =
          ((∃ s ∈ clusterSlots v d e.startCluster, s 0 = 0) ∨
            listed (rest.flatMap (clusterSlots v d)) = []) := if_neg h0
      rw [hl, ← folder_exact_iff, ← List.flatMap_cons, ← readFolder_cluster h0]
      exact ⟨fun h => h.exact, fun h => ⟨hb.symm ▸ readFolder_cluster_fits h0, h⟩⟩

/- Two root sectors of entries "AAAAAAAA.AAA" and clusters of one sector. -/
def wideVolume : Volume := { sampleVolume with rootEntryCount := 32, rootEntryCount_lt := by decide }

/-- The 32 entries of the root directory take two sectors; the buffer has one. -/
theorem wide_root_overflows : ¬∀ v d (D : Directory v d), D.ListsInside := by
  intro h
  have hfits := (h wideVolume (fun _ _ => 65) (.root fun _ => 0)).fits
  exact absurd hfits (by decide +kernel)

end Directory

end AdamOS.Fat16
