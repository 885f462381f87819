import AdamOS.Files.Fat16

/-! The sectors of a volume. The FAT, the root directory and the clusters lie apart, so each
operation of fat16.c changes one of them only. -/
namespace AdamOS.Fat16
open AdamOS.Loop AdamOS.Word

/-! ### Sectors -/

theorem ataLba_eq {lba : Nat} (h : lba < 268435456) : ataLba lba = lba := Nat.mod_eq_of_lt h

@[simp] theorem ataRead_write_self (d : Disk) (lba : Nat) (s : Sector) :
    ataReadSector (ataWriteSector lba s d) lba = s := if_pos rfl

theorem ataRead_write_ne (d : Disk) {lba l : Nat} (s : Sector) (h : ataLba l ≠ ataLba lba) :
    ataReadSector (ataWriteSector lba s d) l = ataReadSector d l := if_neg h

namespace Volume
variable (v : Volume)

theorem rootDirSectors_le : v.rootDirSectors ≤ 65535 * 32 := by
  have hy := v.bytesPerSector_pos
  have hx := v.rootEntryCount_lt
  have hle : v.rootDirSectors ≤ v.rootEntryCount * 32 := by
    rw [rootDirSectors, ← Nat.lt_succ_iff, Nat.div_lt_iff_lt_mul hy, Nat.succ_mul]
    have := Nat.le_mul_of_pos_right (v.rootEntryCount * 32) hy
    omega
  omega

theorem dataStartLba_lt : v.dataStartLba < 33554432 := by
  have hr := v.rootDirSectors_le
  have hf : v.numFats * v.sectorsPerFat ≤ 255 * 65535 :=
    Nat.mul_le_mul (Nat.le_of_lt_succ v.numFats_lt) (Nat.le_of_lt_succ v.sectorsPerFat_lt)
  have hs := v.reservedSectors_lt
  simp only [dataStartLba, rootDirStartLba, fatStartLba, fat16StartLba]
  omega

theorem dataStartLba_ge : fat16StartLba ≤ v.dataStartLba := by
  simp only [dataStartLba, rootDirStartLba, fatStartLba]
  omega

/-- Every cluster number names sectors that the bus can address. -/
theorem clusterLba_lt {cluster i : Nat} (hc : cluster < 65536) (hi : i < v.sectorsPerCluster) :
    v.clusterLba cluster + i < 268435456 := by
  have hs := v.sectorsPerCluster_lt
  have hp : cluster * v.sectorsPerCluster ≤ 65535 * 255 :=
    Nat.mul_le_mul (Nat.le_of_lt_succ hc) (Nat.le_of_lt_succ hs)
  have hd := v.dataStartLba_lt
  have hg := v.dataStartLba_ge
  simp only [fat16StartLba] at hg
  rw [clusterLba, sub32_eq (by omega) (by omega)]
  omega

theorem clusterLba_eq {cluster : Nat} (h2 : 2 ≤ cluster) (hc : cluster < 65536) :
    v.clusterLba cluster = v.dataStartLba + (cluster - 2) * v.sectorsPerCluster := by
  have hs := v.sectorsPerCluster_lt
  have hp : cluster * v.sectorsPerCluster ≤ 65535 * 255 :=
    Nat.mul_le_mul (Nat.le_of_lt_succ hc) (Nat.le_of_lt_succ hs)
  have hd := v.dataStartLba_lt
  have hm : 2 * v.sectorsPerCluster ≤ cluster * v.sectorsPerCluster := Nat.mul_le_mul_right _ h2
  rw [clusterLba, sub32_eq (by omega) (by omega), Nat.sub_mul]
  omega

theorem clusterLba_ge {cluster : Nat} (h2 : 2 ≤ cluster) (hc : cluster < 65536) :
    v.dataStartLba ≤ v.clusterLba cluster := by
  rw [v.clusterLba_eq h2 hc]
  omega

theorem clusterLba_apart {c c' i i' : Nat} (h2 : 2 ≤ c) (hc : c < 65536) (h2' : 2 ≤ c')
    (hc' : c' < 65536) (hi : i < v.sectorsPerCluster) (hi' : i' < v.sectorsPerCluster)
    (he : v.clusterLba c + i = v.clusterLba c' + i') : c = c' ∧ i = i' := by
  rw [v.clusterLba_eq h2 hc, v.clusterLba_eq h2' hc'] at he
  have hq : ∀ {a b : Nat}, b < v.sectorsPerCluster →
      (a * v.sectorsPerCluster + b) / v.sectorsPerCluster = a := fun {a b} hb => by
    rw [Nat.add_comm, Nat.add_mul_div_right _ _ (by omega), Nat.div_eq_of_lt hb, Nat.zero_add]
  have h1 := hq (a := c - 2) hi
  have h1' := hq (a := c' - 2) hi'
  have hsum : (c - 2) * v.sectorsPerCluster + i = (c' - 2) * v.sectorsPerCluster + i' := by omega
  rw [hsum, h1'] at h1
  have hcc : c = c' := by omega
  subst hcc
  exact ⟨rfl, by omega⟩

end Volume

/-! ### The sectors of one cluster -/

theorem min32_eq {x y : Nat} (hx : x < 2147483648) (hy : y < 2147483648) : min32 x y = min x y := by
  rw [min32, toInt32_eq hx, toInt32_eq hy, wrap_eq (by omega), wrap_eq (by omega)]
  split <;> omega

/-- A length that is negative as an int asks memcpy for more than the sector buffer. -/
theorem min32_large {x y : Nat} (hx : 2147483648 ≤ x) (hx' : x < 4294967296)
    (hy : y < 2147483648) : min32 x y = x := by
  have hneg : toInt32 x < toInt32 y := by
    have h0 := toInt32_neg hx hx'
    rw [toInt32_eq hy]
    omega
  rw [min32, if_pos hneg, wrap_eq hx']

def padded (n : Nat) (buf : Nat → UInt8) (i : Nat) : Sector :=
  fun j => if j < min (n - i * sectorSize) sectorSize then buf (i * sectorSize + j) else 0

theorem paddedSector_eq {n : Nat} (hn : n < 2147483648) (buf : Nat → UInt8) (i : Nat) :
    paddedSector n buf i = some (padded n buf i) := by
  have hmin : min32 (n - i * sectorSize) sectorSize = min (n - i * sectorSize) sectorSize :=
    min32_eq (by omega) (by decide)
  rw [paddedSector, hmin, if_pos (Nat.min_le_right _ _)]
  rfl

theorem paddedSector_none {n : Nat} (hn : 2147483648 ≤ n) (hn' : n < 4294967296)
    (buf : Nat → UInt8) : paddedSector n buf 0 = none := by
  rw [paddedSector, Nat.zero_mul, Nat.sub_zero, min32_large hn hn' (by decide), if_neg]
  simp only [sectorSize]
  omega

structure ClusterWritten (v : Volume) (lba n : Nat) (buf : Nat → UInt8) (d d' : Disk) : Prop where
  written : ∀ i < v.sectorsPerCluster, ataReadSector d' (lba + i) = padded n buf i
  others : ∀ l, (∀ i < v.sectorsPerCluster, l ≠ lba + i) → d' l = d l

theorem writeCluster_spec (v : Volume) {lba n : Nat} (buf : Nat → UInt8) (d : Disk)
    (hlba : ∀ i < v.sectorsPerCluster, lba + i < 268435456) (hn : n < 2147483648) :
    ∃ d', writeCluster v lba n buf d = some d' ∧ ClusterWritten v lba n buf d d' := by
  -- after i rounds the first i sectors are written
  let inv (i : Nat) (r : Option Disk) : Prop := ∃ d', r = some d' ∧
    (∀ k < i, ataReadSector d' (lba + k) = padded n buf k) ∧
    ∀ l, (∀ k < i, l ≠ lba + k) → d' l = d l
  have hinv : inv v.sectorsPerCluster (writeCluster v lba n buf d) := by
    refine loop_invariant inv ⟨d, rfl, fun k hk => absurd hk (Nat.not_lt_zero k), fun _ _ => rfl⟩ ?_
    rintro i hi r ⟨d', rfl, hw, ho⟩
    refine ⟨ataWriteSector (lba + i) (padded n buf i) d', ?_, fun k hk => ?_, fun l hl' => ?_⟩
    · simp only [Option.bind_some, paddedSector_eq hn, Option.map_some]
    · by_cases hki : k = i
      · subst hki
        exact ataRead_write_self ..
      · have hne : ataLba (lba + k) ≠ ataLba (lba + i) := by
          rw [ataLba_eq (hlba k (by omega)), ataLba_eq (hlba i hi)]
          omega
        rw [ataRead_write_ne _ _ hne]
        exact hw k (by omega)
    · have hne : l ≠ ataLba (lba + i) := by
        rw [ataLba_eq (hlba i hi)]
        exact hl' i (Nat.lt_succ_self i)
      exact (if_neg hne).trans (ho l fun k hk => hl' k (by omega))
  obtain ⟨d', he, hw, ho⟩ := hinv
  exact ⟨d', he, hw, ho⟩

/-- A buffer of 2^31 bytes or more overflows the first sector. -/
theorem writeCluster_none (v : Volume) {lba n : Nat} (buf : Nat → UInt8) (d : Disk)
    (hs : 0 < v.sectorsPerCluster) (hn : 2147483648 ≤ n) (hn' : n < 4294967296) :
    writeCluster v lba n buf d = none := by
  have hnone : ∀ k, loop k (fun i r => Option.bind r fun d =>
      (paddedSector n buf (i + 1)).map fun s => ataWriteSector (lba + (i + 1)) s d) none = none := by
    intro k
    induction k with
    | zero => rfl
    | succ k ih => rw [loop_succ, ih, Option.bind_none]
  obtain ⟨k, hk⟩ := Nat.exists_eq_succ_of_ne_zero (Nat.pos_iff_ne_zero.mp hs)
  rw [writeCluster, hk, loop_first, Option.bind_some, paddedSector_none hn hn', Option.map_none]
  exact hnone k

/-! ### What reading a cluster gives -/

theorem flatMap_range {α : Type*} (f : Nat → Nat → α) {b : Nat} (hb : 0 < b) (a : Nat) :
    ((List.range a).flatMap fun i => (List.range b).map (f i)) =
      (List.range (a * b)).map fun k => f (k / b) (k % b) := by
  induction a with
  | zero => rw [Nat.zero_mul]; rfl
  | succ a ih =>
    rw [List.range_succ, List.flatMap_append, ih, Nat.succ_mul, List.range_add, List.map_append,
      List.flatMap_singleton, List.map_map]
    congr 1
    refine List.map_congr_left fun k hk => ?_
    have hkb : k < b := List.mem_range.mp hk
    have hdiv : (a * b + k) / b = a := by
      rw [Nat.add_comm, Nat.add_mul_div_right _ _ hb, Nat.div_eq_of_lt hkb, Nat.zero_add]
    have hmod : (a * b + k) % b = k := by
      rw [Nat.add_comm, Nat.add_mul_mod_self_right, Nat.mod_eq_of_lt hkb]
    simp only [Function.comp_apply, hdiv, hmod]

theorem readCluster_eq (v : Volume) (d : Disk) (c : Nat) :
    readCluster v d c = (List.range v.clusterBytes).map fun k =>
      ataReadSector d (v.clusterLba c + k / sectorSize) (k % sectorSize) :=
  flatMap_range (fun i => ataReadSector d (v.clusterLba c + i)) (by decide) v.sectorsPerCluster

@[simp] theorem readCluster_length (v : Volume) (d : Disk) (c : Nat) :
    (readCluster v d c).length = v.clusterBytes := by
  rw [readCluster_eq, List.length_map, List.length_range]

/-- A written cluster reads back as the buffer followed by zeros. -/
theorem ClusterWritten.read {v : Volume} {c n : Nat} {buf : Nat → UInt8} {d d' : Disk}
    (h : ClusterWritten v (v.clusterLba c) n buf d d') : readCluster v d' c =
      (List.range v.clusterBytes).map fun k => if k < n then buf k else 0 := by
  rw [readCluster_eq]
  refine List.map_congr_left fun k hk => ?_
  have hk : k < v.sectorsPerCluster * sectorSize := List.mem_range.mp hk
  have hi : k / sectorSize < v.sectorsPerCluster := Nat.div_lt_of_lt_mul (Nat.mul_comm _ _ ▸ hk)
  rw [h.written _ hi, padded]
  have hsplit : k / sectorSize * sectorSize + k % sectorSize = k := Nat.div_add_mod' k sectorSize
  have hlt : k % sectorSize < sectorSize := Nat.mod_lt k (by decide)
  rw [hsplit]
  have hiff : k % sectorSize < min (n - k / sectorSize * sectorSize) sectorSize ↔ k < n := by omega
  simp only [hiff]

/-- Clusters whose sectors did not change read as before. -/
theorem readCluster_congr {v : Volume} {d d' : Disk} {c : Nat} (hc : c < 65536)
    (h : ∀ i < v.sectorsPerCluster, d' (v.clusterLba c + i) = d (v.clusterLba c + i)) :
    readCluster v d' c = readCluster v d c := by
  refine List.flatMap_congr fun i hi => ?_
  have hi : i < v.sectorsPerCluster := List.mem_range.mp hi
  rw [sectorBytes, sectorBytes, ataReadSector, ataReadSector, ataLba_eq (v.clusterLba_lt hc hi), h i hi]

end AdamOS.Fat16
