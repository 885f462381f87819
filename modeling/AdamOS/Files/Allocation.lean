import AdamOS.Files.RoundTrip

/-! fat16_alloc_cluster against the volume. The code looks at as many entries as the FAT has sectors
for, counted in 16 bits, and writes the first copy of the FAT alone. -/
namespace AdamOS.Fat16
open AdamOS.Loop AdamOS.Word

def fatCopyEntry (v : Volume) (d : Disk) (k c : Nat) : Nat :=
  le16 (ataReadSector d (v.fatStartLba + k * v.sectorsPerFat + c / 256)) (c % 256 * 2)

/- One of the clusters 2 to N + 1 was free and is now marked in every copy; nothing else changed. -/
structure ClusterAllocated (v : Volume) (N : Nat) (d : Disk) (c : Nat) (d' : Disk) : Prop where
  ge : 2 ≤ c
  le : c ≤ N + 1
  free : fatEntry v d c = 0
  marked : ∀ k < v.numFats, endOfChain ≤ fatCopyEntry v d' k c
  entries : ∀ k < v.numFats, ∀ x, x / 256 < v.sectorsPerFat → x ≠ c →
    fatCopyEntry v d' k x = fatCopyEntry v d k x
  sectors : ∀ l, (∀ k < v.numFats, l ≠ v.fatStartLba + k * v.sectorsPerFat + c / 256) → d' l = d l

/- 0 says that no cluster is free, any other result is a cluster allocated. -/
structure AllocSound (v : Volume) (N : Nat) (d : Disk) : Prop where
  full : (fat16AllocCluster v d).1 = 0 ↔ ∀ c, 2 ≤ c → c ≤ N + 1 → fatEntry v d c ≠ 0
  served : (fat16AllocCluster v d).1 ≠ 0 →
    ClusterAllocated v N d (fat16AllocCluster v d).1 (fat16AllocCluster v d).2

/- The lowest free cluster of the volume lies in the range searched and is marked in the further
   copies already; or, with none free, no entry behind the clusters is 0. -/
def AllocWhen (v : Volume) (N : Nat) (d : Disk) : Prop :=
  match (List.range' 2 N).find? fun c => fatEntry v d c == 0 with
  | some m => m < totalClusters v ∧ ∀ k < v.numFats, 0 < k → endOfChain ≤ fatCopyEntry v d k m
  | none => ∀ c < totalClusters v, N + 2 ≤ c → fatEntry v d c ≠ 0

section alloc
variable {v : Volume} {d : Disk} {N c k x m n : Nat}

theorem fatCopyEntry_zero : fatCopyEntry v d 0 c = fatEntry v d c := by
  rw [fatCopyEntry, Nat.zero_mul, Nat.add_zero, fatEntry, fatSector]

theorem find_free_some : ((List.range' 2 n).find? fun c => fatEntry v d c == 0) = some m ↔
    fatEntry v d m = 0 ∧ (2 ≤ m ∧ m < 2 + n) ∧ ∀ j, 2 ≤ j → j < m → fatEntry v d j ≠ 0 := by
  rw [List.find?_range'_eq_some]
  simp only [beq_iff_eq, List.mem_range'_1, Bool.not_eq_true', beq_eq_false_iff_ne]

theorem find_free_none : ((List.range' 2 n).find? fun c => fatEntry v d c == 0) = none ↔
    ∀ j, 2 ≤ j → j < 2 + n → fatEntry v d j ≠ 0 := by
  rw [List.find?_eq_none]
  simp only [List.mem_range'_1, beq_iff_eq, and_imp]

theorem alloc_some (h : freeCluster v d = some c) : fat16AllocCluster v d = (c, setFat v c d) := by
  rw [fat16AllocCluster, h]

theorem alloc_none (h : freeCluster v d = none) : fat16AllocCluster v d = (0, d) := by
  rw [fat16AllocCluster, h]

theorem alloc_zero : (fat16AllocCluster v d).1 = 0 ↔ freeCluster v d = none := by
  cases hc : freeCluster v d with
  | none => exact iff_of_true (congrArg Prod.fst (alloc_none hc)) rfl
  | some c =>
    have hge := (freeCluster_spec hc).1.ge
    rw [alloc_some hc]
    refine iff_of_false (fun h => ?_) (by simp)
    dsimp only at h
    omega

theorem copySector_lt (hk : k < v.numFats) (hx : x / 256 < v.sectorsPerFat) :
    v.fatStartLba + k * v.sectorsPerFat + x / 256 < 268435456 := by
  have hd := v.dataStartLba_lt
  have hr := rootDirStartLba_le v
  have hm : (k + 1) * v.sectorsPerFat ≤ v.numFats * v.sectorsPerFat := Nat.mul_le_mul_right _ hk
  rw [Nat.succ_mul] at hm
  rw [Volume.rootDirStartLba] at hr
  omega

theorem setFat_copy (hk : k < v.numFats) (h0 : 0 < k) (hc : c / 256 < v.sectorsPerFat)
    (hx : x / 256 < v.sectorsPerFat) :
    fatCopyEntry v (setFat v c d) k x = fatCopyEntry v d k x := by
  have hlx := copySector_lt hk hx
  have hlc := copySector_lt (Nat.lt_trans h0 hk) hc
  rw [Nat.zero_mul, Nat.add_zero] at hlc
  have hm : v.sectorsPerFat ≤ k * v.sectorsPerFat := Nat.le_mul_of_pos_left _ h0
  have hne : ataLba (v.fatStartLba + k * v.sectorsPerFat + x / 256) ≠ ataLba (fatSector v c) := by
    rw [ataLba_eq hlx, fatSector, ataLba_eq hlc]
    omega
  rw [fatCopyEntry, fatCopyEntry, setFat, ataRead_write_ne _ _ hne]

/-- Marking cluster c allocates it if the further copies had it marked. -/
theorem setFat_allocated_iff (hf : 0 < v.numFats) (h2 : 2 ≤ c) (hle : c ≤ N + 1)
    (hc : c / 256 < v.sectorsPerFat) (hfree : fatEntry v d c = 0) :
    ClusterAllocated v N d c (setFat v c d) ↔
      ∀ k < v.numFats, 0 < k → endOfChain ≤ fatCopyEntry v d k c := by
  constructor
  · intro h k hk h0
    rw [← setFat_copy hk h0 hc hc]
    exact h.marked k hk
  · intro h
    refine ⟨h2, hle, hfree, fun k hk => ?_, fun k hk x hx hne => ?_, fun l hl => ?_⟩
    · rcases Nat.eq_zero_or_pos k with rfl | h0
      · rw [fatCopyEntry_zero, fatEntry_setFat d hf hc hc, if_pos rfl]
      · rw [setFat_copy hk h0 hc hc]
        exact h k hk h0
    · rcases Nat.eq_zero_or_pos k with rfl | h0
      · rw [fatCopyEntry_zero, fatCopyEntry_zero, fatEntry_setFat d hf hc hx, if_neg hne]
      · exact setFat_copy hk h0 hc hx
    · have hlc := copySector_lt hf hc
      have hlne := hl 0 hf
      rw [Nat.zero_mul, Nat.add_zero] at hlc hlne
      exact setFat_frame d hlc hlne

/-- With no cluster free the result is 0 exactly if no entry of the search is 0 either. -/
theorem alloc_full_iff (hfull : ∀ c, 2 ≤ c → c ≤ N + 1 → fatEntry v d c ≠ 0) :
    AllocSound v N d ↔ ∀ c < totalClusters v, N + 2 ≤ c → fatEntry v d c ≠ 0 := by
  constructor
  · intro h c hc hN
    have hnone := alloc_zero.mp (h.full.mpr hfull)
    exact find_free_none.mp hnone c (by omega) (by omega)
  · intro h
    have hzero : (fat16AllocCluster v d).1 = 0 := by
      refine alloc_zero.mpr (find_free_none.mpr fun c h2 hc => ?_)
      by_cases hle : c ≤ N + 1
      · exact hfull c h2 hle
      · exact h c (by omega) (by omega)
    exact ⟨iff_of_true hzero hfull, fun hne => absurd hzero hne⟩

/-- With a cluster free the lowest one is found if it lies in the range searched, and marked in the
first copy. -/
theorem alloc_free_iff (hf : 0 < v.numFats) (hN : N + 2 ≤ v.sectorsPerFat * 256)
    (hfree : fatEntry v d m = 0) (h2 : 2 ≤ m) (hle : m ≤ N + 1)
    (hleast : ∀ j, 2 ≤ j → j < m → fatEntry v d j ≠ 0) :
    AllocSound v N d ↔
      m < totalClusters v ∧ ∀ k < v.numFats, 0 < k → endOfChain ≤ fatCopyEntry v d k m := by
  have hsector : m / 256 < v.sectorsPerFat := by omega
  have hfound : m < totalClusters v → freeCluster v d = some m :=
    fun hlt => find_free_some.mpr ⟨hfree, ⟨h2, by omega⟩, hleast⟩
  constructor
  · intro h
    have hne : (fat16AllocCluster v d).1 ≠ 0 := fun hzero => h.full.mp hzero m h2 hle hfree
    have hserved := h.served hne
    cases hc : freeCluster v d with
    | none => exact absurd (alloc_zero.mpr hc) hne
    | some c =>
      obtain ⟨hc0, ⟨hc2, hct⟩, hcleast⟩ := find_free_some.mp hc
      obtain rfl : c = m := by
        rcases Nat.lt_trichotomy c m with hlt | he | hgt
        · exact absurd hc0 (hleast c hc2 hlt)
        · exact he
        · exact absurd hfree (hcleast m h2 hgt)
      rw [alloc_some hc] at hserved
      exact ⟨by omega, (setFat_allocated_iff hf h2 hle hsector hfree).mp hserved⟩
  · rintro ⟨hlt, hmarked⟩
    have halloc := alloc_some (hfound hlt)
    refine ⟨iff_of_false ?_ fun hfull => hfull m h2 hle hfree, fun _ => ?_⟩
    · rw [halloc]
      exact Nat.ne_of_gt (Nat.lt_of_lt_of_le (by decide) h2)
    · rw [halloc]
      exact (setFat_allocated_iff hf h2 hle hsector hfree).mpr hmarked

/-- fat16_alloc_cluster is sound and complete exactly if the search ends with the clusters and the
further copies of the FAT are marked. -/
theorem alloc_sound_iff (hf : 0 < v.numFats) (hN : N + 2 ≤ v.sectorsPerFat * 256) :
    AllocSound v N d ↔ AllocWhen v N d := by
  unfold AllocWhen
  cases hm : (List.range' 2 N).find? fun c => fatEntry v d c == 0 with
  | none => exact alloc_full_iff fun c h2 hle => find_free_none.mp hm c h2 (by omega)
  | some m =>
    obtain ⟨hfree, ⟨h2, hle⟩, hleast⟩ := find_free_some.mp hm
    exact alloc_free_iff hf hN hfree h2 (by omega) hleast

end alloc

theorem sample_alloc_sound : AllocSound sampleVolume 254 emptyDisk := by
  have hfind : ((List.range' 2 254).find? fun c => fatEntry sampleVolume emptyDisk c == 0) = some 2 := by
    decide +kernel
  refine (alloc_sound_iff (by decide) (by decide)).mpr ?_
  rw [AllocWhen, hfind]
  exact ⟨by decide, fun k hk h0 => absurd hk (Nat.not_lt.mpr h0)⟩

def largeVolume : Volume := { sampleVolume with sectorsPerFat := 256, sectorsPerFat_lt := by decide }

/-- 65536 entries are none in 16 bits: no cluster of an empty volume is found. -/
theorem large_fat_full : ¬∀ v N d, 0 < v.numFats → N + 2 ≤ v.sectorsPerFat * 256 → AllocSound v N d := by
  intro h
  have hfull := (h largeVolume 65524 emptyDisk (by decide) (by decide)).full
  have hzero : (fat16AllocCluster largeVolume emptyDisk).1 = 0 := by decide +kernel
  exact hfull.mp hzero 2 (by decide) (by decide) (by decide +kernel)

end AdamOS.Fat16
