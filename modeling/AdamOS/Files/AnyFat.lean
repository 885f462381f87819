import AdamOS.Files.Descriptors
import AdamOS.Lib.Orbit

/-! fat16_read_file on a FAT with anything in it. The loop follows the entries until one of them
marks an end, and it is handed a buffer for the size that the directory entry states. -/
namespace AdamOS.Files
open AdamOS.Fat16 AdamOS.Orbit AdamOS.Word
variable {v : Volume} {d : Disk} {e : Fat16Entry} {c fuel k : Nat} {bytes : List UInt8}

/-- What the loop reads are the clusters in front of the first end mark. -/
theorem readChain_length (h : readChain v d fuel c = some bytes) : ∃ k, k < fuel ∧
    endOfChain ≤ (fatEntry v d)^[k] c ∧ bytes.length = k * v.clusterBytes := by
  induction fuel generalizing c bytes with
  | zero => cases h
  | succ fuel ih =>
    rw [readChain] at h
    split at h
    · obtain ⟨rest, hrest, rfl⟩ := Option.map_eq_some_iff.mp h
      obtain ⟨k, hk, hend, hlen⟩ := ih hrest
      refine ⟨k + 1, Nat.succ_lt_succ hk, hend, ?_⟩
      rw [List.length_append, readCluster_length, hlen, Nat.succ_mul, Nat.add_comm]
    · rename_i hend
      cases h
      exact ⟨0, Nat.succ_pos _, Nat.le_of_not_lt hend, (Nat.zero_mul _).symm⟩

theorem readChain_ends (hk : k < fuel) (hend : endOfChain ≤ (fatEntry v d)^[k] c) :
    ∃ bytes, readChain v d fuel c = some bytes ∧ bytes.length ≤ k * v.clusterBytes := by
  induction fuel generalizing c k with
  | zero => cases hk
  | succ fuel ih =>
    rw [readChain]
    split
    · rename_i hlt
      cases k with
      | zero => exact absurd hend (Nat.not_le.mpr hlt)
      | succ k =>
        obtain ⟨rest, hrest, hlen⟩ := ih (Nat.lt_of_succ_lt_succ hk) hend
        refine ⟨_, by rw [hrest, Option.map_some], ?_⟩
        rw [List.length_append, readCluster_length, Nat.succ_mul, Nat.add_comm]
        exact Nat.add_le_add_right hlen _
    · exact ⟨[], rfl, Nat.zero_le _⟩

/-- The walk over the FAT comes to an end within 2^16 clusters or never. -/
theorem readChain_none : readChain v d 65536 c = none ↔ ∀ k, (fatEntry v d)^[k] c < endOfChain := by
  constructor
  · intro hnone
    refine iterate_lt fun k hk => ?_
    by_contra hend
    have hk : k < 65536 := Nat.lt_of_le_of_lt hk (by decide)
    obtain ⟨bytes, hb, -⟩ := readChain_ends hk (Nat.le_of_not_lt hend)
    rw [hnone] at hb
    cases hb
  · intro hall
    cases hr : readChain v d 65536 c with
    | none => rfl
    | some bytes =>
      obtain ⟨k, -, hend, -⟩ := readChain_length hr
      exact absurd (hall k) (Nat.not_lt.mpr hend)

/- fat16_read_file returns, and what it wrote fits the block that handle_syscall_open asked for. -/
def ReadTolerated (v : Volume) (d : Disk) (e : Fat16Entry) : Prop :=
  ∃ bytes, fat16ReadFile v d e = some bytes ∧ bytes.length ≤ e.fileSize + v.clusterBytes ∧
    bytes.length ≤ wrap (e.fileSize + v.clusterBytes)

/- The chain of the entry reaches an end mark, and its clusters fit the block. -/
def ChainFits (v : Volume) (d : Disk) (e : Fat16Entry) : Prop :=
  ∃ k, endOfChain ≤ (fatEntry v d)^[k + 1] e.startCluster ∧
    (k + 1) * v.clusterBytes ≤ wrap (e.fileSize + v.clusterBytes)

/- The volume of `fileDisk`, the file's only cluster followed by itself. -/
def loopDisk : Disk := fun l j =>
  if l = 2049 ∧ j = 4 then 2 else if l = 2049 ∧ j = 5 then 0 else fileDisk 3 l j

theorem loopDisk_loops (fuel : Nat) : readChain sampleVolume loopDisk fuel 2 = none := by
  have hself : fatEntry sampleVolume loopDisk 2 = 2 := by decide
  induction fuel with
  | zero => rfl
  | succ fuel ih => rw [readChain, if_pos (by decide), hself, ih, Option.map_none]

theorem loopDisk_found (garbage : Fat16Entry) :
    ∃ e, fat16FindFile sampleVolume loopDisk garbage sampleName = some (some e) ∧
      isFolder e = false ∧ e.startCluster = 2 := by
  have hn : fat16FormatName sampleName = some ⟨padField [97], padField []⟩ := rfl
  refine ⟨dirSlot loopDisk 2050 0, ?_, by decide, by decide⟩
  rw [fat16FindFile, if_neg (by decide), hn, Option.map_some]
  congr 1

end AdamOS.Files
