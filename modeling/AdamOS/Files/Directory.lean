import AdamOS.Files.Volume
import Mathlib.Data.List.TakeWhile

/-! A directory is its list of live entries: what a name finds in it, and the entry that
fat16_create_dir_entry puts into the first free slot. -/
namespace AdamOS.Fat16
open AdamOS.Word

/-! ### Directories -/

def live : List Fat16Entry → List Fat16Entry
  | [] => []
  | e :: es => if e 0 = 0 then [] else if e 0 = deleted then live es else e :: live es

theorem findSlot_eq (n : ShortName) (es : List Fat16Entry) :
    findSlot n es = (live es).find? n.names := by
  induction es with
  | nil => rfl
  | cons e es ih =>
    rw [findSlot, live]
    by_cases h0 : e 0 = 0
    · rw [if_pos h0, if_pos h0]; rfl
    · rw [if_neg h0, if_neg h0]
      by_cases h5 : e 0 = deleted
      · rw [if_pos h5, if_pos h5, ih]
      · rw [if_neg h5, if_neg h5, List.find?_cons]
        cases n.names e with
        | true => rfl
        | false => exact ih

theorem isFreeSlot_iff {e : Fat16Entry} : isFreeSlot e = true ↔ e 0 = 0 ∨ e 0 = deleted := by
  simp [isFreeSlot]

theorem live_cons {e : Fat16Entry} (h : isFreeSlot e = false) (es : List Fat16Entry) :
    live (e :: es) = e :: live es := by
  have hn : ¬(e 0 = 0 ∨ e 0 = deleted) := by rw [← isFreeSlot_iff, h]; exact Bool.false_ne_true
  rw [live, if_neg fun h0 => hn (.inl h0), if_neg fun h5 => hn (.inr h5)]

theorem live_append {es : List Fat16Entry} (h : ∀ e ∈ es, isFreeSlot e = false)
    (fs : List Fat16Entry) : live (es ++ fs) = es ++ live fs := by
  induction es with
  | nil => rfl
  | cons e es ih =>
    rw [List.cons_append, live_cons (h e List.mem_cons_self), List.cons_append,
      ih fun e' he' => h e' (List.mem_cons_of_mem _ he')]

theorem mem_live {e : Fat16Entry} {es : List Fat16Entry} (h : e ∈ live es) :
    e ∈ es ∧ isFreeSlot e = false := by
  induction es with
  | nil => cases h
  | cons x es ih =>
    cases hx : isFreeSlot x with
    | false =>
      rw [live_cons hx] at h
      cases List.mem_cons.mp h with
      | inl he => exact ⟨he ▸ List.mem_cons_self, he ▸ hx⟩
      | inr he => exact ⟨List.mem_cons_of_mem _ (ih he).1, (ih he).2⟩
    | true =>
      rw [live] at h
      split at h
      · cases h
      · split at h
        · exact ⟨List.mem_cons_of_mem _ (ih h).1, (ih h).2⟩
        · rename_i h0 h5
          exact absurd (isFreeSlot_iff.mp hx) (not_or.mpr ⟨h0, h5⟩)

theorem putSlot_slot {lba s t : Nat} {e : Fat16Entry} (d : Disk)
    (hs : lba + s / slotsPerSector < 268435456) (ht : lba + t / slotsPerSector < 268435456)
    (he : ∀ k, entrySize ≤ k → e k = 0) :
    dirSlot (putSlot lba s e d) lba t = if t = s then e else dirSlot d lba t := by
  funext k
  by_cases hsec : t / slotsPerSector = s / slotsPerSector
  · by_cases hts : t = s
    · subst hts
      rw [if_pos rfl, dirSlot, putSlot, ataRead_write_self]
      by_cases hk : k < entrySize
      · rw [if_pos hk, if_pos ⟨Nat.le_add_right _ _, Nat.add_lt_add_left hk _⟩, Nat.add_sub_cancel_left]
      · rw [if_neg hk, he k (Nat.le_of_not_lt hk)]
    · -- two slots of one sector
      have hmod : t % slotsPerSector ≠ s % slotsPerSector := fun hm =>
        hts (by rw [← Nat.div_add_mod t slotsPerSector, hsec, hm, Nat.div_add_mod])
      rw [if_neg hts, dirSlot, dirSlot, putSlot, hsec, ataRead_write_self]
      by_cases hk : k < entrySize
      · rw [if_pos hk, if_pos hk, if_neg]
        simp only [entrySize, slotsPerSector] at *
        omega
      · rw [if_neg hk, if_neg hk]
  · have hts : t ≠ s := fun h => hsec (h ▸ rfl)
    rw [if_neg hts, dirSlot, dirSlot, putSlot, ataRead_write_ne]
    rw [ataLba_eq hs, ataLba_eq ht]
    omega

theorem rootSlots_length (v : Volume) (d : Disk) :
    (rootSlots v d).length = v.rootDirSectors * slotsPerSector := by
  rw [rootSlots, dirSlots, List.length_map, List.length_range]

theorem rootSlots_getElem? (v : Volume) (d : Disk) {s : Nat}
    (h : s < v.rootDirSectors * slotsPerSector) :
    (rootSlots v d)[s]? = some (dirSlot d v.rootDirStartLba s) := by
  rw [rootSlots, dirSlots, List.getElem?_map, List.getElem?_range h]
  rfl

theorem rootSlot_lt (v : Volume) {s : Nat} (h : s < v.rootDirSectors * slotsPerSector) :
    v.rootDirStartLba + s / slotsPerSector < v.dataStartLba := by
  have := Nat.div_lt_of_lt_mul (Nat.mul_comm _ _ ▸ h)
  rw [Volume.dataStartLba]
  omega

/-- Writing a slot replaces one entry of the root directory. -/
theorem rootSlots_putSlot (v : Volume) (d : Disk) {s : Nat} {e : Fat16Entry}
    (h : s < v.rootDirSectors * slotsPerSector) (he : ∀ k, entrySize ≤ k → e k = 0) :
    rootSlots v (putSlot v.rootDirStartLba s e d) = (rootSlots v d).set s e := by
  have hd := v.dataStartLba_lt
  refine List.ext_getElem? fun t => ?_
  by_cases ht : t < v.rootDirSectors * slotsPerSector
  · have hst := rootSlot_lt v h
    have htt := rootSlot_lt v ht
    rw [rootSlots_getElem? v _ ht, putSlot_slot d (by omega) (by omega) he, List.getElem?_set,
      rootSlots_length, rootSlots_getElem? v d ht]
    by_cases hts : t = s
    · rw [if_pos hts, if_pos hts.symm, if_pos (hts ▸ ht)]
    · rw [if_neg hts, if_neg (Ne.symm hts)]
  · rw [List.getElem?_eq_none (by rw [rootSlots_length]; omega),
      List.getElem?_eq_none (by rw [List.length_set, rootSlots_length]; omega)]

/-! ### What lies outside the sectors written -/

theorem putSlot_frame {lba s l : Nat} (e : Fat16Entry) (d : Disk)
    (hs : lba + s / slotsPerSector < 268435456) (h : l ≠ lba + s / slotsPerSector) :
    putSlot lba s e d l = d l := if_neg (by rw [ataLba_eq hs]; exact h)

theorem rootSlots_congr {v : Volume} {d d' : Disk}
    (h : ∀ l, v.rootDirStartLba ≤ l → l < v.dataStartLba → d' l = d l) :
    rootSlots v d' = rootSlots v d := by
  refine List.map_congr_left fun s hs => ?_
  have hlt := rootSlot_lt v (List.mem_range.mp hs)
  have hd := v.dataStartLba_lt
  funext k
  rw [dirSlot, dirSlot, ataReadSector, ataReadSector, ataLba_eq (by omega),
    h _ (Nat.le_add_right _ _) hlt]

def taken (v : Volume) (d : Disk) : List Fat16Entry :=
  (rootSlots v d).takeWhile fun e => !isFreeSlot e

theorem findIdx?_split {α : Type*} {p : α → Bool} {xs : List α} {s : Nat}
    (h : xs.findIdx? p = some s) : s < xs.length ∧ ∃ x post, p x = true ∧
      xs = xs.takeWhile (fun e => !p e) ++ x :: post ∧
      ∀ y, xs.set s y = xs.takeWhile (fun e => !p e) ++ y :: post := by
  induction xs generalizing s with
  | nil => cases h
  | cons a as ih =>
    rw [List.findIdx?_cons] at h
    cases ha : p a with
    | true =>
      rw [ha, if_pos rfl] at h
      cases h
      exact ⟨Nat.succ_pos _, a, as, ha, by simp [ha], fun y => by simp [ha]⟩
    | false =>
      rw [ha, if_neg Bool.false_ne_true] at h
      obtain ⟨t, ht, rfl⟩ := Option.map_eq_some_iff.mp h
      obtain ⟨hlt, x, post, hx, he, hset⟩ := ih ht
      refine ⟨Nat.succ_lt_succ hlt, x, post, hx, ?_, fun y => ?_⟩
      · rw [List.takeWhile_cons, ha, Bool.not_false, if_pos rfl, List.cons_append, ← he]
      · rw [List.takeWhile_cons, ha, Bool.not_false, if_pos rfl, List.set_cons_succ, hset y,
          List.cons_append]

theorem mem_taken {v : Volume} {d : Disk} {e : Fat16Entry} (h : e ∈ taken v d) :
    isFreeSlot e = false := by
  simpa using List.mem_takeWhile_imp h

theorem taken_full {v : Volume} {d : Disk} (h : freeSlot v d = none) :
    taken v d = rootSlots v d := by
  rw [freeSlot, List.findIdx?_eq_none_iff] at h
  exact List.takeWhile_eq_self_iff.mpr fun e he => by rw [h e he, Bool.not_false]

theorem taken_live {v : Volume} {d : Disk} {e : Fat16Entry} (h : e ∈ taken v d) :
    e ∈ live (rootSlots v d) := by
  cases hf : freeSlot v d with
  | none =>
    rw [← taken_full hf, ← List.append_nil (taken v d), live_append fun _ => mem_taken]
    exact List.mem_append_left _ h
  | some s =>
    obtain ⟨-, x, post, -, he, -⟩ := findIdx?_split hf
    have hl : live (rootSlots v d) = taken v d ++ live (x :: post) :=
      (congrArg live he).trans (live_append (fun _ => mem_taken) _)
    exact hl ▸ List.mem_append_left _ h

/-! ### Names -/

theorem toUpper_ne_zero {c : UInt8} (h : c ≠ 0) : toUpper c ≠ 0 := by
  unfold toUpper
  split
  · rename_i hc
    intro h0
    have h1 : c.toNat - 32 = 0 := by
      have := congrArg UInt8.toNat h0
      rw [UInt8.toNat_sub_of_le _ _ (UInt8.le_trans (by decide) hc.1)] at this
      exact this
    have h2 : 97 ≤ c.toNat := UInt8.le_iff_toNat_le.mp hc.1
    omega
  · exact h

theorem padField_ne_zero {s : List UInt8} (h : ∀ c ∈ s, c ≠ 0) (i : Nat) : padField s i ≠ 0 := by
  unfold padField
  split
  · rename_i c hc
    exact toUpper_ne_zero (h c (List.mem_of_getElem? hc))
  · decide

theorem strtok_chars {delim : UInt8} {s : List UInt8} (h : ∀ c ∈ s, c ≠ 0) :
    (∀ c ∈ (strtok delim s).1, c ≠ 0) ∧ ∀ c ∈ (strtok delim s).2, c ≠ 0 := by
  have hd : ∀ c ∈ s.dropWhile (· == delim), c ≠ 0 :=
    fun c hc => h c ((List.dropWhile_suffix _).subset hc)
  refine ⟨fun c hc => hd c ((List.takeWhile_prefix _).subset hc), fun c hc => ?_⟩
  exact hd c ((List.dropWhile_suffix _).subset (List.mem_of_mem_tail hc))

theorem formatName_ne_zero {input : CString} {n : ShortName}
    (h : fat16FormatName input = some n) (i : Nat) : n.name i ≠ 0 ∧ n.ext i ≠ 0 := by
  unfold fat16FormatName at h
  dsimp only at h
  split at h
  · cases h
    have h1 : (∀ c ∈ (strtok dot input.chars).1, c ≠ 0) ∧ ∀ c ∈ (strtok dot input.chars).2, c ≠ 0 :=
      strtok_chars input.noNul
    exact ⟨padField_ne_zero h1.1 i, padField_ne_zero (strtok_chars h1.2).1 i⟩
  · cases h

theorem names_first {n : ShortName} {e : Fat16Entry} (h : n.names e = true) : n.name 0 = e 0 := by
  simp only [ShortName.names, strncmp, Bool.and_eq_true, List.all_eq_true, List.mem_range,
    beq_iff_eq] at h
  exact (h.1 0 (by decide)).1

/-! ### The new entry -/

theorem byteOf_toNat (n i : Nat) : (byteOf n i).toNat = n / 256 ^ i % 256 := UInt8.toNat_ofNat'

theorem le16_byteOf {s : Nat → UInt8} {i n : Nat} (hn : n < 65536) (h0 : s i = byteOf n 0)
    (h1 : s (i + 1) = byteOf n 1) : le16 s i = n := by
  rw [le16, h0, h1, byteOf_toNat, byteOf_toNat]
  omega

theorem le32_byteOf {s : Nat → UInt8} {i n : Nat} (hn : n < 4294967296) (h0 : s i = byteOf n 0)
    (h1 : s (i + 1) = byteOf n 1) (h2 : s (i + 2) = byteOf n 2) (h3 : s (i + 3) = byteOf n 3) :
    le32 s i = n := by
  rw [le32, le16, le16, h0, h1, h2, h3, byteOf_toNat, byteOf_toNat, byteOf_toNat, byteOf_toNat]
  omega

section NewEntry
variable {n : ShortName} {c size : Nat}

theorem newEntry_first : newEntry n c size 0 = n.name 0 := if_pos (by decide)

theorem newEntry_startCluster (hc : c < 65536) :
    Fat16Entry.startCluster (newEntry n c size) = c := le16_byteOf hc rfl rfl

theorem newEntry_fileSize (hs : size < 4294967296) :
    Fat16Entry.fileSize (newEntry n c size) = size := le32_byteOf hs rfl rfl rfl rfl

theorem newEntry_named (hn : ∀ i, n.name i ≠ 0 ∧ n.ext i ≠ 0) :
    n.names (newEntry n c size) = true := by
  simp only [ShortName.names, strncmp, Bool.and_eq_true, List.all_eq_true, List.mem_range,
    beq_iff_eq, bne_iff_ne]
  refine ⟨fun i hi => ⟨?_, (hn i).1⟩, fun i hi => ⟨?_, (hn i).2⟩⟩
  · rw [newEntry, if_pos hi]
  · rw [newEntry, if_neg (by omega), if_pos (by omega), Nat.add_sub_cancel_left]

theorem newEntry_tail {k : Nat} (h : entrySize ≤ k) :
    newEntry n c size k = 0 := by
  simp only [entrySize] at h
  rw [newEntry, if_neg (by omega), if_neg (by omega), if_neg (by omega), if_neg (by omega),
    if_neg (by omega), if_neg (by simp only [entrySize]; omega)]

end NewEntry

end AdamOS.Fat16
