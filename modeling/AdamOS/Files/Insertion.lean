import AdamOS.Files.FormatName
import AdamOS.Files.Listing
import AdamOS.Files.RoundTrip

/-! fat16_create_dir_entry on the root directory as a list: an entry is put where a slot was free,
and the insertion, the listing and the search agree on what the directory holds. -/
namespace AdamOS.Fat16
open AdamOS.Word

def ZeroTail (es : List Fat16Entry) : Prop := es.Pairwise fun e f => e 0 = 0 → f 0 = 0

def Has83 (n : ShortName) (e : Fat16Entry) : Prop :=
  (∀ k < 8, e k = n.name k) ∧ ∀ k < 3, e (8 + k) = n.ext k

instance (n : ShortName) (e : Fat16Entry) : Decidable (Has83 n e) := inferInstanceAs (Decidable (_ ∧ _))

structure Describes83 (n : ShortName) (cluster size : Nat) (e : Fat16Entry) : Prop where
  name : Has83 n e
  attributes : Fat16Entry.attributes e = 0x20
  startCluster : Fat16Entry.startCluster e = cluster
  fileSize : Fat16Entry.fileSize e = size

/- Slot s takes the new entry. What was listed before and after that slot still is, the shape of
   the directory is kept, and the name finds the first entry listed under it. -/
structure Inserted (v : Volume) (d d' : Disk) (name : CString) (n : ShortName) (s : Nat)
    (e : Fat16Entry) : Prop where
  used : (rootSlots v d)[s]?.any isFreeSlot = true
  slots : rootSlots v d' = (rootSlots v d).set s e
  listing : ∀ garbage, ∃ before after,
    before = listed ((rootSlots v d).take s) ∧
    fat16ReadFolder v d (rootEntry garbage) = (before ++ after).flatMap entryBytes ∧
    fat16ReadFolder v d' (rootEntry garbage) = (before ++ e :: after).flatMap entryBytes
  shape : ZeroTail (rootSlots v d')
  found : ∀ garbage, ∃ e', (listed (rootSlots v d')).find? (fun f => decide (Has83 n f)) = some e' ∧
    fat16FindFile v d' garbage name = some (some e')

section insertion
variable {v : Volume} {d d' : Disk} {name : CString} {n : ShortName}
  {es pre post : List Fat16Entry} {e x : Fat16Entry} {c size s : Nat}

/-! ### Names -/

theorem names_iff (hn : ∀ i, n.name i ≠ 0 ∧ n.ext i ≠ 0) : n.names e = true ↔ Has83 n e := by
  simp only [ShortName.names, strncmp, Bool.and_eq_true, List.all_eq_true, List.mem_range, beq_iff_eq,
    bne_iff_ne]
  refine and_congr ?_ ?_
  · exact forall₂_congr fun k _ => ⟨fun h => h.1.symm, fun h => ⟨h.symm, (hn k).1⟩⟩
  · exact forall₂_congr fun k _ => ⟨fun h => h.1.symm, fun h => ⟨h.symm, (hn k).2⟩⟩

theorem newEntry_describes (hc : c < 65536) (hs : size < 4294967296)
    (hn : ∀ i, n.name i ≠ 0 ∧ n.ext i ≠ 0) : Describes83 n c size (newEntry n c size) :=
  ⟨(names_iff hn).mp (newEntry_named hn), rfl, newEntry_startCluster hc, newEntry_fileSize hs⟩

/-! ### The list of slots -/

theorem listed_live (h : ∀ f ∈ pre, isFreeSlot f = false) (es : List Fat16Entry) :
    listed (pre ++ es) = pre ++ listed es := by
  rw [← live_eq, ← live_eq, live_append h]

/-- A free slot is not listed, and with zeros behind it nothing depends on which kind it is. -/
theorem listed_free (hx : isFreeSlot x = true) (hz : ZeroTail (x :: post)) :
    listed (x :: post) = listed post := by
  rw [← live_eq, ← live_eq, live]
  by_cases h0 : x 0 = 0
  · rw [if_pos h0]
    cases post with
    | nil => rfl
    | cons y post => rw [live, if_pos ((List.pairwise_cons.mp hz).1 y List.mem_cons_self h0)]
  · rw [if_neg h0, if_pos ((isFreeSlot_iff.mp hx).resolve_left h0)]

theorem listed_used (he : isFreeSlot e = false) (es : List Fat16Entry) : listed (e :: es) = e :: listed es := by
  rw [← live_eq, ← live_eq, live_cons he]

/-- Overwriting a slot by an entry that is not 0x00 keeps the zeros behind. -/
theorem ZeroTail.set (h : ZeroTail (pre ++ x :: post)) (hpre : ∀ f ∈ pre, isFreeSlot f = false)
    (he : e 0 ≠ 0) : ZeroTail (pre ++ e :: post) := by
  obtain ⟨hp, hxp, hcross⟩ := List.pairwise_append.mp h
  have hpost := (List.pairwise_cons.mp hxp).2
  refine List.pairwise_append.mpr ⟨hp, List.pairwise_cons.mpr ⟨fun f _ h0 => absurd h0 he, hpost⟩, ?_⟩
  intro f hf g _ h0
  have hfree := hpre f hf
  rw [isFreeSlot_iff.mpr (.inl h0)] at hfree
  cases hfree

/-- The first free slot is taken: the listing gains the entry in its place, and zeros stay behind. -/
theorem listed_set (hslot : es.findIdx? isFreeSlot = some s) (hz : ZeroTail es)
    (he : isFreeSlot e = false) : ∃ before after, before = listed (es.take s) ∧
      listed es = before ++ after ∧ listed (es.set s e) = before ++ e :: after ∧
      ZeroTail (es.set s e) := by
  obtain ⟨-, x, post, hx, hsplit, hset⟩ := findIdx?_split hslot
  have htake : es.take s = es.takeWhile fun f => !isFreeSlot f := by
    rw [List.takeWhile_eq_take_findIdx_not]
    simp only [Bool.not_not]
    rw [(List.findIdx?_eq_some_iff_findIdx_eq.mp hslot).2]
  have hpre : ∀ f ∈ es.takeWhile fun f => !isFreeSlot f, isFreeSlot f = false := fun f hf => by
    simpa using List.mem_takeWhile_imp hf
  have hset' := hset e
  rw [htake]
  generalize es.takeWhile (fun f => !isFreeSlot f) = pre at *
  rw [hset', hsplit]
  refine ⟨pre, listed post, ?_, ?_, ?_, ZeroTail.set (hsplit ▸ hz) hpre fun h0 => ?_⟩
  · rw [← List.append_nil pre, listed_live hpre]
    rfl
  · rw [listed_live hpre, listed_free hx (List.pairwise_append.mp (hsplit ▸ hz)).2.1]
  · rw [listed_live hpre, listed_used he]
  · rw [isFreeSlot_iff.mpr (.inl h0)] at he
    cases he

/-- A listed entry with the name is found by it, or one listed before. -/
theorem findFile_listed (hslash : name.chars ≠ [slash]) (hn : fat16FormatName name = some n)
    (he : e ∈ listed (rootSlots v d)) (hname : Has83 n e) (garbage : Fat16Entry) :
    ∃ e', (listed (rootSlots v d)).find? (fun f => decide (Has83 n f)) = some e' ∧
      fat16FindFile v d garbage name = some (some e') := by
  have hnames : n.names = fun f => decide (Has83 n f) := by
    funext f
    rw [Bool.eq_iff_iff, names_iff (formatName_ne_zero hn), decide_eq_true_eq]
  have hfound : ((listed (rootSlots v d)).find? fun f => decide (Has83 n f)).isSome :=
    List.find?_isSome.mpr ⟨e, he, decide_eq_true hname⟩
  obtain ⟨e', he'⟩ := Option.isSome_iff_exists.mp hfound
  exact ⟨e', he', by rw [findFile_eq hslash hn, live_eq, hnames, he']⟩

end insertion

/- ".profile", whose leading dot is skipped. -/
def profileName : CString := ⟨[46, 112, 114, 111, 102, 105, 108, 101], noNul_of_all rfl⟩

/- A live entry "A", a deleted one, a live one "C", and no more. -/
def usedRoot : Sector := fun j =>
  if entrySize * 3 ≤ j then 0
  else if j % entrySize = 0 then if j = entrySize then deleted else UInt8.ofNat (65 + j / entrySize)
  else if j % entrySize < 11 then space
  else if j % entrySize = 11 then 0x20
  else 0

def usedDisk : Disk := fun l => if l = 2050 then usedRoot else emptyDisk l

theorem usedDisk_slots : (rootSlots sampleVolume usedDisk).map (fun f => f 0) =
    65 :: deleted :: 67 :: List.replicate 13 0 := by decide +kernel

end AdamOS.Fat16
