import AdamOS.Kernel.Mapping

/-! The two-level walk of a page directory, and what map_page changes of it. A write to a table
translates one page anew as long as the directory reaches that table once. -/
namespace AdamOS.Paging
open AdamOS.Process

def virtualPages : Nat := 0x100000

def Memory.walk (m : Memory) (P page : Nat) : Option Nat :=
  if present (m.phys P (page / 1024)) && present (m.pte P page) then some (m.pte P page) else none

/- The present entries of a directory point to distinct frames, and none to the directory. -/
structure Tables (m : Memory) (P : Nat) : Prop where
  distinct : ∀ i < 1024, ∀ j < 1024, present (m.phys P i) = true → present (m.phys P j) = true →
    frameOf (m.phys P i) = frameOf (m.phys P j) → i = j
  outside : ∀ i < 1024, present (m.phys P i) = true → frameOf (m.phys P i) ≠ P

/- create_page_table takes frame t, which the directory does not use yet. Its own page has a table
   once t is entered in the directory. -/
structure NewTable (m : Memory) (P page flags t : Nat) : Prop where
  taken : firstFree m = some t
  directory : t ≠ P
  unused : ∀ i < 1024, present (m.phys P i) = true → frameOf (m.phys P i) ≠ t
  reached : present ((m.put P (page / 1024) (entry t (flags ||| 1))).phys P (t / 1024)) = true

def madeTable (m : Memory) (P page : Nat) : Option Nat :=
  if present (m.phys P (page / 1024)) then none else firstFree m

structure MapsOnly (m m' : Memory) (P page e : Nat) (made : Option Nat) : Prop where
  mapped : m'.walk P page = some e
  table : ∀ t ∈ made, t ≠ page → m'.walk P t = some (entry t pageFlagKernel)
  others : ∀ w < virtualPages, w ≠ page → w ∉ made → m'.walk P w = m.walk P w

section walk
variable {m m' : Memory} {P page f flags t e x w : Nat}

theorem present_or_one (f flags : Nat) : present (entry f (flags ||| 1)) = true := by
  rw [present_entry, decide_eq_true_eq, Nat.or_mod_two_eq_one]
  exact .inr rfl

theorem frameOf_or_one (h : flags < pageSize) : frameOf (entry f (flags ||| 1)) = f :=
  frameOf_entry (Nat.or_lt_two_pow (Nat.lt_of_lt_of_le h (by decide : pageSize ≤ 2 ^ 12)) (by decide))

theorem index_lt (h : w < virtualPages) : w / 1024 < 1024 := by
  unfold virtualPages at h
  omega

theorem Tables.of_directory (h : Tables m P) (hd : m'.phys P = m.phys P) : Tables m' P := by
  obtain ⟨hdistinct, houtside⟩ := h
  rw [← hd] at hdistinct houtside
  exact ⟨hdistinct, houtside⟩

theorem walk_congr (hd : m'.phys P (w / 1024) = m.phys P (w / 1024))
    (ht : present (m.phys P (w / 1024)) = true → m'.pte P w = m.pte P w) : m'.walk P w = m.walk P w := by
  unfold Memory.walk
  rw [hd]
  by_cases hp : present (m.phys P (w / 1024)) = true
  · rw [ht hp]
  · rw [Bool.eq_false_iff.mpr hp, Bool.false_and, Bool.false_and]
    rfl

/-- A write to a table changes the walk of one page. -/
theorem walk_put (h : Tables m P) (hx : x < virtualPages) (hp : present (m.phys P (x / 1024)) = true)
    (he : present e = true) (hw : w < virtualPages) :
    (m.put (frameOf (m.phys P (x / 1024))) (x % 1024) e).walk P w =
      if w = x then some e else m.walk P w := by
  have hdir : (m.put (frameOf (m.phys P (x / 1024))) (x % 1024) e).phys P = m.phys P :=
    m.put_frame_ne _ _ (h.outside _ (index_lt hx) hp).symm
  split
  · rename_i hwx
    have hpte : (m.put (frameOf (m.phys P (x / 1024))) (x % 1024) e).pte P x = e := by
      rw [Memory.pte, hdir, Memory.put_self]
    rw [hwx, Memory.walk, hpte, hdir, hp, he]
    rfl
  · rename_i hwx
    refine walk_congr (congrFun hdir _) fun hpw => ?_
    rw [Memory.pte, Memory.pte, hdir]
    by_cases hf : frameOf (m.phys P (w / 1024)) = frameOf (m.phys P (x / 1024))
    · have hi := h.distinct _ (index_lt hw) _ (index_lt hx) hpw hp hf
      rw [hf]
      exact m.put_word_ne _ _ (by omega)
    · exact congrFun (m.put_frame_ne _ _ hf) _

theorem walk_of_phys (h : m'.phys = m.phys) : m'.walk P w = m.walk P w := by
  unfold Memory.walk Memory.pte
  rw [h]

/-! ### create_page_table -/

def enterTable (P page flags t : Nat) (m : Memory) : Memory :=
  ((m.mark t true).fill t fun _ => 0).put P (page / 1024) (entry t (flags ||| 1))

theorem mapPage_enters (hp : present (m.phys P (page / 1024)) = false) (ht : firstFree m = some t) :
    mapPage P page f flags m = (identityMapIn P t (enterTable P page flags t m)).put t (page % 1024)
      (entry f (flags ||| 1)) := by
  have ha : allocateFrame m = (t, m.mark t true) := by rw [allocateFrame, ht]
  rw [mapPage_made hp, ha]
  rfl

theorem enterTable_self : (enterTable P page flags t m).phys P (page / 1024) = entry t (flags ||| 1) :=
  Memory.put_self ..

theorem enterTable_directory (ht : t ≠ P) {k : Nat} (hk : k ≠ page / 1024) :
    (enterTable P page flags t m).phys P k = m.phys P k := by
  unfold enterTable
  rw [Memory.put_word_ne _ _ _ hk, Memory.fill_ne _ _ ht.symm, Memory.mark_phys]

theorem enterTable_new (ht : t ≠ P) (k : Nat) : (enterTable P page flags t m).phys t k = 0 := by
  unfold enterTable
  rw [Memory.put_frame_ne _ _ _ ht, Memory.fill_self]

theorem enterTable_other {g : Nat} (hP : g ≠ P) (ht : g ≠ t) :
    (enterTable P page flags t m).phys g = m.phys g := by
  unfold enterTable
  rw [Memory.put_frame_ne _ _ _ hP, Memory.fill_ne _ _ ht, Memory.mark_phys]

theorem NewTable.tables (ht : NewTable m P page flags t) (h : Tables m P) (hflags : flags < pageSize) :
    Tables (enterTable P page flags t m) P := by
  have hframe : frameOf ((enterTable P page flags t m).phys P (page / 1024)) = t := by
    rw [enterTable_self, frameOf_or_one hflags]
  have hold : ∀ k, k ≠ page / 1024 → (enterTable P page flags t m).phys P k = m.phys P k :=
    fun k hk => enterTable_directory ht.directory hk
  refine ⟨fun i hi j hj hpi hpj hf => ?_, fun i hi hpi => ?_⟩
  · by_cases hin : i = page / 1024
    · by_cases hjn : j = page / 1024
      · rw [hin, hjn]
      · rw [hin, hframe, hold j hjn] at hf
        rw [hold j hjn] at hpj
        exact absurd hf.symm (ht.unused j hj hpj)
    · by_cases hjn : j = page / 1024
      · rw [hjn, hframe, hold i hin] at hf
        rw [hold i hin] at hpi
        exact absurd hf (ht.unused i hi hpi)
      · rw [hold i hin] at hpi hf
        rw [hold j hjn] at hpj hf
        exact h.distinct i hi j hj hpi hpj hf
  · by_cases hin : i = page / 1024
    · rw [hin, hframe]
      exact ht.directory
    · rw [hold i hin] at hpi ⊢
      exact h.outside i hi hpi

theorem NewTable.entered (ht : NewTable m P page flags t) :
    present ((enterTable P page flags t m).phys P (t / 1024)) = true := by
  have hr := ht.reached
  by_cases hk : t / 1024 = page / 1024
  · rw [hk, enterTable_self]
    exact present_or_one t flags
  · rw [m.put_word_ne _ _ hk] at hr
    rw [enterTable_directory ht.directory hk]
    exact hr

theorem NewTable.walk (ht : NewTable m P page flags t) (h : Tables m P) (hflags : flags < pageSize)
    (hp : present (m.phys P (page / 1024)) = false) (hw : w < virtualPages) :
    (enterTable P page flags t m).walk P w = m.walk P w := by
  by_cases hi : w / 1024 = page / 1024
  · have hpte : (enterTable P page flags t m).pte P w = 0 := by
      rw [Memory.pte, hi, enterTable_self, frameOf_or_one hflags, enterTable_new ht.directory]
    unfold Memory.walk
    rw [hpte, present_zero, Bool.and_false, hi, hp, Bool.false_and]
    rfl
  · have hdir : (enterTable P page flags t m).phys P (w / 1024) = m.phys P (w / 1024) :=
      enterTable_directory ht.directory hi
    refine walk_congr hdir fun hpw => ?_
    rw [Memory.pte, Memory.pte, hdir,
      enterTable_other (h.outside _ (index_lt hw) hpw) (ht.unused _ (index_lt hw) hpw)]

/-! ### map_page -/

theorem mapPage_walk_found (h : Tables m P) (hpage : page < virtualPages)
    (hp : present (m.phys P (page / 1024)) = true) (hw : w < virtualPages) :
    (mapPage P page f flags m).walk P w =
      if w = page then some (entry f (flags ||| 1)) else m.walk P w := by
  rw [mapPage_found hp, walk_put h hpage hp (present_or_one f flags) hw]

/-- map_page with a new table: its own page is mapped first. -/
theorem mapPage_walk_made (h : Tables m P) (hpage : page < virtualPages) (hflags : flags < pageSize)
    (hp : present (m.phys P (page / 1024)) = false) (ht : NewTable m P page flags t)
    (hw : w < virtualPages) : (mapPage P page f flags m).walk P w =
      if w = page then some (entry f (flags ||| 1))
      else if w = t then some (entry t pageFlagKernel) else m.walk P w := by
  have htp : t < virtualPages := Nat.lt_trans (firstFree_some ht.taken).2.1 (by decide)
  have htables := ht.tables h hflags
  have hkernel : present (entry t pageFlagKernel) = true := by
    rw [present_entry]
    rfl
  have hidentity : ∀ w < virtualPages, (identityMapIn P t (enterTable P page flags t m)).walk P w =
      if w = t then some (entry t pageFlagKernel) else m.walk P w := by
    intro w hw
    rw [walk_of_phys (identityMapIn_phys _ _ _), walk_put htables htp ht.entered hkernel hw,
      ht.walk h hflags hp hw]
  have hdir : (identityMapIn P t (enterTable P page flags t m)).phys P =
      (enterTable P page flags t m).phys P := by
    rw [identityMapIn_phys]
    exact Memory.put_frame_ne _ _ _ (htables.outside _ (index_lt htp) ht.entered).symm
  have hnew : (identityMapIn P t (enterTable P page flags t m)).phys P (page / 1024) =
      entry t (flags ||| 1) := by
    rw [hdir, enterTable_self]
  have hput := walk_put (e := entry f (flags ||| 1)) (htables.of_directory hdir) hpage
    (by rw [hnew]; exact present_or_one t flags) (present_or_one f flags) hw
  rw [hnew, frameOf_or_one hflags, hidentity w hw] at hput
  rw [mapPage_enters hp ht.taken, hput]

/-- map_page translates its page anew, and besides only the page of a table it makes. -/
theorem mapPage_only (h : Tables m P) (hpage : page < virtualPages) (hflags : flags < pageSize)
    (htable : present (m.phys P (page / 1024)) = true ∨ ∃ t, NewTable m P page flags t) :
    MapsOnly m (mapPage P page f flags m) P page (entry f (flags ||| 1)) (madeTable m P page) := by
  by_cases hp : present (m.phys P (page / 1024)) = true
  · have hnone : madeTable m P page = none := if_pos hp
    rw [hnone]
    refine ⟨?_, fun _ ht => (nomatch ht), fun w hw hwp _ => ?_⟩
    · rw [mapPage_walk_found h hpage hp hpage, if_pos rfl]
    · rw [mapPage_walk_found h hpage hp hw, if_neg hwp]
  · obtain ⟨t, ht⟩ := htable.resolve_left hp
    have hsome : madeTable m P page = some t := (if_neg hp).trans ht.taken
    replace hp := Bool.eq_false_iff.mpr hp
    rw [hsome]
    refine ⟨?_, fun u hu hup => ?_, fun w hw hwp hwt => ?_⟩
    · rw [mapPage_walk_made h hpage hflags hp ht hpage, if_pos rfl]
    · obtain rfl := Option.some.inj hu
      have htp : t < virtualPages := Nat.lt_trans (firstFree_some ht.taken).2.1 (by decide)
      rw [mapPage_walk_made h hpage hflags hp ht htp, if_neg hup, if_pos rfl]
    · rw [mapPage_walk_made h hpage hflags hp ht hw, if_neg hwp, if_neg fun he => hwt (congrArg some he.symm)]

end walk

/- The directory of create_page_directory once its first map_page has made a table. -/
def emptyDirectory : Memory := (initFrames fun _ _ => 0).mark 1 true
def oneTable : Memory := mapPage 1 1 1 pageFlagKernel emptyDirectory

theorem oneTable_directory (i : Nat) : oneTable.phys 1 i = if i = 0 then entry 2 3 else 0 := by
  have hfree : firstFree emptyDirectory = some 2 := by decide
  have hne : (1 : Nat) ≠ 2 := by decide
  have hframe : frameOf ((enterTable 1 1 pageFlagKernel 2 emptyDirectory).phys 1 (2 / 1024)) = 2 := by
    decide
  rw [oneTable, mapPage_enters rfl hfree, Memory.put_frame_ne _ _ _ hne, identityMapIn_phys, hframe,
    Memory.put_frame_ne _ _ _ hne]
  by_cases hi : i = 0
  · rw [if_pos hi, hi]
    exact enterTable_self
  · rw [if_neg hi, enterTable_directory hne.symm hi]
    rfl

/-- A page outside that table gets the next frame as its table. -/
theorem oneTable_mapped : madeTable oneTable 1 2048 = some 3 ∧
    MapsOnly oneTable (mapPage 1 2048 4 pageFlagKernel oneTable) 1 2048 (entry 4 3)
      (madeTable oneTable 1 2048) := by
  have hzero : ∀ i, present (oneTable.phys 1 i) = true → i = 0 := fun i hi => by
    by_contra hne
    rw [oneTable_directory, if_neg hne] at hi
    cases hi
  have htable : frameOf (oneTable.phys 1 0) = 2 := by
    rw [oneTable_directory]
    decide
  have hfree : firstFree oneTable = some 3 := by decide
  have htables : Tables oneTable 1 := by
    refine ⟨fun i _ j _ hi hj _ => (hzero i hi).trans (hzero j hj).symm, fun i _ hi => ?_⟩
    rw [hzero i hi, htable]
    decide
  have hnew : NewTable oneTable 1 2048 pageFlagKernel 3 := by
    refine ⟨hfree, by decide, fun i _ hi => ?_, ?_⟩
    · rw [hzero i hi, htable]
      decide
    · rw [Memory.put_word_ne _ _ _ (by decide), oneTable_directory]
      decide
  exact ⟨by decide, mapPage_only htables (by decide) (by decide) (.inr ⟨3, hnew⟩)⟩

end AdamOS.Paging
