import AdamOS.Kernel.ForkCopy

/-! The tables identity_map_in writes to. The kernel maps the frames of its directories and tables,
and those fork copies, at their own addresses; every directory has the table for it as long as the
frames in use lie below 0x800000. -/
namespace AdamOS.Paging
open AdamOS.Process AdamOS.Scheduler AdamOS.Lifecycle AdamOS.Word AdamOS.Loop AdamOS.Transition

def highFrame : Nat := 2048
def kernelIndex : Nat := 1

def LowFrames (m : Memory) : Prop := ∀ f, highFrame ≤ f → m.bitmap f = false

section Frames
variable {m m' : Memory} {P page f g flags lo hi : Nat}

/-- The frames the kernel hands out below 0x800000 are served by one table. -/
theorem low_index (h : 1024 < f) (hf : f < highFrame) : f / 1024 = kernelIndex := by
  simp only [highFrame, kernelIndex] at *
  omega

theorem LowFrames.lt (h : LowFrames m) (hg : m.bitmap g = true) : g < highFrame := by
  by_contra hlt
  rw [h g (Nat.le_of_not_lt hlt)] at hg
  cases hg

theorem LowFrames.congr (h : LowFrames m') (hb : m'.bitmap = m.bitmap) : LowFrames m :=
  fun f hf => by rw [← hb, h f hf]

theorem allocateFrame_bits (h : m.bitmap g = true) : (allocateFrame m).2.bitmap g = true := by
  unfold allocateFrame
  cases firstFree m with
  | none => exact h
  | some f =>
    by_cases hg : g = f
    · rw [hg, Memory.mark_self]
    · rw [m.mark_of_ne true hg, h]

theorem allocateFrame_nullTable (m : Memory) : (allocateFrame m).2.nullTable = m.nullTable := by
  unfold allocateFrame
  cases firstFree m <;> rfl

theorem LowFrames.allocated (h : LowFrames (allocateFrame m).2) : LowFrames m ∧
    Allocated m (allocateFrame m).1 (allocateFrame m).2 ∧ (allocateFrame m).1 < highFrame ∧
      (allocateFrame m).2.exhausted = m.exhausted := by
  have hback : LowFrames m := by
    intro g hg
    cases hb : m.bitmap g with
    | false => rfl
    | true => rw [← h g hg, allocateFrame_bits hb]
  have hfree := hback highFrame (Nat.le_refl _)
  unfold allocateFrame at h ⊢
  cases hf : firstFree m with
  | none =>
    rw [firstFree_none hf (by decide) (by decide)] at hfree
    cases hfree
  | some f =>
    obtain ⟨h0, hlt, hb⟩ := firstFree_some hf
    rw [hf] at h
    exact ⟨hback, ⟨h0, hlt, hb, rfl⟩, h.lt (m.mark_self f true), rfl⟩

theorem LowFrames.allocateFrames {n : Nat} (h : LowFrames (Paging.allocateFrames n m)) :
    LowFrames m ∧ (Paging.allocateFrames n m).exhausted = m.exhausted := by
  induction n with
  | zero => exact ⟨h, rfl⟩
  | succ n ih =>
    have hlast : LowFrames (allocateFrame (Paging.allocateFrames n m)).2 := h
    obtain ⟨hn, -, -, he⟩ := hlast.allocated
    obtain ⟨hm, hx⟩ := ih hn
    exact ⟨hm, he.trans hx⟩

/-- If the frames in use afterwards are low, they were before, and every allocation was met. -/
theorem Draws.low (h : Draws lo hi m m') (hl : LowFrames m') :
    LowFrames m ∧ m'.exhausted = m.exhausted := by
  obtain ⟨n, -, -, hb, he⟩ := h
  obtain ⟨hm, hx⟩ := (hl.congr hb).allocateFrames
  exact ⟨hm, he.trans hx⟩

/-! ### map_page -/

theorem identityMapIn_nullTable (h : present (m.phys P (f / 1024)) = true) :
    (identityMapIn P f m).nullTable = m.nullTable := by
  unfold identityMapIn
  simp only [h, if_true, Memory.put_nullTable]

theorem mapPage_bits (h : m.bitmap g = true) : (mapPage P page f flags m).bitmap g = true := by
  rw [mapPage_bitmap]
  cases present (m.phys P (page / 1024)) with
  | true => exact h
  | false => exact allocateFrame_bits h

structure Served (P : Nat) (m : Memory) : Prop where
  reserved : ∀ f ≤ 1024, m.bitmap f = true
  used : m.bitmap P = true
  table : present (m.phys P kernelIndex) = true

theorem Served.of_eq (h : Served P m) (hb : ∀ g, m.bitmap g = true → m'.bitmap g = true)
    (hp : m'.phys P kernelIndex = m.phys P kernelIndex) : Served P m' :=
  ⟨fun f hf => hb f (h.reserved f hf), hb P h.used, by rw [hp, h.table]⟩

theorem Served.allocated (h : Served P m) {m₁ : Memory} (ha : Allocated m f m₁) :
    1024 < f ∧ P ≠ f := by
  have hfree := ha.free
  refine ⟨?_, ?_⟩
  · by_contra hle
    rw [h.reserved f (Nat.le_of_not_lt hle)] at hfree
    cases hfree
  · rintro rfl
    rw [h.used] at hfree
    cases hfree

/-- A new table is identity mapped in a table that is there. -/
theorem Served.mapPage_nullTable (h : Served P m) (hfl : (flags ||| 1) % 2 = 1)
    (hlow : LowFrames (mapPage P page f flags m)) :
    (mapPage P page f flags m).nullTable = m.nullTable := by
  cases hp : present (m.phys P (page / 1024)) with
  | true => rw [mapPage_found hp, Memory.put_nullTable]
  | false =>
    have hb := mapPage_bitmap P page f flags m
    rw [hp, if_neg (by decide)] at hb
    obtain ⟨-, ha, hlt, -⟩ := (hlow.congr hb).allocated
    obtain ⟨hgt, hne⟩ := h.allocated ha
    rw [mapPage_made hp]
    dsimp only
    have hnull := allocateFrame_nullTable m
    generalize (allocateFrame m).1 = t at *
    generalize (allocateFrame m).2 = m₁ at *
    have hphys : m₁.phys = m.phys := by rw [show m₁ = _ from ha.eq, Memory.mark_phys]
    have hthere : present (((m₁.fill t fun _ => 0).put P (page / 1024)
        (entry t (flags ||| 1))).phys P (t / 1024)) = true := by
      rw [low_index hgt hlt]
      by_cases hi : kernelIndex = page / 1024
      · rw [hi, Memory.put_self, present_entry, hfl]
        rfl
      · rw [Memory.put_word_ne _ _ _ hi, m₁.fill_ne _ hne, hphys, h.table]
    rw [Memory.put_nullTable, identityMapIn_nullTable hthere, Memory.put_nullTable,
      Memory.fill_nullTable, hnull]

theorem Served.loadPage_nullTable {w : Nat → Nat} (h : Served P m)
    (hlow : LowFrames (loadPage P page w m)) : (loadPage P page w m).nullTable = m.nullTable := by
  unfold loadPage at hlow ⊢
  dsimp only at hlow ⊢
  have hmap : LowFrames (mapPage P page (allocateFrame m).1 pageFlagUser (allocateFrame m).2) :=
    hlow.congr (Memory.fill_bitmap ..)
  obtain ⟨-, ha, -, -⟩ := ((draws_mapPage P page _ pageFlagUser _).low hmap).1.allocated
  have h₁ : Served P (allocateFrame m).2 :=
    h.of_eq (fun _ => allocateFrame_bits) (by rw [ha.eq, Memory.mark_phys])
  rw [writePage, Memory.fill_nullTable, h₁.mapPage_nullTable (by decide) hmap, allocateFrame_nullTable]

end Frames

section Spaces
variable {M : Machine} {R : Regime} {own own₀ : Owners} {dirs pending : List Nat}
  {m m₀ : Memory} {P source dest S t i n page f flags : Nat}

/-! ### exec and sbrk -/

theorem Owned.served (h : Owned R own dirs pending m) (hP : P ∈ dirs)
    (hk : present (m.phys P kernelIndex) = true) : Served P m :=
  ⟨h.reserved, (h.backed P _ (h.directory P hP)).1, hk⟩

theorem Owned.loadPages_nullTable {w : Nat → Nat → Nat} (h : Owned R own dirs [] m) (hP : P ∈ dirs)
    (hl : Loadable R P page n m) (hk : present (m.phys P kernelIndex) = true)
    (hm : (loop n (fun i => loadPage P (page + i) (w i)) m).exhausted = false)
    (hlow : LowFrames (loop n (fun i => loadPage P (page + i) (w i)) m)) :
    (loop n (fun i => loadPage P (page + i) (w i)) m).nullTable = m.nullTable := by
  induction n with
  | zero => rfl
  | succ n ih =>
    rw [loop_succ] at hm hlow ⊢
    have hmr := loadPage_served hm
    have hlr := ((draws_loadPage P (page + n) (w n) _).low hlow).1
    have hl' := hl.mono (Nat.le_succ n)
    obtain ⟨own', hr⟩ := h.pagesLoaded hP hl' hmr
    have hkr := hr.grows.entries P kernelIndex (h.directory P hP) hk
    rw [(hr.owned.served hP (by rw [hkr, hk])).loadPage_nullTable hlow, ih hl' hmr hlr]

theorem clearPageDirectory_nullTable (P : Nat) (m : Memory) :
    (clearPageDirectory P m).nullTable = m.nullTable := by
  have hpages : ∀ t r, (loop 1024 (clearPage t) r).nullTable = r.nullTable := by
    intro t r
    refine loop_keeps (fun b : Memory => b.nullTable = r.nullTable) rfl fun j _ b hb => ?_
    unfold clearPage
    by_cases hc : present (b.phys t j) && user (b.phys t j)
    · simp only [hc, if_true, freeFrame_nullTable, hb]
    · simp only [hc, if_false, Bool.false_eq_true, hb]
  rw [clearPageDirectory_eq]
  refine loop_keeps (fun b : Memory => b.nullTable = m.nullTable) rfl fun i _ b hb => ?_
  unfold clearEntry
  by_cases hc : present (b.phys P i) && decide (userIndex ≤ i) && user (b.phys P i)
  · simp only [hc, if_true, Memory.put_nullTable, freeFrame_nullTable, hpages, hb]
  · simp only [hc, if_false, Bool.false_eq_true, hb]

theorem Owned.update_nullTable (h : Owned (anyRun M) own dirs [] m) (hP : P ∈ dirs) (p : Program)
    (hfur : Furnished (anyRun M) P m) (hk : present (m.phys P kernelIndex) = true)
    (hm : (updatePageDirectory P p m).exhausted = false)
    (hlow : LowFrames (updatePageDirectory P p m)) :
    (updatePageDirectory P p m).nullTable = m.nullTable := by
  unfold updatePageDirectory at hm hlow ⊢
  dsimp only at hm hlow ⊢
  have hstack := ((draws_mapPage P userStackPage _ pageFlagUser _).low hlow).1
  obtain ⟨hlr, ha, -, -⟩ := hstack.allocated
  have hmr := allocateFrame_served (mapPage_served hm)
  have hload := anyRun_loadable hfur userFuncPage (codePages p + bssPages)
  have hnull := h.loadPages_nullTable hP hload hk hmr hlr
  obtain ⟨own', hr⟩ := h.pagesLoaded hP hload hmr
  have hkr := hr.grows.entries P kernelIndex (h.directory P hP) hk
  have hserved := hr.owned.served hP (by rw [hkr, hk])
  generalize loop (codePages p + bssPages) (fun i => loadPage P (userFuncPage + i) (p.words i)) m = r
    at *
  have h₁ : Served P (allocateFrame r).2 :=
    hserved.of_eq (fun _ => allocateFrame_bits) (by rw [ha.eq, Memory.mark_phys])
  rw [h₁.mapPage_nullTable (by decide) hlow, allocateFrame_nullTable, hnull]

theorem Owned.exec_nullTable (h : Owned (anyRun M) own dirs [] m) (hP : P ∈ dirs) (p : Program)
    (hfur : Furnished (anyRun M) P m) (hk : present (m.phys P kernelIndex) = true)
    (hx : m.exhausted = false) (hlow : LowFrames (execDirectory P p m)) :
    (execDirectory P p m).exhausted = false ∧
      (execDirectory P p m).nullTable = m.nullTable := by
  have hmet : (execDirectory P p m).exhausted = false := by
    rw [((draws_execDirectory P p m).low hlow).2, clearPageDirectory_exhausted, hx]
  refine ⟨hmet, ?_⟩
  obtain ⟨own₁, h₁⟩ := h.clearSpace hP
  have hentry : ∀ i, i < userIndex ∨ (anyRun M).device i → i < 1024 →
      (clearPageDirectory P m).phys P i = m.phys P i := fun i hi hlt => h.entry_cleared hP hlt hi
  have hfur₁ : Furnished (anyRun M) P (clearPageDirectory P m) := fun i hi => by
    rw [hentry i (.inr hi) (deviceIndex_lt hi), hfur i hi]
  have hk₁ : present ((clearPageDirectory P m).phys P kernelIndex) = true := by
    rw [hentry _ (.inl (by decide)) (by decide), hk]
  rw [← clearPageDirectory_nullTable P m]
  unfold execDirectory at hmet hlow ⊢
  dsimp only at hmet hlow ⊢
  by_cases ha : p.argLen = 0
  · rw [if_pos ha] at hmet hlow ⊢
    exact h₁.owned.update_nullTable hP p hfur₁ hk₁ hmet hlow
  · rw [if_neg ha] at hmet hlow ⊢
    rw [writePage_exhausted] at hmet
    rw [writePage, Memory.fill_nullTable]
    exact h₁.owned.update_nullTable hP p hfur₁ hk₁ hmet (hlow.congr (Memory.fill_bitmap ..))

/-! ### fork -/

/-- A frame with an owner lies where the kernel's table reaches. -/
theorem Owned.owned_index {o : Owner} (h : Owned R own dirs pending m) (hlow : LowFrames m)
    (hf : own f = some o) : f / 1024 = kernelIndex := by
  obtain ⟨hb, hgt, -⟩ := h.backed f o hf
  exact low_index hgt (hlow.lt hb)

/-- A page that fork copies lies in a low frame, or is one of the frame buffer in the table at hand. -/
theorem Owned.page_index {T j : Nat} (h : Owned R own dirs pending m) (hlow : LowFrames m)
    (hT : own T = some (.table P i)) (hj : j < 1024) (hp : present (m.phys T j) = true) :
    frameOf (m.phys T j) / 1024 = kernelIndex ∨ frameOf (m.phys T j) / 1024 = i := by
  have hown : ∀ {k}, own (frameOf (m.phys T j)) = some (.page P i k) →
      frameOf (m.phys T j) / 1024 = kernelIndex := h.owned_index hlow
  cases hu : user (m.phys T j) with
  | true => exact .inl (hown (h.page T P i j hT hp hu))
  | false =>
    refine (h.kernel T P i j hT hp hu).imp hown fun he => ?_
    rw [he, frameOf_entry (by decide)]
    omega

/-- The inner loop finds the tables for the frames it takes and for the pages it reads. -/
theorem TableSource.nullTable (hs : TableSource R own₀ dirs pending source S t dest i m₀)
    (hk : present (m₀.phys source kernelIndex) = true) (hi : present (m₀.phys source i) = true)
    (hn : n ≤ 1024) (hm : (loop n (copyPage source S t) m₀).exhausted = false)
    (hlow : LowFrames (loop n (copyPage source S t) m₀)) :
    (loop n (copyPage source S t) m₀).nullTable = m₀.nullTable := by
  induction n with
  | zero => rfl
  | succ n ih =>
    rw [loop_succ] at hm hlow ⊢
    have hmr := copyPage_served hm
    have hlr := ((draws_copyPage source S t n _).low hlow).1
    obtain ⟨own, h⟩ := copyPages hs (by omega : n ≤ 1024) hmr
    rw [← ih (by omega) hmr hlr]
    generalize loop n (copyPage source S t) m₀ = r at *
    cases hp : present (r.phys S n) with
    | false => rw [copyPage_absent hp]
    | true =>
      have hdir := hs.owned.directory source hs.listed
      have hsrc : r.phys source = m₀.phys source :=
        h.kept source (held_directory hdir) (owner_ne hdir hs.new (by simp))
      have hal : LowFrames (allocateFrame r).2 := by
        refine hlow.congr ?_
        rw [copyPage_present hp]
        dsimp only
        rw [Memory.put_bitmap, Memory.fill_bitmap, identityMapIn_bitmap, identityMapIn_bitmap]
      obtain ⟨-, ha, hlt, -⟩ := hal.allocated
      have hmet : (allocateFrame r).2.exhausted = false := by
        rw [copyPage_present hp] at hm
        simpa only [Memory.put_exhausted, Memory.fill_exhausted, identityMapIn_exhausted] using hm
      obtain ⟨-, h₁⟩ := h.owned.allocate hmet
      have hindex := h.owned.page_index hlr (h.owners S _ hs.old) (by omega) hp
      have hgt := ((h.owned.served hs.listed (by rw [hsrc, hk])).allocated ha).1
      rw [copyPage_present hp]
      dsimp only
      have hnull := allocateFrame_nullTable r
      generalize (allocateFrame r).1 = d at *
      generalize (allocateFrame r).2 = r₁ at *
      have hphys : r₁.phys = r.phys := by rw [show r₁ = _ from ha.eq, Memory.mark_phys]
      have hthere : ∀ {k}, k = kernelIndex ∨ k = i → present (r₁.phys source k) = true := by
        rintro k (rfl | rfl)
        · rw [hphys, hsrc, hk]
        · rw [hphys, hsrc, hi]
      obtain ⟨-, hkeep⟩ := h₁.identityMap hs.listed (f := d) (.inl (frame_index ha.lt))
      have hkept := hkeep source (held_directory (h.owners source _ hdir))
      rw [Memory.put_nullTable, Memory.fill_nullTable, identityMapIn_nullTable,
        identityMapIn_nullTable, hnull]
      · exact hthere (.inl (low_index hgt hlt))
      · rw [hkept]
        exact hthere hindex

theorem SpaceSource.nullTable (hs : SpaceSource R own₀ dirs pending source dest m₀)
    (hk : present (m₀.phys source kernelIndex) = true)
    (hm : (loop n (copyEntry dest source) m₀).exhausted = false)
    (hlow : LowFrames (loop n (copyEntry dest source) m₀)) :
    (loop n (copyEntry dest source) m₀).nullTable = m₀.nullTable := by
  induction n with
  | zero => rfl
  | succ n ih =>
    rw [loop_succ] at hm hlow ⊢
    have hmr := copyEntry_served hm
    have hlr := ((draws_copyEntry dest source n _).low hlow).1
    obtain ⟨own, h⟩ := hs.copyEntries hmr
    rw [← ih hmr hlr]
    generalize loop n (copyEntry dest source) m₀ = r at *
    cases hp : present (r.phys source n) with
    | false => rw [copyEntry_absent hp]
    | true =>
      by_cases hi : n < userIndex
      · rw [copyEntry_low hp hi, Memory.put_nullTable]
      have hi := Nat.le_of_not_lt hi
      rw [copyEntry_table hp hi] at hm hlow ⊢
      dsimp only at hm hlow ⊢
      rw [Memory.put_exhausted] at hm
      rw [Memory.put_nullTable]
      have hl := hlow.congr (Memory.put_bitmap ..)
      have hmet := tableStart_served (loop_served (fun _ _ => copyPage_served) hm)
      have hts := h.tableSource hs hp hi hmet
      obtain ⟨-, -, -, -, -, hkeep⟩ := h.owned.newTable dest hs.listed hp hi hmet
      have hdir := hs.owned.directory source hs.listed
      have hsrc : (tableStart source r).phys source = r.phys source :=
        hkeep source (held_directory (h.owners source _ hdir))
      have hkr : present (r.phys source kernelIndex) = true := by
        rw [h.kept source (held_directory hdir) hs.apart, hk]
      have hstart : LowFrames (tableStart source r) :=
        (Draws.low (draws_loop fun j b => draws_copyPage source _ _ j b) hl).1
      rw [hts.nullTable (by rw [hsrc, hkr]) (by rw [hsrc, hp]) (Nat.le_refl 1024) hm hl]
      obtain ⟨-, ha, hlt, -⟩ := (hstart.congr (by
        rw [tableStart_eq, Memory.fill_bitmap, identityMapIn_bitmap])).allocated
      have hgt := ((h.owned.served hs.listed hkr).allocated ha).1
      have hthere : present ((allocateFrame r).2.phys source ((allocateFrame r).1 / 1024)) = true := by
        rw [low_index hgt hlt, ha.eq, Memory.mark_phys, hkr]
      rw [tableStart_eq, Memory.fill_nullTable, identityMapIn_nullTable hthere,
        allocateFrame_nullTable]

/-- A fork finds every table, that of its own mapping included. -/
theorem Owned.fork_nullTable (h : Owned R own dirs [] m) (hs : source ∈ dirs)
    (hk : present (m.phys source kernelIndex) = true) (hx : m.exhausted = false)
    (hlow : LowFrames (forkDirectory source m).2) : (forkDirectory source m).2.exhausted = false ∧
      (forkDirectory source m).2.nullTable = m.nullTable ∧
      present (m.phys source ((allocateFrame m).1 / 1024)) = true := by
  rw [forkDirectory_eq] at hlow ⊢
  dsimp only at hlow ⊢
  obtain ⟨hstart, hex⟩ := (draws_copyPageDirectory _ source _).low hlow
  have hbits : (forkStart source m).bitmap = (allocateFrame m).2.bitmap := by
    rw [forkStart, Memory.fill_bitmap, Memory.put_bitmap]
  have hmet' : (forkStart source m).exhausted = (allocateFrame m).2.exhausted := by
    rw [forkStart, Memory.fill_exhausted, Memory.put_exhausted]
  obtain ⟨-, ha, hlt, hsame⟩ := (hstart.congr hbits).allocated
  have hmet : (allocateFrame m).2.exhausted = false := by rw [hsame, hx]
  rw [hmet', hmet] at hex
  obtain ⟨-, hsource, hkeep, -, -⟩ := h.forkSource hs hmet
  have hgt := ((h.served hs hk).allocated ha).1
  refine ⟨hex, ?_, by rw [low_index hgt hlt, hk]⟩
  rw [copyPageDirectory_eq] at hex hlow ⊢
  have hkk : present ((forkStart source m).phys source kernelIndex) = true := by
    rw [hkeep source (held_directory (h.directory source hs)), hk]
  rw [hsource.nullTable hkk hex hlow, forkStart, Memory.fill_nullTable, Memory.put_nullTable,
    allocateFrame_nullTable]

/-! ### kernel_main -/

/-- A table is made: the directory changes in the entry of the page. -/
theorem Owned.mapPage_directory (h : Owned R own dirs pending m) (hP : P ∈ dirs)
    (hfl : flags ||| 1 < pageSize) (hp : present (m.phys P (page / 1024)) = false)
    (hm : (mapPage P page f flags m).exhausted = false) : ∃ t,
      (mapPage P page f flags m).phys P (page / 1024) = entry t (flags ||| 1) ∧
      ∀ i, i ≠ page / 1024 → (mapPage P page f flags m).phys P i = m.phys P i := by
  have hdir := h.directory P hP
  rw [mapPage_made hp] at hm ⊢
  dsimp only at hm ⊢
  simp only [Memory.put_exhausted, identityMapIn_exhausted, Memory.fill_exhausted] at hm
  have hspec := allocateFrame_spec hm
  obtain ⟨htn, -⟩ := h.allocate hm
  generalize (allocateFrame m).1 = t at *
  generalize (allocateFrame m).2 = m₁ at *
  have hphys : m₁.phys = m.phys := by rw [show m₁ = _ from hspec.eq, Memory.mark_phys]
  have hPt : P ≠ t := Owned.ne_of_none htn hdir
  have hX : P ≠ frameOf (((m₁.fill t fun _ => 0).put P (page / 1024)
      (entry t (flags ||| 1))).phys P (t / 1024)) := by
    by_cases hk : t / 1024 = page / 1024
    · rw [hk, Memory.put_self, frameOf_entry hfl]
      exact hPt
    · rw [Memory.put_word_ne _ _ _ hk, m₁.fill_ne _ hPt, hphys]
      exact h.lowTable_ne hP hspec.lt
  have hentry : ∀ i, (Memory.put (identityMapIn P t ((m₁.fill t fun _ => 0).put P (page / 1024)
      (entry t (flags ||| 1)))) t (page % 1024) (entry f (flags ||| 1))).phys P i =
      ((m₁.fill t fun _ => 0).put P (page / 1024) (entry t (flags ||| 1))).phys P i := fun i => by
    rw [Memory.put_frame_ne _ _ _ hPt, identityMapIn_phys, Memory.put_frame_ne _ _ _ hX]
  refine ⟨t, by rw [hentry, Memory.put_self], fun i hne => ?_⟩
  rw [hentry, Memory.put_word_ne _ _ _ hne, m₁.fill_ne _ hPt, hphys]

/-- map_page writes an entry of P only where there was none. -/
theorem Owned.mapPage_entry (h : Owned R own dirs pending m) (hP : P ∈ dirs)
    (hfl : flags ||| 1 < pageSize) (hp : present (m.phys P i) = true)
    (hm : (mapPage P page f flags m).exhausted = false) :
    (mapPage P page f flags m).phys P i = m.phys P i := by
  have hdir := h.directory P hP
  cases hpi : present (m.phys P (page / 1024)) with
  | true =>
    have htable : P ≠ frameOf (m.phys P (page / 1024)) := by
      by_cases hlow : page / 1024 < userIndex
      · exact owner_ne hdir (h.low P hP _ hlow hpi).1 (by simp)
      · exact owner_ne hdir (h.table P hP _ (Nat.le_of_not_lt hlow) hpi) (by simp)
    rw [mapPage_found hpi, m.put_frame_ne _ _ htable]
  | false =>
    obtain ⟨t, -, helse⟩ := h.mapPage_directory hP hfl hpi hm
    refine helse i ?_
    rintro rfl
    rw [hpi] at hp
    cases hp

theorem createPageDirectory_nullTable (hr : ∀ f ≤ 1024, m.bitmap f = true)
    (hlow : LowFrames (createPageDirectory m).2) :
    (createPageDirectory m).2.nullTable = m.nullTable ∧
      (createPageDirectory m).1 / 1024 = kernelIndex := by
  unfold createPageDirectory at hlow ⊢
  dsimp only at hlow ⊢
  have hfill := ((draws_mapPage _ _ _ pageFlagKernel _).low hlow).1
  obtain ⟨-, ha, hlt, -⟩ := (hfill.congr (Memory.fill_bitmap ..)).allocated
  have hgt : ∀ {f : Nat}, m.bitmap f = false → 1024 < f := by
    intro f hf
    by_contra hle
    rw [hr f (Nat.le_of_not_lt hle)] at hf
    cases hf
  have hindex := low_index (hgt ha.free) hlt
  refine ⟨?_, hindex⟩
  have hnull := allocateFrame_nullTable m
  have hbits := fun g (hg : m.bitmap g = true) => allocateFrame_bits hg
  generalize (allocateFrame m).1 = Q at *
  generalize (allocateFrame m).2 = m₁ at *
  have habsent : present ((m₁.fill Q fun _ => 0).phys Q (Q / 1024)) = false := by
    rw [Memory.fill_self, present_zero]
  have hb := mapPage_bitmap Q Q Q pageFlagKernel (m₁.fill Q fun _ => 0)
  rw [habsent, if_neg (by decide)] at hb
  obtain ⟨-, ha', hlt', -⟩ := (hlow.congr hb).allocated
  rw [mapPage_made habsent]
  dsimp only
  have hnull' := allocateFrame_nullTable (m₁.fill Q fun _ => 0)
  generalize (allocateFrame (m₁.fill Q fun _ => 0)).1 = t at *
  generalize (allocateFrame (m₁.fill Q fun _ => 0)).2 = m₂ at *
  have hti : t / 1024 = Q / 1024 := by
    have hfree := ha'.free
    rw [Memory.fill_bitmap] at hfree
    rw [hindex]
    refine low_index (hgt ?_) hlt'
    cases hb' : m.bitmap t with
    | false => rfl
    | true => rw [hbits t hb'] at hfree; cases hfree
  rw [Memory.put_nullTable, identityMapIn_nullTable, Memory.put_nullTable, Memory.fill_nullTable,
    hnull', Memory.fill_nullTable, hnull]
  rw [hti, Memory.put_self, present_entry]
  rfl

theorem Building.mapKernels_nullTable {mapped : Nat → Prop} {own' : Owners} {m' : Memory}
    (h : Building R own dirs pending m P mapped own' m') (hk : ∀ t, R.kept t) {first : Nat}
    (hpage : ∀ i < n, first + i < userFuncPage ∨
      R.device ((first + i) / 1024) ∧ ¬mapped (first + i))
    (hself : mapped P) (hi : P / 1024 = kernelIndex)
    (hm : (loop n (fun i => mapPage P (first + i) (first + i) pageFlagKernel) m').exhausted = false)
    (hlow : LowFrames (loop n (fun i => mapPage P (first + i) (first + i) pageFlagKernel) m')) :
    (loop n (fun i => mapPage P (first + i) (first + i) pageFlagKernel) m').nullTable =
      m'.nullTable := by
  induction n with
  | zero => rfl
  | succ n ih =>
    rw [loop_succ] at hm hlow ⊢
    have hmr := mapPage_served hm
    have hlr := ((draws_mapPage P (first + n) _ pageFlagKernel _).low hlow).1
    have hpage' : ∀ i < n, first + i < userFuncPage ∨
        R.device ((first + i) / 1024) ∧ ¬mapped (first + i) := fun i hi => hpage i (by omega)
    obtain ⟨own'', hr⟩ := h.mapKernels hk hpage' hmr
    have hlink := hr.links P (.inl hself)
    rw [hi] at hlink
    rw [(hr.owned.served List.mem_cons_self hlink).mapPage_nullTable (by decide) hlow,
      ih hpage' hmr hlr]

/-- The kernel's part of a directory finds every table. -/
theorem Owned.builtKernel_nullTable (h : Owned R own dirs [] m) (hk : ∀ t, R.kept t)
    (hdev : ∀ i, R.device i ↔ deviceIndex M i) :
    let d := createPageDirectory m
    let m' := loop (fbPages M) (fun i => mapPage d.1 (fbPage M + i) (fbPage M + i) pageFlagKernel)
      (loop 1024 (fun i => mapPage d.1 i i pageFlagKernel) d.2)
    m'.exhausted = false → LowFrames m' → m'.nullTable = m.nullTable ∧ d.1 / 1024 = kernelIndex := by
  dsimp only
  intro hfb hlow
  have hmlow := loop_served (fun _ _ => mapPage_served) hfb
  obtain ⟨hlt, -, ⟨own₁, h₁⟩, own₂, h₂⟩ := h.builtLow hk hmlow
  have hPlow := Nat.lt_trans hlt (by decide : numFrames < userFuncPage)
  have hlow₂ := (Draws.low (draws_loop fun i b => draws_mapPage _ _ _ pageFlagKernel b) hlow).1
  have hlow₁ := (Draws.low (draws_loop fun i b => draws_mapPage _ _ _ pageFlagKernel b) hlow₂).1
  obtain ⟨hnull, hi⟩ := createPageDirectory_nullTable h.reserved hlow₁
  refine ⟨?_, hi⟩
  rw [h₂.mapKernels_nullTable hk (fbPage_new hdev hPlow) (.inl rfl) hi hfb hlow]
  rw [mapLow_eq] at hmlow hlow₂ ⊢
  rw [h₁.mapKernels_nullTable hk (fun i hi => .inl (lowPage_new i hi)) rfl hi hmlow hlow₂, hnull]

theorem Owned.built_nullTable (h : Owned R own dirs [] m) (hk : ∀ t, R.kept t)
    (hdev : ∀ i, R.device i ↔ deviceIndex M i) (image : Nat → Nat)
    (hm : (createKernelPageDirectory M image m).2.exhausted = false)
    (hlow : LowFrames (createKernelPageDirectory M image m).2) :
    (createKernelPageDirectory M image m).2.nullTable = m.nullTable := by
  unfold createKernelPageDirectory at hm hlow ⊢
  dsimp only at hm hlow ⊢
  have hg := mapPage_served (mapPage_served hm)
  rw [Memory.fill_exhausted] at hg
  have hf := allocateFrame_served hg
  have hkernel := h.builtKernel hk hdev (allocateFrame_served hf)
  have hnull := h.builtKernel_nullTable hk hdev (allocateFrame_served hf)
  obtain ⟨hlt, -, own₃, h₃⟩ := hkernel
  generalize (createPageDirectory m).1 = Q at *
  generalize loop (fbPages M) (fun i => mapPage Q (fbPage M + i) (fbPage M + i) pageFlagKernel)
    (loop 1024 (fun i => mapPage Q i i pageFlagKernel) (createPageDirectory m).2) = m₃ at *
  have hcode := ((draws_mapPage Q userStackPage _ pageFlagUser _).low hlow).1
  have hlow₅ := ((draws_mapPage Q userFuncPage _ pageFlagUser _).low hcode).1.congr
    (Memory.fill_bitmap ..)
  obtain ⟨hlow₄, hag, -, -⟩ := hlow₅.allocated
  obtain ⟨hlow₃, haf, -, -⟩ := hlow₄.allocated
  obtain ⟨hnull₃, hi⟩ := hnull hlow₃
  have hlink := h₃.links Q (.inl (.inl rfl))
  rw [hi] at hlink
  have hserved := h₃.owned.served List.mem_cons_self hlink
  obtain ⟨hfn, h₄⟩ := h₃.owned.allocate hf
  have hQf := (hserved.allocated haf).2
  have hnull₄ := allocateFrame_nullTable m₃
  have hbits₄ := fun g (hb : m₃.bitmap g = true) => allocateFrame_bits hb
  generalize (allocateFrame m₃).1 = f at *
  generalize (allocateFrame m₃).2 = m₄ at *
  obtain ⟨-, h₅⟩ := h₄.allocate hg
  have hnull₅ := allocateFrame_nullTable m₄
  have hbits₅ := fun g (hb : m₄.bitmap g = true) => allocateFrame_bits hb
  generalize (allocateFrame m₄).1 = g at *
  generalize (allocateFrame m₄).2 = m₅ at *
  have hphys : m₅.phys = m₃.phys := by
    rw [show m₅ = _ from hag.eq, Memory.mark_phys, show m₄ = _ from haf.eq, Memory.mark_phys]
  have hentry : (m₅.fill f image).phys Q kernelIndex = m₃.phys Q kernelIndex := by
    rw [m₅.fill_ne _ hQf, hphys]
  have h₆ := h₅.fill_plain (w := image) (.inl hfn)
  have hserved₆ : Served Q (m₅.fill f image) :=
    hserved.of_eq (fun x hx => hbits₅ x (hbits₄ x hx)) hentry
  have hserved₇ : Served Q (mapPage Q userFuncPage f pageFlagUser (m₅.fill f image)) :=
    hserved₆.of_eq (fun x hx => mapPage_bits hx)
      (h₆.mapPage_entry List.mem_cons_self (by decide) hserved₆.table (mapPage_served hm))
  rw [hserved₇.mapPage_nullTable (by decide) hlow, hserved₆.mapPage_nullTable (by decide) hcode,
    Memory.fill_nullTable, hnull₅, hnull₄, hnull₃]

end Spaces

/-- A machine whose kernel needs few frames to start has found every table. -/
theorem boot_tables {M : Machine} (hlow : LowFrames (bootKernel M).memory) :
    (bootKernel M).memory.exhausted = false ∧ (bootKernel M).memory.nullTable = false ∧
      ∃ own, Sound (anyRun M) (bootKernel M) own ∧
        ∀ P ∈ spaces (bootKernel M).sched.procs,
          present ((bootKernel M).memory.phys P kernelIndex) = true := by
  have hk : ∀ t, (anyRun M).kept t := fun _ => trivial
  have hdev : ∀ i, (anyRun M).device i ↔ deviceIndex M i := fun _ => Iff.rfl
  have hr := reserveKernel_reserved M
  rw [bootKernel_memory, mainSpace_eq] at hlow ⊢
  obtain ⟨hl₁, he₂⟩ := (draws_createKernelPageDirectory M M.mainImage (idleSpace M).2).low hlow
  rw [idleSpace_eq] at hl₁
  obtain ⟨-, he₁⟩ := (draws_createKernelPageDirectory M M.idleImage (reserveKernel M)).low hl₁
  rw [hr.exhausted, ← idleSpace_eq] at he₁
  rw [he₁] at he₂
  have hidle := reserveKernel_owned M (anyRun M) hk
  have hi : (createKernelPageDirectory M M.idleImage (reserveKernel M)).2.exhausted = false := by
    rw [← idleSpace_eq, he₁]
  obtain ⟨-, -, own₁, h₁⟩ := hidle.built hk hdev M.idleImage hi
  have hnull₁ := hidle.built_nullTable hk hdev M.idleImage hi hl₁
  rw [← idleSpace_eq] at h₁ hnull₁
  have hnull₂ := h₁.owned.built_nullTable hk hdev M.mainImage he₂ hlow
  have hbx : (bootKernel M).memory.exhausted = false := by rw [bootKernel_memory, mainSpace_eq, he₂]
  obtain ⟨own, hb⟩ := boot_booted hk hdev hbx
  refine ⟨he₂, by rw [hnull₂, hnull₁, hr.nullTable], own, hb.sound hdev, ?_⟩
  rw [bootKernel_spaces, ← mainSpace_eq]
  rw [← mainSpace_eq] at hlow
  have htable : ∀ P ∈ [(mainSpace M).1, (idleSpace M).1], BootSpace M (mainSpace M).2 P →
      present ((mainSpace M).2.phys P kernelIndex) = true := by
    intro P hP hs
    have hlink := hs.links P (.inl (.inl (.inl (.inl rfl))))
    rwa [hb.owned.owned_index hlow (hb.owned.directory P hP)] at hlink
  intro P hP
  cases List.mem_cons.mp hP with
  | inl he =>
    rw [he] at hP ⊢
    exact htable _ hP hb.main
  | inr hI =>
    rw [List.mem_singleton.mp hI] at hP ⊢
    exact htable _ hP hb.idle

/-! ### Runs -/

section Runs
variable {M : Machine} {R : Regime} {own own' : Owners} {k k' : Kernel} {cur : Pcb} {ev : Event}
  {program : Option Program}

/-- Every address space is one of those before with its entries below USER_FUNC_VADDR, or a copy. -/
theorem Turn.low_entries (h : Sound R k own) (ht : Turn R own k cur ev own' k')
    (hcur : cur ∈ k.sched.procs) : ∀ P ∈ spaces k'.sched.procs, ∃ Q ∈ spaces k.sched.procs,
      ∀ i < userIndex, present (k.memory.phys Q i) = true →
        k'.memory.phys P i = k.memory.phys Q i := by
  have hold : ∀ P ∈ spaces k.sched.procs, ∃ Q ∈ spaces k.sched.procs, ∀ i < userIndex,
      present (k.memory.phys Q i) = true → k'.memory.phys P i = k.memory.phys Q i := by
    intro P hP
    have he := (ht.entries h (h.owned.directory P hP)).2
    exact ⟨P, hP, fun i hi hp => he i (Nat.lt_trans hi (by decide)) (.inl hi) hp⟩
  intro P hP
  cases ht with
  | fork _ new space =>
    rw [new.procs, spaces_append] at hP
    cases List.mem_append.mp hP with
    | inl hP => exact hold P hP
    | inr hP =>
      rw [List.mem_singleton.mp hP]
      exact ⟨_, mem_spaces hcur, fun i hi _ => space.entry_low h.owned (mem_spaces hcur) hi⟩
  | exec _ same _ => exact hold P (same ▸ hP)
  | sbrk _ _ sched _ =>
    rw [sched, spaces_setHeapBreak] at hP
    exact hold P hP
  | still _ list _ =>
    rw [list.spaces_same] at hP
    exact hold P hP
  | removed _ _ list _ _ => exact hold P (list.spaces_sublist.subset hP)

def ForkMaps (k : Kernel) : Prop :=
  ∀ cur, k.sched.currentProcess = some cur →
    present (k.memory.phys (frameOf cur.pageDirectory) ((allocateFrame k.memory).1 / 1024)) = true

/-- An entry after which the frames in use are low has found every table. -/
theorem Sound.entry_tables {regs : Registers} (h : Sound (anyRun M) k own)
    (hk : ∀ P ∈ spaces k.sched.procs, present (k.memory.phys P kernelIndex) = true)
    (hx : k.memory.exhausted = false) (he : kernelEntry k ev program = some (k', regs))
    (hlow : LowFrames k'.memory) : k'.memory.exhausted = false ∧
      k'.memory.nullTable = k.memory.nullTable ∧ (Calls ev .fork → ForkMaps k) := by
  obtain ⟨cur, env, m, out, hcur, hp, hout, -, -, hmem⟩ := kernelEntry_eq he
  have hc := (Sched.deref_mem hcur).1
  have hP := mem_spaces hc
  by_cases hall : Allocates ev
  · rw [hmem, hall.released h.sane.listed hout] at hlow ⊢
    rw [show releaseMemory none m = m from rfl] at hlow ⊢
    rcases hall with hcall | hcall | hcall
    · simp only [pagingOf, called_iff.mpr hcall] at hp
      have hm := (Prod.mk.inj (Option.some.inj hp)).2
      rw [← hm] at hlow ⊢
      obtain ⟨hmet, hnull, hmap⟩ := h.owned.fork_nullTable hP (hk _ hP) hx hlow
      refine ⟨hmet, hnull, fun _ cur' hcur' => ?_⟩
      rw [hcur] at hcur'
      cases hcur'
      exact hmap
    · have hno : ∀ {Q : Prop}, Calls ev .fork → Q := fun hf => absurd (hf.unique hcall) (by decide)
      simp only [pagingOf, called_iff.mpr hcall] at hp
      cases program with
      | none =>
        cases hp
        exact ⟨hx, rfl, hno⟩
      | some p =>
        have hm := (Prod.mk.inj (Option.some.inj hp)).2
        rw [← hm] at hlow ⊢
        obtain ⟨hmet, hnull⟩ := h.owned.exec_nullTable hP p (h.furnished cur hc) (hk _ hP) hx hlow
        exact ⟨hmet, hnull, hno⟩
    · have hno : ∀ {Q : Prop}, Calls ev .fork → Q := fun hf => absurd (hf.unique hcall) (by decide)
      simp only [pagingOf, called_iff.mpr hcall] at hp
      obtain ⟨⟨eax, brk, m₁⟩, hs, hm⟩ := Option.map_eq_some_iff.mp hp
      have hm := (Prod.mk.inj hm).2
      rw [← hm, (sbrk_returned hs).memory] at hlow ⊢
      have hmet := (Draws.low (draws_loop fun i b => draws_loadPage _ _ _ b) hlow).2
      rw [hx] at hmet
      have hload := anyRun_loadable (h.furnished cur hc) (firstPage cur.heapBreak)
        (sbrkPages cur.heapBreak (wrap ev.regs.ebx))
      exact ⟨hmet, h.owned.loadPages_nullTable hP hload (hk _ hP) hmet hlow, hno⟩
  · have hsame := pagingOf_same (fun hc => hall (.inl hc)) (fun hc => hall (.inr (.inl hc)))
      (fun hc => hall (.inr (.inr hc))) hp
    rw [hmem, releaseMemory_served, hsame.2]
    refine ⟨hx, ?_, fun hc => absurd (.inl hc) hall⟩
    cases out.released with
    | none => rfl
    | some p => exact clearPageDirectory_nullTable _ _

/- A step after which no frame from 0x800000 on is in use. -/
def LowStep (k : Kernel) (a : Action) : Prop := ∀ k', kernelStep k a = some k' → LowFrames k'.memory

structure Tabled (M : Machine) (k : Kernel) : Prop where
  met : k.memory.exhausted = false
  found : k.memory.nullTable = false
  sound : ∃ own, Sound (anyRun M) k own
  table : ∀ P ∈ spaces k.sched.procs, present (k.memory.phys P kernelIndex) = true

theorem Tabled.step {a : Action} (h : Tabled M k) (hg : LowStep k a) (hs : kernelStep k a = some k') :
    Tabled M k' := by
  obtain ⟨own, hsound⟩ := h.sound
  have hlow := hg k' hs
  cases a with
  | enter ev program =>
    obtain ⟨⟨k₁, regs⟩, he, rfl⟩ := Option.map_eq_some_iff.mp hs
    obtain ⟨hmet, hnull, -⟩ := hsound.entry_tables h.table h.met he hlow
    obtain ⟨cur, hc, -, -, own', ht⟩ := hsound.turn ((anyRun_admits M).plain k ev program trivial)
      ((anyRun_admits M).fits k own ev program hsound trivial) he hmet
    have hsound' := hsound.step (anyRun_admits M) trivial hs hmet
    refine ⟨hmet, hnull.trans h.found, hsound', fun P hP => ?_⟩
    obtain ⟨Q, hQ, hentry⟩ := ht.low_entries hsound hc P hP
    rw [hentry _ (by decide) (h.table Q hQ), h.table Q hQ]
  | store page j w =>
    obtain ⟨cur, hst⟩ := userStore_stored hs
    refine ⟨?_, ?_, ⟨own, hst.sound hsound⟩, fun P hP => ?_⟩
    · rw [hst.memory, Memory.put_exhausted, h.met]
    · rw [hst.memory, Memory.put_nullTable, h.found]
    · rw [hst.sched] at hP
      rw [hst.kept hsound (hsound.owned.directory P hP) (by simp), h.table P hP]

theorem Tabled.next {a : Action} (h : Tabled M k)
    (hs : kernelStep k a = some k') (hlow : LowFrames k'.memory) : Tabled M k' := by
  refine h.step (fun k'' he => ?_) hs
  rw [hs, Option.some.injEq] at he
  rwa [← he]

theorem Tabled.of_reach (h : Reach kernelStep LowStep (bootKernel M) k)
    (hboot : LowFrames (bootKernel M).memory) : Tabled M k := by
  refine h.invariant (Tabled M) ?_ fun _ _ _ ih hg hs => ih.step hg hs
  obtain ⟨hx, hnull, own, hs, htable⟩ := boot_tables hboot
  exact ⟨hx, hnull, ⟨own, hs⟩, htable⟩

/-- As long as no frame from 0x800000 on is in use, identity_map_in finds a table for every frame it
maps, and so does the mapping that fork writes itself. -/
theorem identity_tables (h : Reach kernelStep LowStep (bootKernel M) k)
    (hboot : LowFrames (bootKernel M).memory) : k.memory.nullTable = false ∧
      ∀ ev program k', LowStep k (.enter ev program) →
        kernelStep k (.enter ev program) = some k' → Calls ev .fork → ForkMaps k := by
  have ht := Tabled.of_reach h hboot
  obtain ⟨own, hs⟩ := ht.sound
  refine ⟨ht.found, fun ev program k' hg hstep hcall => ?_⟩
  have hlow := hg k' hstep
  obtain ⟨⟨k₁, regs⟩, he, rfl⟩ := Option.map_eq_some_iff.mp hstep
  exact (hs.entry_tables ht.table ht.met he hlow).2.2 hcall

end Runs

/-! ### The sample machine -/

theorem Filled.lowFrames {m : Memory} {n : Nat} (h : Filled m n) (hn : n ≤ highFrame) : LowFrames m :=
  fun f hf => h.below.free f (Nat.le_trans hn hf)

theorem sample_low : LowFrames (bootKernel sampleMachine).memory := by
  obtain ⟨n, -, hu, hf, -⟩ := sample_filled
  exact hf.lowFrames (Nat.le_trans hu (by decide))

/-- The sample machine's directories have no other tables. -/
theorem sample_absent {m : Memory} {P k : Nat} (h : BootSpace sampleMachine m P) (hP : P < highFrame) (hP' : 1024 ≤ P)
    (hk : k ≠ 0 ∧ k ≠ 1 ∧ k ≠ 256 ∧ k ≠ 320 ∧ k ≠ 1012) : present (m.phys P k) = false := by
  cases hp : present (m.phys P k) with
  | false => rfl
  | true =>
    obtain ⟨v, hv, rfl⟩ := h.only k hp
    simp only [bootPage, kernelPage, devicePage, sample_fbPage, sample_fbPages, userFuncPage,
      userStackPage, highFrame] at *
    omega

theorem sample_main : ∃ n, 1031 ≤ n ∧ n ≤ 1041 ∧ Filled (bootKernel sampleMachine).memory n ∧
    Tabled sampleMachine (bootKernel sampleMachine) ∧
    BootSpace sampleMachine (bootKernel sampleMachine).memory (mainSpace sampleMachine).1 ∧
    1024 < (mainSpace sampleMachine).1 ∧ (mainSpace sampleMachine).1 < highFrame := by
  obtain ⟨n, hl, hu, hf, hx⟩ := sample_filled
  obtain ⟨own, hb⟩ := boot_booted (R := anyRun sampleMachine) (fun _ => trivial) (fun _ => Iff.rfl) hx
  have hlow := sample_low
  obtain ⟨hused, hgt, -⟩ := hb.owned.backed _ _ (hb.owned.directory _ List.mem_cons_self)
  have hmain := hb.main
  rw [← bootKernel_memory] at hused hmain
  obtain ⟨hx, hnull, own', hs, htable⟩ := boot_tables hlow
  exact ⟨n, hl, hu, hf, ⟨hx, hnull, ⟨own', hs⟩, htable⟩, hmain, hgt, hlow.lt hused⟩

theorem sampleFork_low : LowStep (bootKernel sampleMachine) (.enter sampleFork none) := by
  intro k' hk'
  obtain ⟨_, k₁, _, _, -, -, he, hmem, -, -⟩ := sampleFork_runs
  rw [kernelStep, he, Option.map_some, Option.some.injEq] at hk'
  obtain ⟨n, hu, hf, -⟩ := sample_fork_filled
  rw [← hk', hmem]
  exact hf.lowFrames (Nat.le_trans hu (by decide))

theorem sampleFork_tables : ∃ k',
    kernelStep (bootKernel sampleMachine) (.enter sampleFork none) = some k' ∧
      k'.memory.nullTable = false ∧ ForkMaps (bootKernel sampleMachine) := by
  obtain ⟨_, k', _, _, -, -, he, -, -, -⟩ := sampleFork_runs
  have hstep : kernelStep (bootKernel sampleMachine) (.enter sampleFork none) = some k' := by
    rw [kernelStep, he, Option.map_some]
  exact ⟨k', hstep, (identity_tables (.tail _ .refl sampleFork_low hstep) sample_low).1,
    (identity_tables .refl sample_low).2 _ _ k' sampleFork_low hstep (by decide)⟩

theorem identityMapIn_missing {m : Memory} {P f : Nat} (h : present (m.phys P (f / 1024)) = false) :
    (identityMapIn P f m).nullTable = true := by
  unfold identityMapIn
  simp only [h, if_false, Bool.false_eq_true, Memory.put_nullTable]

/-- A page whose new table is in a frame that no table of the directory reaches. -/
theorem Filled.loadPage_missing {m : Memory} {n P page : Nat} {w : Nat → Nat} (hn : Filled m n)
    (hfit : n + 1 < numFrames) (hP : P ≠ n + 1) (hp : present (m.phys P (page / 1024)) = false)
    (ht : present (m.phys P ((n + 1) / 1024)) = false) (hi : (n + 1) / 1024 ≠ page / 1024) :
    (loadPage P page w m).nullTable = true := by
  obtain ⟨ha, hf⟩ := hn.allocate (by omega)
  obtain ⟨ha', -⟩ := hf.allocate hfit
  have hp' : present ((m.mark n true).phys P (page / 1024)) = false := by rw [Memory.mark_phys, hp]
  unfold loadPage
  dsimp only
  rw [ha]
  dsimp only
  rw [writePage, Memory.fill_nullTable, mapPage_made hp', ha']
  dsimp only
  rw [Memory.put_nullTable, identityMapIn_missing]
  rw [Memory.put_word_ne _ _ _ hi, Memory.fill_ne _ _ hP, Memory.mark_phys, Memory.mark_phys, ht]

def tableSbrk : Event := call 27 0x401000 0

theorem tableSbrk_runs : ∃ k', kernelStep (bootKernel sampleMachine) (.enter tableSbrk none) = some k' ∧
    k'.memory = loop 1025 (fun i => loadPage (mainSpace sampleMachine).1 (userHeapPage + i) fun _ => 0)
      (bootKernel sampleMachine).memory := by
  have hcount : sbrkPages 0 (wrap tableSbrk.regs.ebx) = 1025 := by decide
  have hfirst : firstPage 0 = userHeapPage := by decide
  obtain ⟨k', hs, -, -, -, hmem⟩ := (bootKernel_running sampleMachine).sbrk
    (show Calls tableSbrk .sbrk by decide) (by decide) (by decide)
  rw [hcount, hfirst] at hmem
  exact ⟨k', hs, hmem⟩

/-- The second heap table is made in a frame above 0x800000, for which main has no table. -/
theorem tableSbrk_null : (loop 1025 (fun i => loadPage (mainSpace sampleMachine).1 (userHeapPage + i)
    fun _ => 0) (bootKernel sampleMachine).memory).nullTable = true := by
  obtain ⟨n, hle, hn, hf, ht, hspace, hPgt, hPlow⟩ := sample_main
  obtain ⟨own, hs⟩ := ht.sound
  have hlisted := (bootKernel_running sampleMachine).listed
  have hfur := hs.furnished_space hlisted
  have howned := hs.owned
  have hl := ht.met
  generalize (bootKernel sampleMachine).memory = m at *
  generalize (mainSpace sampleMachine).1 = P at *
  have hnumFrames : numFrames = 32768 := rfl
  have hhigh : highFrame = 2048 := rfl
  -- the first 1024 pages share one table
  have hdraws : Draws (1024 * 1) (1024 * 2) m
      (loop 1024 (fun i => loadPage P (userHeapPage + i) fun _ => 0) m) :=
    draws_loop fun i b => draws_loadPage P _ _ b
  obtain ⟨n', hl', hu', hf', hx'⟩ := hdraws.takes n hf (by omega)
  rw [hl] at hx'
  have helse : ∀ k, k ≠ 288 → (loop 1024 (fun i => loadPage P (userHeapPage + i) fun _ => 0) m).phys P
      k = m.phys P k := by
    intro k hk
    refine howned.loadPages_elsewhere hlisted (anyRun_loadable hfur _ _) (fun i hi => ?_) hx'
    simp only [userHeapPage]
    omega
  have habsent : ∀ k, k ≠ 0 ∧ k ≠ 1 ∧ k ≠ 256 ∧ k ≠ 320 ∧ k ≠ 1012 → present (m.phys P k) = false :=
    fun k hk => sample_absent hspace hPlow (Nat.le_of_lt hPgt) hk
  rw [loop_succ]
  have hpage : (userHeapPage + 1024) / 1024 = 289 := by decide
  have hnext : (n' + 1) / 1024 = 2 ∨ (n' + 1) / 1024 = 3 := by omega
  refine hf'.loadPage_missing (by omega) (by omega) ?_ ?_ (by omega)
  · rw [hpage, helse _ (by decide), habsent _ (by decide)]
  · rw [helse _ (by omega), habsent _ (by omega)]

theorem tableSbrk_missing : ¬ ∀ M k, Reach kernelStep anyStep (bootKernel M) k →
    k.memory.nullTable = false ∧ ∀ ev program k', kernelStep k (.enter ev program) = some k' →
      Calls ev .fork → ForkMaps k := by
  intro h
  obtain ⟨k', hstep, hmem⟩ := tableSbrk_runs
  have hnull := (h sampleMachine k' (.tail _ .refl trivial hstep)).1
  rw [hmem, tableSbrk_null] at hnull
  cases hnull

end AdamOS.Paging
