import AdamOS.Kernel.Spaces

/-! Which frames a new image is loaded into: allocate_frame hands them out in the order in which
the pages and their tables ask for them, and the frames still free keep what they held. -/
namespace AdamOS.Paging
open AdamOS.Process AdamOS.Word AdamOS.Loop

def allocateFrames (n : Nat) (m : Memory) : Memory := loop n (fun _ m => (allocateFrame m).2) m
def handedOut (m : Memory) (n : Nat) : Nat := (allocateFrame (allocateFrames n m)).1

section Order
variable {m m' : Memory}

theorem allocateFrame_congr (h : m'.bitmap = m.bitmap) :
    (allocateFrame m').1 = (allocateFrame m).1 ∧
      (allocateFrame m').2.bitmap = (allocateFrame m).2.bitmap := by
  have hfirst : firstFree m' = firstFree m := by rw [firstFree, firstFree, h]
  unfold allocateFrame
  rw [hfirst]
  cases firstFree m with
  | none => exact ⟨rfl, h⟩
  | some f => exact ⟨rfl, by simp only [Memory.mark, h]⟩

theorem allocateFrames_congr (h : m'.bitmap = m.bitmap) (n : Nat) :
    (allocateFrames n m').bitmap = (allocateFrames n m).bitmap := by
  induction n with
  | zero => exact h
  | succ n ih => exact (allocateFrame_congr ih).2

/-- Only the bitmap decides which frames come next. -/
theorem handedOut_congr {k : Nat} (h : m'.bitmap = (allocateFrames k m).bitmap) (n : Nat) :
    (allocateFrames n m').bitmap = (allocateFrames (k + n) m).bitmap ∧
      handedOut m' n = handedOut m (k + n) := by
  have hb : (allocateFrames n m').bitmap = (allocateFrames (k + n) m).bitmap := by
    induction n with
    | zero => exact h
    | succ n ih => exact (allocateFrame_congr ih).2
  exact ⟨hb, (allocateFrame_congr hb).1⟩

theorem mapPage_bitmap (P page f flags : Nat) (m : Memory) : (mapPage P page f flags m).bitmap =
    if present (m.phys P (page / 1024)) then m.bitmap else (allocateFrame m).2.bitmap := by
  cases hp : present (m.phys P (page / 1024)) with
  | true => rw [mapPage_found hp, Memory.put_bitmap, if_pos rfl]
  | false =>
    rw [mapPage_made hp, if_neg (by decide)]
    dsimp only
    rw [Memory.put_bitmap, identityMapIn_bitmap, Memory.put_bitmap, Memory.fill_bitmap]

theorem put_congr {g : Nat} (T j e : Nat) (h : m'.phys g = m.phys g) :
    (m'.put T j e).phys g = (m.put T j e).phys g := by
  funext k
  simp only [Memory.put, h]

end Order

section Frames
variable {R : Regime} {own own' : Owners} {dirs pending : List Nat} {m m' m'' m₀ : Memory}
  {P page f g : Nat}

/-! ### What a page leaves alone -/

/-- The entry identity_map_in writes is in a low table, or in frame 0 where there is none. -/
theorem Owned.identityMapIn_else (h : Owned R own dirs pending m) (hP : P ∈ dirs)
    (hf : f < numFrames) (h0 : g ≠ 0) (hl : own g ≠ some .low) :
    (identityMapIn P f m).phys g = m.phys g := by
  rw [identityMapIn_phys]
  refine m.put_frame_ne _ _ ?_
  rintro rfl
  cases hp : present (m.phys P (f / 1024)) with
  | true => exact hl (h.low P hP _ (frame_index hf) hp).1
  | false =>
    rw [h.absent P hP _ hp] at h0
    exact h0 rfl

/-- map_page writes to P, to its table and, where the table is new, to a low table. -/
theorem Owned.mapPage_else {flags : Nat} (h : Owned R own dirs pending m) (hP : P ∈ dirs)
    (hv : userFuncPage ≤ page) (hgP : g ≠ P) (hgT : ∀ Q i, own g ≠ some (.table Q i))
    (hgt : present (m.phys P (page / 1024)) = false → g ≠ (allocateFrame m).1)
    (hm : (mapPage P page f flags m).exhausted = false) : (mapPage P page f flags m).phys g =
      if present (m.phys P (page / 1024)) then m.phys g
      else (identityMapIn P (allocateFrame m).1 m).phys g := by
  have hi := page_index hv
  cases hp : present (m.phys P (page / 1024)) with
  | true =>
    rw [mapPage_found hp, if_pos rfl]
    refine m.put_frame_ne _ _ ?_
    rintro rfl
    exact hgT _ _ (h.table P hP _ hi hp)
  | false =>
    rw [mapPage_made hp] at hm ⊢
    dsimp only at hm ⊢
    simp only [Memory.put_exhausted, identityMapIn_exhausted, Memory.fill_exhausted] at hm
    have hspec := allocateFrame_spec hm
    obtain ⟨htn, -⟩ := h.allocate hm
    have hne := hgt hp
    generalize (allocateFrame m).1 = t at *
    generalize (allocateFrame m).2 = m₁ at *
    have hphys : m₁.phys = m.phys := by rw [show m₁ = _ from hspec.eq, Memory.mark_phys]
    have hPt : P ≠ t := Owned.ne_of_none htn (h.directory P hP)
    have hindex : t / 1024 ≠ page / 1024 := by
      have := frame_index hspec.lt
      omega
    have hword : ((m₁.fill t fun _ => 0).put P (page / 1024) (entry t (flags ||| 1))).phys P
        (t / 1024) = m.phys P (t / 1024) := by
      rw [Memory.put_word_ne _ _ _ hindex, m₁.fill_ne _ hPt, hphys]
    rw [if_neg (by decide), Memory.put_frame_ne _ _ _ hne, identityMapIn_phys, identityMapIn_phys,
      hword]
    refine put_congr _ _ _ ?_
    rw [Memory.put_frame_ne _ _ _ hgP, m₁.fill_ne _ hne, hphys]

structure LowLike (own : Owners) (P : Nat) (m₀ m' : Memory) : Prop where
  tables : ∀ T, own T = some .low → m'.phys T = m₀.phys T
  entries : ∀ i < userIndex, m'.phys P i = m₀.phys P i

theorem LowLike.refl (own : Owners) (P : Nat) (m : Memory) : LowLike own P m m :=
  ⟨fun _ _ => rfl, fun _ _ => rfl⟩

theorem LowLike.trans (h : LowLike own P m m') (h' : LowLike own P m' m'') : LowLike own P m m'' :=
  ⟨fun T hT => (h'.tables T hT).trans (h.tables T hT),
    fun i hi => (h'.entries i hi).trans (h.entries i hi)⟩

theorem LowLike.mono (h : LowLike own' P m m')
    (ho : ∀ f, own f = some .low → own' f = some .low) : LowLike own P m m' :=
  ⟨fun T hT => h.tables T (ho T hT), h.entries⟩

theorem LowLike.identityMap (h : LowLike own P m₀ m') (hf : f < numFrames)
    (hPT : P ≠ frameOf (m'.phys P (f / 1024))) :
    LowLike own P (identityMapIn P f m₀) (identityMapIn P f m') := by
  have he := h.entries _ (frame_index hf)
  rw [he] at hPT
  refine ⟨fun T hT => ?_, fun i hi => ?_⟩
  · rw [identityMapIn_phys, identityMapIn_phys, he]
    exact put_congr _ _ _ (h.tables T hT)
  · rw [identityMapIn_phys, identityMapIn_phys, he, Memory.put_frame_ne _ _ _ hPT,
      Memory.put_frame_ne _ _ _ hPT]
    exact h.entries i hi

theorem Owned.lowTable_ne (h : Owned R own dirs pending m) (hP : P ∈ dirs) (hf : f < numFrames) :
    P ≠ frameOf (m.phys P (f / 1024)) := by
  have hdir := h.directory P hP
  cases hp : present (m.phys P (f / 1024)) with
  | true => exact owner_ne hdir (h.low P hP _ (frame_index hf) hp).1 (by simp)
  | false =>
    rw [h.absent P hP _ hp]
    exact Owned.ne_of_none h.zero hdir

/-! ### One page -/

/- P has the user's page `page` in the frame handed out first, with the words w; a new table is in
   the frame handed out after it. -/
structure Opened (own : Owners) (P page : Nat) (w : Nat → Nat) (m m' : Memory) : Prop where
  pte : m'.pte P page = entry (handedOut m 0) pageFlagUser
  words : m'.phys (handedOut m 0) = w
  bitmap : m'.bitmap =
    (allocateFrames (if present (m.phys P (page / 1024)) then 1 else 2) m).bitmap
  free : ∀ g, m'.bitmap g = false → m'.phys g = m.phys g
  low : LowLike own P
    (if present (m.phys P (page / 1024)) then m else identityMapIn P (handedOut m 1) m) m'
  table : present (m.phys P (page / 1024)) = false → handedOut m 1 < numFrames

theorem identityMapIn_congr (P f : Nat) (h : m'.phys = m.phys) :
    (identityMapIn P f m').phys = (identityMapIn P f m).phys := by
  rw [identityMapIn_phys, identityMapIn_phys]
  simp only [Memory.put, h]

/-- What allocating and mapping a page leaves in a frame that it does not own. -/
theorem Owned.openPage_else (h : Owned R own dirs [] m) (hP : P ∈ dirs) (hv : userFuncPage ≤ page)
    (hm : (mapPage P page (allocateFrame m).1 pageFlagUser (allocateFrame m).2).exhausted = false)
    (hgP : g ≠ P) (hgT : ∀ Q i, own g ≠ some (.table Q i))
    (hgt : present (m.phys P (page / 1024)) = false → g ≠ handedOut m 1) :
    (mapPage P page (allocateFrame m).1 pageFlagUser (allocateFrame m).2).phys g =
      (if present (m.phys P (page / 1024)) then m else identityMapIn P (handedOut m 1) m).phys g := by
  have hmet := mapPage_served hm
  have hphys : (allocateFrame m).2.phys = m.phys := by
    rw [(allocateFrame_spec hmet).eq, Memory.mark_phys]
  obtain ⟨-, h₁⟩ := h.allocate hmet
  rw [← hphys] at hgt
  rw [h₁.mapPage_else hP hv hgP hgT hgt hm, hphys, identityMapIn_congr P _ hphys]
  cases present (m.phys P (page / 1024)) <;> rfl

/-- A new table takes a frame that is free and owned by nobody. -/
theorem Owned.tableFrame (h : Owned R own dirs [] m)
    (hm : (mapPage P page (allocateFrame m).1 pageFlagUser (allocateFrame m).2).exhausted = false)
    (hp : present (m.phys P (page / 1024)) = false) :
    own (handedOut m 1) = none ∧ handedOut m 1 < numFrames ∧ handedOut m 1 ≠ (allocateFrame m).1 ∧
      (mapPage P page (allocateFrame m).1 pageFlagUser (allocateFrame m).2).bitmap (handedOut m 1) =
        true := by
  have hmet := mapPage_served hm
  have hphys : (allocateFrame m).2.phys = m.phys := by
    rw [(allocateFrame_spec hmet).eq, Memory.mark_phys]
  obtain ⟨-, h₁⟩ := h.allocate hmet
  have hbits := mapPage_bitmap P page (allocateFrame m).1 pageFlagUser (allocateFrame m).2
  rw [hphys, hp, if_neg (by decide)] at hbits
  rw [mapPage_made (by rw [hphys]; exact hp)] at hm
  dsimp only at hm
  simp only [Memory.put_exhausted, identityMapIn_exhausted, Memory.fill_exhausted] at hm
  have hspec := allocateFrame_spec hm
  have ht : handedOut m 1 = (allocateFrame (allocateFrame m).2).1 := rfl
  refine ⟨(h₁.allocate hm).1, hspec.lt, fun he => ?_, ?_⟩
  · have hfree := hspec.free
    rw [← ht, he, (allocateFrame_spec hmet).eq, Memory.mark_self] at hfree
    cases hfree
  · rw [hbits, hspec.eq, ← ht, Memory.mark_self]

/-- The frame for the page is taken before its table, and neither is written while it is free. -/
theorem Owned.opened (h : Owned R own dirs [] m) (hP : P ∈ dirs) (hv : userFuncPage ≤ page)
    (hmap : Mappable R P page m)
    (hm : (mapPage P page (allocateFrame m).1 pageFlagUser (allocateFrame m).2).exhausted = false) :
    Opened own P page (m.phys (handedOut m 0)) m
      (mapPage P page (allocateFrame m).1 pageFlagUser (allocateFrame m).2) := by
  have hspec := allocateFrame_spec (mapPage_served hm)
  obtain ⟨-, hfn, own', hu⟩ := h.pageMapped hP hmap hm
  have helse : ∀ g, g ≠ P → (∀ Q i, own g ≠ some (.table Q i)) →
      (present (m.phys P (page / 1024)) = false → g ≠ handedOut m 1) → _ :=
    fun _ => h.openPage_else hP hv hm
  have hnew := fun hp => h.tableFrame hm hp
  have hdir := h.directory P hP
  -- a frame without an owner keeps its words through the identity mapping
  have hfree : ∀ g, own g = none → g ≠ 0 →
      (present (m.phys P (page / 1024)) = false → g ≠ handedOut m 1) →
      (mapPage P page (allocateFrame m).1 pageFlagUser (allocateFrame m).2).phys g = m.phys g := by
    intro g hg h0 ht
    rw [helse g (Owned.ne_of_none' hg hdir) (by simp [hg]) ht]
    cases hp : present (m.phys P (page / 1024)) with
    | true => rw [if_pos rfl]
    | false => rw [if_neg (by decide), h.identityMapIn_else hP (hnew hp).2.1 h0 (by simp [hg])]
  refine ⟨hu.mapped, hfree _ hfn (Nat.ne_of_gt hspec.pos) fun hp => (hnew hp).2.2.1.symm, ?_,
    fun g hg => ?_, ⟨fun T hT => ?_, fun i hi => ?_⟩, fun hp => (hnew hp).2.1⟩
  · have hphys : (allocateFrame m).2.phys = m.phys := by rw [hspec.eq, Memory.mark_phys]
    rw [mapPage_bitmap, hphys]
    cases present (m.phys P (page / 1024)) <;> rfl
  · have hgn : own g = none := by
      cases ho : own g with
      | none => rfl
      | some o => rw [(hu.owned.backed g o (hu.grows.owners g o ho)).1] at hg; cases hg
    refine hfree g hgn ?_ fun hp => ?_
    · rintro rfl
      rw [hu.owned.reserved 0 (Nat.zero_le _)] at hg
      cases hg
    · rintro rfl
      rw [(hnew hp).2.2.2] at hg
      cases hg
  · refine helse T (owner_ne hT hdir (by simp)) (by simp [hT]) fun hp => ?_
    exact Owned.ne_of_none (hnew hp).1 hT
  · have hne : i ≠ page / 1024 := by
      have := page_index hv
      omega
    rw [hu.elsewhere P hP i (.inr hne)]
    cases hp : present (m.phys P (page / 1024)) with
    | true => rw [if_pos rfl]
    | false =>
      rw [if_neg (by decide), h.identityMapIn_else hP (hnew hp).2.1 ?_ (by simp [hdir])]
      exact Owned.ne_of_none h.zero hdir

theorem Opened.write {w₀ : Nat → Nat} (h : Opened own P page w₀ m m') (hP : P ∈ dirs)
    (hv : userFuncPage ≤ page) (w : Nat → Nat)
    (hu : UserMapped R own dirs pending m P page (handedOut m 0) own' m') :
    Opened own P page w m (writePage P page w m') := by
  have hfr : frameOf (m'.pte P page) = handedOut m 0 := by
    rw [h.pte, frameOf_entry (by decide)]
  rw [writePage, hfr]
  have hdir := hu.owned.directory P hP
  have hPf : P ≠ handedOut m 0 := owner_ne hdir hu.owner (by simp)
  have htable : frameOf (m'.phys P (page / 1024)) ≠ handedOut m 0 :=
    owner_ne (hu.owned.table P hP _ (page_index hv) hu.link) hu.owner (by simp)
  refine ⟨?_, Memory.fill_self .., h.bitmap, fun g hg => ?_, ⟨fun T hT => ?_, fun i hi => ?_⟩,
    h.table⟩
  · rw [Memory.pte, m'.fill_ne w hPf, m'.fill_ne w htable, ← Memory.pte]
    exact h.pte
  · rw [Memory.fill_bitmap] at hg
    rw [m'.fill_ne w ?_, h.free g hg]
    rintro rfl
    rw [(hu.owned.backed _ _ hu.owner).1] at hg
    cases hg
  · rw [m'.fill_ne w (owner_ne (hu.grows.owners T _ hT) hu.owner (by simp)), h.low.tables T hT]
  · rw [m'.fill_ne w hPf, h.low.entries i hi]

theorem Owned.openedLoad {w : Nat → Nat} (h : Owned R own dirs [] m) (hP : P ∈ dirs)
    (hv : userFuncPage ≤ page) (hmap : Mappable R P page m)
    (hm : (loadPage P page w m).exhausted = false) :
    Opened own P page w m (loadPage P page w m) := by
  unfold loadPage at hm ⊢
  dsimp only at hm ⊢
  rw [writePage_exhausted] at hm
  obtain ⟨-, -, own', hu⟩ := h.pageMapped hP hmap hm
  exact (h.opened hP hv hmap hm).write hP hv w hu

/-! ### Page after page -/

/- The frames that n pages and the one table they need have taken. -/
def taken (n : Nat) : Nat := if n = 0 then 0 else n + 1

structure Laid (own : Owners) (P : Nat) (w : Nat → Nat → Nat) (m : Memory) (n : Nat) (m' : Memory) :
    Prop where
  pages : ∀ i < n, m'.lookup P (userFuncPage + i) = entry (handedOut m (taken i)) pageFlagUser ∧
    m'.phys (handedOut m (taken i)) = w i
  bitmap : m'.bitmap = (allocateFrames (taken n) m).bitmap
  free : ∀ g, m'.bitmap g = false → m'.phys g = m.phys g
  low : LowLike own P (if n = 0 then m else identityMapIn P (handedOut m 1) m) m'
  table : present (m'.phys P userIndex) = decide (0 < n)
  tableFrame : 0 < n → handedOut m 1 < numFrames
  elsewhere : ∀ k, k ≠ userIndex → m'.phys P k = m.phys P k

theorem Laid.zero (own : Owners) (P : Nat) (w : Nat → Nat → Nat)
    (hempty : present (m.phys P userIndex) = false) : Laid own P w m 0 m :=
  ⟨fun i hi => absurd hi (Nat.not_lt_zero i), rfl, fun _ _ => rfl, .refl own P m, hempty,
    fun hn => absurd hn (Nat.lt_irrefl 0), fun _ _ => rfl⟩

/-- A page laid before stays where it is, with its words. -/
theorem Laid.succ {w : Nat → Nat → Nat} {n : Nat} (h : Laid own P w m n m')
    (ho : Owned R own' dirs [] m') (hmono : ∀ f o, own f = some o → own' f = some o) (hP : P ∈ dirs)
    (hn : n < 1024) (hl : PageLoaded R own' dirs m' P (userFuncPage + n) (w n) own'' m'')
    (hnew : Opened own' P (userFuncPage + n) (w n) m' m'') : Laid own P w m (n + 1) m'' := by
  have hindex : (userFuncPage + n) / 1024 = userIndex := by
    simp only [userFuncPage, userIndex]
    omega
  obtain ⟨-, hfirst⟩ := handedOut_congr h.bitmap 0
  have hbits := hnew.bitmap
  have hlow := hnew.low
  have htable := hnew.table
  rw [hindex, h.table] at hbits hlow htable
  refine ⟨fun i hi => ?_, ?_, fun g hg => ?_, ?_, ?_, fun _ => ?_, fun k hk => ?_⟩
  · by_cases hin : i = n
    · subst hin
      rw [Nat.add_zero] at hfirst
      rw [← hfirst, Memory.lookup, if_pos hl.link]
      exact ⟨hnew.pte, hnew.words⟩
    · have hlt : i < n := by omega
      have hv : userFuncPage ≤ userFuncPage + i := Nat.le_add_right ..
      obtain ⟨hp, hw⟩ := h.pages i hlt
      have hown := ho.lookup_page hP hv (by rw [hp, present_entry]; decide)
        (by rw [hp, user_entry]; decide)
      rw [hp, frameOf_entry (by decide)] at hown
      rw [hl.others P hP _ hv (.inr (by omega)), hl.grows.pages _ _ _ _ hown]
      exact ⟨hp, hw⟩
  · rw [hbits, (handedOut_congr h.bitmap _).1]
    cases n with
    | zero => rfl
    | succ n => rfl
  · have hg' : m'.bitmap g = false := by
      cases hb : m'.bitmap g with
      | false => rfl
      | true => rw [hl.grows.bits g hb] at hg; cases hg
    rw [hnew.free g hg, h.free g hg']
  · have hold := h.low
    have hlow' := hlow.mono fun f => hmono f _
    cases n with
    | zero =>
      obtain ⟨-, hsecond⟩ := handedOut_congr h.bitmap 1
      have hlt : handedOut m' 1 < numFrames := htable rfl
      have hstep := (LowLike.identityMap hold hlt (ho.lowTable_ne hP hlt)).trans hlow'
      rw [hsecond] at hstep
      exact hstep
    | succ n => exact hold.trans hlow'
  · rw [← hindex, hl.link]
    exact (decide_eq_true (Nat.succ_pos n)).symm
  · cases n with
    | zero =>
      obtain ⟨-, hsecond⟩ := handedOut_congr h.bitmap 1
      have hlt : handedOut m' 1 < numFrames := htable rfl
      rw [hsecond] at hlt
      exact hlt
    | succ n => exact h.tableFrame (Nat.succ_pos n)
  · rw [hl.elsewhere P hP k (.inr (hindex ▸ hk)), h.elsewhere k hk]

/-- The frames of consecutive pages of one table that P did not have. -/
theorem Owned.laid {w : Nat → Nat → Nat} {n : Nat} (h : Owned R own dirs [] m) (hP : P ∈ dirs)
    (hl : Loadable R P userFuncPage n m) (hn : n ≤ 1024) (hempty : present (m.phys P userIndex) = false)
    (hm : (loop n (fun i => loadPage P (userFuncPage + i) (w i)) m).exhausted = false) :
    ∃ own', PagesLoaded R own dirs m P userFuncPage w n own'
        (loop n (fun i => loadPage P (userFuncPage + i) (w i)) m) ∧
      Laid own P w m n (loop n (fun i => loadPage P (userFuncPage + i) (w i)) m) := by
  refine loop_met (fun i r => ∃ own', PagesLoaded R own dirs m P userFuncPage w i own' r ∧
    Laid own P w m i r) (fun _ _ => loadPage_served) hm ⟨own, .zero h _ w, .zero own P w hempty⟩ ?_
  rintro i hi r ⟨own₁, h₁, hr⟩ hmet
  have hv : userFuncPage ≤ userFuncPage + i := Nat.le_add_right ..
  have hmap := hl.mappable h₁ (h.directory P hP) hP hi
  obtain ⟨own₂, h₂⟩ := h₁.owned.pageLoaded hP hmap hmet
  exact ⟨own₂, h₁.succ hP h₂, hr.succ h₁.owned h₁.grows.owners hP (by omega) h₂
    (h₁.owned.openedLoad hP hv hmap hmet)⟩

end Frames

end AdamOS.Paging
