import AdamOS.Kernel.AddressSpace
import AdamOS.Kernel.Ownership

/-! What identity_map_in and map_page do to the owner map and to the address spaces. map_page first
finds or makes the table of its index, then writes one entry. -/
namespace AdamOS.Paging
open AdamOS.Process AdamOS.Word AdamOS.Loop

theorem flagsOf_present (e : Nat) : flagsOf e % 2 = 1 ↔ present e = true := by
  simp only [flagsOf, present, pageSize, decide_eq_true_eq]
  omega

theorem flagsOf_user (e : Nat) : flagsOf e / 4 % 2 = 1 ↔ user e = true := by
  simp only [flagsOf, user, pageSize, decide_eq_true_eq]
  omega

theorem frame_index {f : Nat} (h : f < numFrames) : f / 1024 < userIndex := by
  simp only [numFrames, userIndex, userFuncPage] at *
  omega

theorem page_index {v : Nat} (h : userFuncPage ≤ v) : userIndex ≤ v / 1024 := by
  simp only [userIndex, userFuncPage] at *
  omega

theorem kernel_index {v : Nat} (h : v < userFuncPage) : v / 1024 < userIndex := by
  simp only [userIndex, userFuncPage] at *
  omega

def Memory.lookup (m : Memory) (P page : Nat) : Nat :=
  if present (m.phys P (page / 1024)) then m.pte P page else 0

def held (own : Owners) (g : Nat) : Prop := ∃ o, own g = some o ∧ o ≠ .low

/- What an operation that only takes frames keeps: every use, every directory entry and the contents
   of the pages. -/
structure Grows (own own' : Owners) (m m' : Memory) : Prop where
  owners : ∀ f o, own f = some o → own' f = some o
  bits : ∀ g, m.bitmap g = true → m'.bitmap g = true
  entries : ∀ Q i, own Q = some .directory → present (m.phys Q i) = true → m'.phys Q i = m.phys Q i
  pages : ∀ g P i j, own g = some (.page P i j) → m'.phys g = m.phys g

theorem Grows.refl (own : Owners) (m : Memory) : Grows own own m m :=
  ⟨fun _ _ h => h, fun _ h => h, fun _ _ _ _ => rfl, fun _ _ _ _ _ => rfl⟩

theorem Grows.trans {own own' own'' : Owners} {m m' m'' : Memory} (h : Grows own own' m m')
    (h' : Grows own' own'' m' m'') : Grows own own'' m m'' where
  owners := fun f o hf => h'.owners f o (h.owners f o hf)
  bits := fun g hg => h'.bits g (h.bits g hg)
  entries := by
    intro Q i hQ hp
    have he := h.entries Q i hQ hp
    rw [h'.entries Q i (h.owners Q _ hQ) (by rw [he]; exact hp), he]
  pages := fun g P i j hg => (h'.pages g P i j (h.owners g _ hg)).trans (h.pages g P i j hg)

section Held
variable {own own' : Owners} {f g : Nat} {o : Owner}

theorem held_directory (h : own g = some .directory) : held own g := ⟨_, h, by simp⟩

theorem held_table {P i : Nat} (h : own g = some (.table P i)) : held own g := ⟨_, h, by simp⟩

theorem held_page {P i j : Nat} (h : own g = some (.page P i j)) : held own g := ⟨_, h, by simp⟩

theorem held_mono (h : ∀ f o, own f = some o → own' f = some o) (hg : held own g) : held own' g := by
  obtain ⟨o, ho, hne⟩ := hg
  exact ⟨o, h g o ho, hne⟩

theorem owner_ne {o' : Owner} (hf : own f = some o) (hg : own g = some o') (h : o ≠ o') : f ≠ g := by
  rintro rfl
  rw [hf] at hg
  exact h (Option.some.inj hg)

theorem held_ne (hf : own f = none) (hg : held own g) : g ≠ f := by
  obtain ⟨o, ho, -⟩ := hg
  exact Owned.ne_of_none hf ho

theorem held_ne_low (hf : own f = some .low) (hg : held own g) : g ≠ f := by
  obtain ⟨o, ho, hne⟩ := hg
  rintro rfl
  rw [hf] at ho
  exact hne (Option.some.inj ho).symm

end Held

section Mapping
variable {R : Regime} {own : Owners} {dirs pending : List Nat} {m m' : Memory} {P : Nat}

theorem lookup_congr {Q v : Nat} (hd : m'.phys Q (v / 1024) = m.phys Q (v / 1024))
    (ht : present (m.phys Q (v / 1024)) = true →
      m'.phys (frameOf (m.phys Q (v / 1024))) (v % 1024) =
        m.phys (frameOf (m.phys Q (v / 1024))) (v % 1024)) : m'.lookup Q v = m.lookup Q v := by
  unfold Memory.lookup Memory.pte
  rw [hd]
  by_cases hp : present (m.phys Q (v / 1024)) = true
  · rw [if_pos hp, if_pos hp, ht hp]
  · rw [if_neg hp, if_neg hp]

/-- From USER_FUNC_VADDR on a page is accessible as its entry says, but not beside the frame
buffer. -/
theorem Owned.accessible_iff (h : Owned R own dirs pending m) (hP : P ∈ dirs) {v : Nat}
    (hv : userFuncPage ≤ v) : accessible m P v = true ↔
      ¬R.device (v / 1024) ∧ present (m.lookup P v) = true ∧ user (m.lookup P v) = true := by
  unfold accessible Memory.lookup
  cases hp : present (m.phys P (v / 1024)) with
  | false => simp
  | true =>
    have hu := h.userEntry P hP _ (page_index hv) hp
    simp only [Bool.true_and, Bool.and_eq_true, hu, if_true, and_assoc]

theorem Owned.lookup_page (h : Owned R own dirs pending m) (hP : P ∈ dirs) {v : Nat}
    (hv : userFuncPage ≤ v) (hp : present (m.lookup P v) = true) (hu : user (m.lookup P v) = true) :
    own (frameOf (m.lookup P v)) = some (.page P (v / 1024) (v % 1024)) := by
  unfold Memory.lookup at hp hu ⊢
  by_cases hpd : present (m.phys P (v / 1024)) = true
  · rw [if_pos hpd] at hp hu ⊢
    exact h.page _ P _ _ (h.table P hP _ (page_index hv) hpd) hp hu
  · rw [if_neg hpd] at hp
    cases hp

theorem Owned.accessible_page (h : Owned R own dirs pending m) (hP : P ∈ dirs) {v : Nat}
    (ha : accessible m P v = true) : ∃ Q i j, own (frameOf (m.pte P v)) = some (.page Q i j) := by
  simp only [accessible, Bool.and_eq_true] at ha
  obtain ⟨⟨⟨hp, -⟩, hpt⟩, hut⟩ := ha
  by_cases hi : v / 1024 < userIndex
  · obtain ⟨Q, i, j, -, ho⟩ := h.lowPage _ _ (h.low P hP _ hi hp).1 hut
    exact ⟨Q, i, j, ho⟩
  · exact ⟨P, _, _, h.page _ P _ _ (h.table P hP _ (Nat.le_of_not_lt hi) hp) hpt hut⟩

def LowKept (own : Owners) (m m' : Memory) : Prop :=
  ∀ T j, own T = some .low → user (m'.phys T j) = true → m'.phys T j = m.phys T j

theorem LowKept.refl (own : Owners) (m : Memory) : LowKept own m m := fun _ _ _ _ => rfl

theorem LowKept.trans {m'' : Memory} (h : LowKept own m m') (h' : LowKept own m' m'') :
    LowKept own m m'' := by
  intro T j hT hu
  have he := h' T j hT hu
  rw [he] at hu ⊢
  exact h T j hT hu

theorem LowKept.of_phys (h : ∀ T, own T = some .low → m'.phys T = m.phys T) : LowKept own m m' :=
  fun T j hT _ => by rw [h T hT]

/-! ### identity_map_in -/

@[simp] theorem identityMapIn_bitmap (P f : Nat) (m : Memory) :
    (identityMapIn P f m).bitmap = m.bitmap := by
  unfold identityMapIn
  by_cases hp : present (m.phys P (f / 1024)) <;> simp [hp]

theorem identityMapIn_phys (P f : Nat) (m : Memory) : (identityMapIn P f m).phys =
    (m.put (frameOf (m.phys P (f / 1024))) (f % 1024) (entry f pageFlagKernel)).phys := by
  unfold identityMapIn
  by_cases hp : present (m.phys P (f / 1024)) <;> simp [hp, Memory.put]

theorem identityMapIn_low (P f : Nat) (m : Memory) : LowKept own m (identityMapIn P f m) := by
  intro T j _ hu
  rw [identityMapIn_phys] at hu ⊢
  rcases put_entry_cases m (frameOf (m.phys P (f / 1024))) (f % 1024) (entry f pageFlagKernel)
    T j with ⟨-, -, he⟩ | ⟨-, he⟩
  · rw [he, user_entry] at hu
    cases hu
  · exact he

theorem Owned.of_eq (h : Owned R own dirs pending m) (hb : m'.bitmap = m.bitmap)
    (hp : m'.phys = m.phys) : Owned R own dirs pending m' :=
  h.of_agree hb (fun f _ => congrFun hp f) fun T _ _ _ => by rw [hp]

def Harmless (P f : Nat) (m : Memory) : Prop :=
  f / 1024 < userIndex ∨
    m.phys (frameOf (m.phys P (f / 1024))) (f % 1024) = entry f pageFlagKernel

/-- Identity mapping touches nothing in use but low tables. -/
theorem Owned.identityMap (h : Owned R own dirs pending m) (hP : P ∈ dirs) {f : Nat}
    (hf : Harmless P f m) : Owned R own dirs pending (identityMapIn P f m) ∧
      ∀ g, held own g → (identityMapIn P f m).phys g = m.phys g := by
  have hphys := identityMapIn_phys P f m
  have hbits := identityMapIn_bitmap P f m
  generalize identityMapIn P f m = m' at hphys hbits ⊢
  have hue : user (entry f pageFlagKernel) = false := by rw [user_entry]; rfl
  by_cases hsame : m.phys (frameOf (m.phys P (f / 1024))) (f % 1024) = entry f pageFlagKernel
  · have heq : m'.phys = m.phys := by
      rw [hphys]
      funext g k
      rcases put_entry_cases m (frameOf (m.phys P (f / 1024))) (f % 1024) (entry f pageFlagKernel)
        g k with ⟨rfl, rfl, he⟩ | ⟨-, he⟩
      · rw [he, hsame]
      · exact he
    exact ⟨h.of_eq hbits heq, fun g _ => congrFun heq g⟩
  have hlow : f / 1024 < userIndex := hf.resolve_right hsame
  by_cases hp : present (m.phys P (f / 1024)) = true
  · have hT := (h.low P hP _ hlow hp).1
    refine ⟨(h.put_lowTable hT hue).of_eq ?_ hphys, fun g hg => ?_⟩
    · rw [hbits, Memory.put_bitmap]
    · rw [hphys]
      exact m.put_frame_ne _ _ (held_ne_low hT hg)
  · have hT : own (frameOf (m.phys P (f / 1024))) = none := by
      rw [h.absent P hP _ (by simpa using hp)]
      exact h.zero
    refine ⟨(h.put_plain (.inl hT)).of_eq ?_ hphys, fun g hg => ?_⟩
    · rw [hbits, Memory.put_bitmap]
    · rw [hphys]
      exact m.put_frame_ne _ _ (held_ne hT hg)

/-- Where an entry of a user's table leads: to a frame of RAM or, in the frame buffer, to itself. -/
theorem Owned.entry_target (h : Owned R own dirs pending m) {T i j : Nat}
    (hT : own T = some (.table P i)) (hp : present (m.phys T j) = true) :
    frameOf (m.phys T j) / 1024 < userIndex ∨ m.phys T j = entry (i * 1024 + j) pageFlagKernel := by
  cases hu : user (m.phys T j) with
  | true => exact .inl (frame_index (h.backed _ _ (h.page T P i j hT hp hu)).2.2)
  | false =>
    exact (h.kernel T P i j hT hp hu).imp (fun ho => frame_index (h.backed _ _ ho).2.2) id

/-! ### map_page -/

theorem mapPage_found {page f flags : Nat} (hp : present (m.phys P (page / 1024)) = true) :
    mapPage P page f flags m =
      m.put (frameOf (m.phys P (page / 1024))) (page % 1024) (entry f (flags ||| 1)) := by
  unfold mapPage
  exact if_pos hp

theorem mapPage_made {page f flags : Nat} (hp : present (m.phys P (page / 1024)) = false) :
    mapPage P page f flags m =
      let t := (allocateFrame m).1
      let m' := (allocateFrame m).2.fill t fun _ => 0
      (identityMapIn P t (m'.put P (page / 1024) (entry t (flags ||| 1)))).put t (page % 1024)
        (entry f (flags ||| 1)) := by
  unfold mapPage
  simp only [hp, if_false, Bool.false_eq_true, createPageTable]

structure Ready (R : Regime) (own : Owners) (dirs pending : List Nat) (m : Memory) (P i : Nat)
    (own' : Owners) (m' : Memory) : Prop where
  owned : Owned R own' dirs pending m'
  owners : ∀ f o, own f = some o → own' f = some o
  news : ∀ g, m.bitmap g = true → own' g = own g
  bits : ∀ g, m.bitmap g = true → m'.bitmap g = true
  entries : ∀ k, k ≠ i ∨ present (m.phys P i) = true → m'.phys P k = m.phys P k
  kept : ∀ g, held own g → g ≠ P → m'.phys g = m.phys g

theorem Ready.refl {i : Nat} (h : Owned R own dirs pending m) :
    Ready R own dirs pending m P i own m where
  owned := h
  owners := fun _ _ hf => hf
  news := fun _ _ => rfl
  bits := fun _ hg => hg
  entries := fun _ _ => rfl
  kept := fun _ _ _ => rfl

/-- The table map_page makes, given what its frame is used for. -/
theorem Ready.made {i t flags : Nat} {o : Owner} {m₁ : Memory} (h : Owned R own dirs pending m)
    (hP : P ∈ dirs) (hp : present (m.phys P i) = false) (hspec : Allocated m t m₁)
    (ht : own t = none) (hlink : Owned R (assign own t o) dirs pending
      ((m₁.fill t fun _ => 0).put P i (entry t flags))) :
    Ready R own dirs pending m P i (assign own t o)
      (identityMapIn P t ((m₁.fill t fun _ => 0).put P i (entry t flags))) := by
  have hdir := h.directory P hP
  have hsome : ∀ f o', own f = some o' → assign own t o f = some o' := fun _ _ => assign_of_some ht
  have hPt : P ≠ t := Owned.ne_of_none ht hdir
  have hphys : m₁.phys = m.phys := by rw [show m₁ = _ from hspec.eq, Memory.mark_phys]
  obtain ⟨howned, hkeep⟩ := hlink.identityMap hP (.inl (frame_index hspec.lt))
  refine ⟨howned, hsome, fun g hg => ?_, fun g hg => ?_, fun k hk => ?_, fun g hg hgP => ?_⟩
  · refine assign_of_ne ?_
    rintro rfl
    rw [hspec.free] at hg
    cases hg
  · rw [identityMapIn_bitmap, Memory.put_bitmap, Memory.fill_bitmap, show m₁ = _ from hspec.eq]
    by_cases hgt : g = t
    · rw [hgt, Memory.mark_self]
    · rw [m.mark_of_ne true hgt, hg]
  · have hki : k ≠ i := hk.resolve_right (by simp [hp])
    rw [hkeep P (held_directory (hsome P _ hdir)), Memory.put_word_ne _ _ _ hki, m₁.fill_ne _ hPt,
      hphys]
  · rw [hkeep g (held_mono hsome hg), Memory.put_frame_ne _ _ _ hgP, m₁.fill_ne _ (held_ne ht hg),
      hphys]

/-- The entry is written to a table of P, so nothing else that is in use changes. -/
theorem Ready.grows {i T j e : Nat} {own' own'' : Owners}
    (hr : Ready R own dirs pending m P i own' m')
    (hP : own P = some .directory) (hT : own' T = some .low ∨ own' T = some (.table P i))
    (ho : ∀ f o, own' f = some o → own'' f = some o) : Grows own own'' m (m'.put T j e) := by
  have hne : ∀ {g o}, own g = some o → o ≠ .low → o ≠ .table P i →
      (m'.put T j e).phys g = m'.phys g := by
    intro g o hg hl ht
    refine m'.put_frame_ne j e ?_
    rintro rfl
    rw [hr.owners _ _ hg] at hT
    exact hT.elim (fun h => hl (Option.some.inj h)) fun h => ht (Option.some.inj h)
  refine ⟨fun f o hf => ho f o (hr.owners f o hf), fun g hg => ?_, fun Q k hQ hp => ?_,
    fun g Q k l hg => ?_⟩
  · rw [Memory.put_bitmap]
    exact hr.bits g hg
  · rw [hne hQ (by simp) (by simp)]
    by_cases hQP : Q = P
    · subst hQP
      by_cases hk : k = i
      · exact hr.entries k (.inr (hk ▸ hp))
      · exact hr.entries k (.inl hk)
    · rw [hr.kept Q (held_directory hQ) hQP]
  · have hgP : g ≠ P := by
      rintro rfl
      rw [hP] at hg
      cases hg
    rw [hne hg (by simp) (by simp), hr.kept g (held_page hg) hgP]

/-- Of the directory entries only the one of index i may change. -/
theorem Ready.elsewhere {i T j e Q k : Nat} {own' : Owners}
    (hr : Ready R own dirs pending m P i own' m')
    (hT : own' T = some .low ∨ own' T = some (.table P i)) (hQ : own Q = some .directory)
    (hne : Q ≠ P ∨ k ≠ i) : (m'.put T j e).phys Q k = m.phys Q k := by
  have hQT : Q ≠ T := by
    have hQ' := hr.owners Q _ hQ
    exact hT.elim (fun hT => owner_ne hQ' hT (by simp)) fun hT => owner_ne hQ' hT (by simp)
  rw [m'.put_frame_ne j e hQT]
  by_cases hQP : Q = P
  · subst hQP
    exact hr.entries k (.inl (hne.resolve_left fun h => h rfl))
  · rw [hr.kept Q (held_directory hQ) hQP]

structure Linked (m : Memory) (P i T : Nat) (m' : Memory) : Prop where
  link : present (m'.phys P i) = true ∧ frameOf (m'.phys P i) = T
  found : present (m.phys P i) = true → m' = m
  made : present (m.phys P i) = false → m'.phys T = fun _ => 0

theorem Owned.ready (h : Owned R own dirs pending m) (hP : P ∈ dirs) {page f : Nat} (flags : Nat)
    (hv : userFuncPage ≤ page) (hlt : R.tight → page / 1024 < 1024)
    (hfl : flags ||| 1 < pageSize) (hpr : (flags ||| 1) % 2 = 1)
    (huser : present (m.phys P (page / 1024)) = false →
      ((flags ||| 1) / 4 % 2 = 1 ↔ ¬R.device (page / 1024)))
    (hm : (mapPage P page f flags m).exhausted = false) :
    ∃ T own' m', Ready R own dirs pending m P (page / 1024) own' m' ∧
      own' T = some (.table P (page / 1024)) ∧ Linked m P (page / 1024) T m' ∧
      mapPage P page f flags m = m'.put T (page % 1024) (entry f (flags ||| 1)) := by
  have hi := page_index hv
  cases hp : present (m.phys P (page / 1024)) with
  | true =>
    refine ⟨_, own, m, .refl h, h.table P hP _ hi hp, ⟨⟨hp, rfl⟩, fun _ => rfl, fun hn => ?_⟩,
      mapPage_found hp⟩
    rw [hp] at hn
    cases hn
  | false =>
    rw [mapPage_made hp] at hm ⊢
    dsimp only at hm ⊢
    simp only [Memory.put_exhausted, identityMapIn_exhausted, Memory.fill_exhausted] at hm
    have hspec := allocateFrame_spec hm
    obtain ⟨htn, h₁⟩ := h.allocate hm
    generalize (allocateFrame m).1 = t at *
    generalize (allocateFrame m).2 = m₁ at *
    have hdir := h.directory P hP
    have hPt : P ≠ t := Owned.ne_of_none htn hdir
    have hphys : m₁.phys = m.phys := by rw [show m₁ = _ from hspec.eq, Memory.mark_phys]
    have h₂ := (h₁.fill_plain (w := fun _ => 0) (.inl htn)).makeTable (P := P) htn
      (Memory.fill_self ..) hi hlt
    have h₃ := h₂.linkTable (flags ||| 1) assign_self hP hi hfl hpr (huser hp) fun _ => by
      rw [m₁.fill_ne _ hPt, hphys]
      exact hp
    have hr := Ready.made h hP hp hspec htn h₃
    have htt : assign own t (.table P (page / 1024)) t = some (.table P (page / 1024)) := assign_self
    have hkeep := (h₃.identityMap hP (.inl (frame_index hspec.lt))).2
    refine ⟨t, _, _, hr, htt, ⟨?_, fun hn => ?_, fun _ => ?_⟩, rfl⟩
    · rw [hkeep P (held_directory (hr.owners P _ hdir)), Memory.put_self, present_entry,
        frameOf_entry hfl]
      exact ⟨decide_eq_true hpr, rfl⟩
    · rw [hp] at hn
      cases hn
    · rw [hkeep t (held_table htt), put_directory_table (hr.owners P _ hdir) htt, Memory.fill_self]

/-- Below USER_FUNC_VADDR the table is shared by forks. -/
theorem Owned.readyLow (h : Owned R own dirs pending m) (hP : P ∈ dirs) {page f : Nat} (flags : Nat)
    (hv : page < userFuncPage) (hfl : flags ||| 1 < pageSize) (hpr : (flags ||| 1) % 2 = 1)
    (hs : R.sealed → present (m.phys P (page / 1024)) = false → (flags ||| 1) / 4 % 2 ≠ 1)
    (hk : R.tight → ∀ t, R.kept t)
    (hm : (mapPage P page f flags m).exhausted = false) :
    ∃ T own' m', Ready R own dirs pending m P (page / 1024) own' m' ∧ own' T = some .low ∧
      present (m'.phys P (page / 1024)) = true ∧ frameOf (m'.phys P (page / 1024)) = T ∧
      mapPage P page f flags m = m'.put T (page % 1024) (entry f (flags ||| 1)) := by
  have hi := kernel_index hv
  cases hp : present (m.phys P (page / 1024)) with
  | true => exact ⟨_, own, m, .refl h, (h.low P hP _ hi hp).1, hp, rfl, mapPage_found hp⟩
  | false =>
    rw [mapPage_made hp] at hm ⊢
    dsimp only at hm ⊢
    simp only [Memory.put_exhausted, identityMapIn_exhausted, Memory.fill_exhausted] at hm
    have hspec := allocateFrame_spec hm
    obtain ⟨htn, h₁⟩ := h.allocate hm
    generalize (allocateFrame m).1 = t at *
    generalize (allocateFrame m).2 = m₁ at *
    have h₂ := (h₁.fill_plain (w := fun _ => 0) (.inl htn)).makeLow htn (Memory.fill_self ..)
      fun hR => hk hR t
    have htl : assign own t .low t = some .low := assign_self
    have h₃ := h₂.put_low (i := page / 1024) (e := entry t (flags ||| 1)) hP hi
      (by rw [present_entry]; exact decide_eq_true hpr) (by rw [frameOf_entry hfl, htl])
      fun hsl => by rw [user_entry]; exact decide_eq_false (hs hsl hp)
    have hr := Ready.made h hP hp hspec htn h₃
    have hdir := held_directory (hr.owners P _ (h.directory P hP))
    have hkeep := (h₃.identityMap hP (.inl (frame_index hspec.lt))).2
    refine ⟨t, _, _, hr, htl, ?_, ?_, rfl⟩
    · rw [hkeep P hdir, Memory.put_self, present_entry]
      exact decide_eq_true hpr
    · rw [hkeep P hdir, Memory.put_self, frameOf_entry hfl]

/-! ### The address spaces after map_page -/

/-- Writing one entry of a user's table changes one page of one address space. -/
theorem Ready.lookup_other {page T e : Nat} {own' : Owners}
    (hr : Ready R own dirs pending m P (page / 1024) own' m') (h : Owned R own dirs pending m)
    (hP : P ∈ dirs) (hT : own' T = some (.table P (page / 1024)))
    (hl : Linked m P (page / 1024) T m') {Q v : Nat} (hQ : Q ∈ dirs) (hv : userFuncPage ≤ v)
    (hne : Q ≠ P ∨ v ≠ page) : (m'.put T (page % 1024) e).lookup Q v = m.lookup Q v := by
  have hdir : (m'.put T (page % 1024) e).phys Q = m'.phys Q :=
    put_table_directory hT (hr.owned.directory Q hQ)
  -- the table of another index or another directory is not T
  have htable : present (m.phys Q (v / 1024)) = true → Q ≠ P ∨ v / 1024 ≠ page / 1024 →
      (m'.put T (page % 1024) e).phys (frameOf (m.phys Q (v / 1024))) =
        m.phys (frameOf (m.phys Q (v / 1024))) := by
    intro hp hne
    have ht := h.table Q hQ _ (page_index hv) hp
    have htT : frameOf (m.phys Q (v / 1024)) ≠ T := by
      intro he
      have ht' := hr.owners _ _ ht
      rw [he, hT, Option.some.injEq, Owner.table.injEq] at ht'
      exact hne.elim (fun h => h ht'.1.symm) fun h => h ht'.2.symm
    have htP : frameOf (m.phys Q (v / 1024)) ≠ P := by
      intro he
      rw [he, h.directory P hP] at ht
      cases ht
    rw [m'.put_frame_ne _ e htT, hr.kept _ (held_table ht) htP]
  by_cases hQP : Q = P
  · subst hQP
    have hvp : v ≠ page := hne.resolve_left fun h => h rfl
    by_cases hi : v / 1024 = page / 1024
    · have hj : v % 1024 ≠ page % 1024 := by omega
      have hnew : (m'.put T (page % 1024) e).lookup Q v = m'.phys T (v % 1024) := by
        unfold Memory.lookup Memory.pte
        rw [hdir, hi, if_pos hl.link.1, hl.link.2, m'.put_word_ne T e hj]
      rw [hnew]
      unfold Memory.lookup Memory.pte
      rw [hi]
      cases hp : present (m.phys Q (page / 1024)) with
      | true =>
        have hT' := hl.link.2
        rw [hl.found hp] at hT' ⊢
        rw [if_pos rfl, hT']
      | false =>
        rw [hl.made hp]
        rfl
    · have he : (m'.put T (page % 1024) e).phys Q (v / 1024) = m.phys Q (v / 1024) := by
        rw [hdir, hr.entries _ (.inl hi)]
      exact lookup_congr he fun hp => congrFun (htable hp (.inr hi)) _
  · have he : (m'.put T (page % 1024) e).phys Q = m.phys Q := by
      rw [hdir, hr.kept Q (held_directory (h.directory Q hQ)) hQP]
    exact lookup_congr (congrFun he _) fun hp => congrFun (htable hp (.inl hQP)) _

/-- Writing one entry of a low table changes no page from USER_FUNC_VADDR on. -/
theorem Ready.lookup_low {page T j e : Nat} {own' : Owners}
    (hr : Ready R own dirs pending m P (page / 1024) own' m') (h : Owned R own dirs pending m)
    (hP : P ∈ dirs) (hv : page < userFuncPage) (hT : own' T = some .low) {Q v : Nat} (hQ : Q ∈ dirs)
    (hv' : userFuncPage ≤ v) : (m'.put T j e).lookup Q v = m.lookup Q v := by
  have hne : ∀ {g}, held own g → (m'.put T j e).phys g = m'.phys g :=
    fun hg => m'.put_frame_ne j e (held_ne_low hT (held_mono hr.owners hg))
  have hdir := held_directory (h.directory Q hQ)
  have hi : v / 1024 ≠ page / 1024 := by
    have := page_index hv'
    have := kernel_index hv
    omega
  refine lookup_congr ?_ fun hp => ?_
  · rw [hne hdir]
    by_cases hQP : Q = P
    · rw [hQP, hr.entries _ (.inl hi)]
    · rw [hr.kept Q hdir hQP]
  · have ht := h.table Q hQ _ (page_index hv') hp
    have htP : frameOf (m.phys Q (v / 1024)) ≠ P := by
      intro he
      rw [he, h.directory P hP] at ht
      cases ht
    rw [hne (held_table ht), hr.kept _ (held_table ht) htP]

structure UserMapped (R : Regime) (own : Owners) (dirs pending : List Nat) (m : Memory)
    (P page f : Nat) (own' : Owners) (m' : Memory) : Prop where
  owned : Owned R own' dirs pending m'
  grows : Grows own own' m m'
  news : ∀ g, m.bitmap g = true → g ≠ f → own' g = own g
  owner : own' f = some (.page P (page / 1024) (page % 1024))
  link : present (m'.phys P (page / 1024)) = true
  mapped : m'.pte P page = entry f pageFlagUser
  others : ∀ Q ∈ dirs, ∀ v, userFuncPage ≤ v → Q ≠ P ∨ v ≠ page → m'.lookup Q v = m.lookup Q v
  elsewhere : ∀ Q ∈ dirs, ∀ i, Q ≠ P ∨ i ≠ page / 1024 → m'.phys Q i = m.phys Q i

/- A page may be mapped for the user: a low one only where losses do not count and not in a new
   table of a sealed space, one beside the frame buffer only in the table made for it, and where
   nothing is lost only one without a frame, unless that was kept. -/
structure Mappable (R : Regime) (P page : Nat) (m : Memory) : Prop where
  low : page < userFuncPage → ¬R.tight
  bound : R.tight → page / 1024 < 1024
  sealed : R.sealed → page < userFuncPage → present (m.phys P (page / 1024)) = true
  furnished : R.device (page / 1024) → present (m.phys P (page / 1024)) = true
  free : R.tight → present (m.lookup P page) = true →
    numFrames ≤ frameOf (m.lookup P page) ∨ R.kept (frameOf (m.lookup P page))

theorem Owned.mapUser {f page : Nat} (h : Owned R own dirs (f :: pending) m) (hf : own f = none)
    (hP : P ∈ dirs) (hmap : Mappable R P page m)
    (hm : (mapPage P page f pageFlagUser m).exhausted = false) :
    ∃ own', UserMapped R own dirs pending m P page f own' (mapPage P page f pageFlagUser m) := by
  have hbit := (h.fresh f List.mem_cons_self).1
  by_cases hv : userFuncPage ≤ page
  · have huser : present (m.phys P (page / 1024)) = false →
        ((pageFlagUser ||| 1) / 4 % 2 = 1 ↔ ¬R.device (page / 1024)) := by
      intro hp
      refine ⟨fun _ hd => ?_, fun _ => rfl⟩
      rw [hmap.furnished hd] at hp
      cases hp
    obtain ⟨T, own₁, m₁, hr, hT, hl, he⟩ := h.ready hP pageFlagUser hv hmap.bound (by decide) (by decide)
      huser hm
    have hfn : own₁ f = none := by rw [hr.news f hbit, hf]
    have hsome : ∀ g o, own₁ g = some o →
        assign own₁ f (.page P (page / 1024) (page % 1024)) g = some o := fun _ _ => assign_of_some hfn
    have hfree : R.tight → present (m₁.phys T (page % 1024)) = true →
        numFrames ≤ frameOf (m₁.phys T (page % 1024)) ∨ R.kept (frameOf (m₁.phys T (page % 1024))) := by
      intro hR
      cases hp : present (m.phys P (page / 1024)) with
      | true =>
        have hl' := hl.link.2
        have hfr := hmap.free hR
        rw [hl.found hp] at hl' ⊢
        rw [Memory.lookup, if_pos hp, Memory.pte, hl'] at hfr
        exact hfr
      | false =>
        rw [hl.made hp, present_zero]
        exact fun h0 => absurd h0 (by decide)
    have hatt := hr.owned.attachPage (pageFlagUser ||| 1) hfn hT (Nat.mod_lt page (by decide))
      (by decide) (by decide) (fun _ => rfl) hfree
    have hdir := hr.owned.directory P hP
    have hlink : (m₁.put T (page % 1024) (entry f (pageFlagUser ||| 1))).phys P = m₁.phys P :=
      put_table_directory hT hdir
    rw [he]
    refine ⟨_, hatt, hr.grows (h.directory P hP) (.inr hT) hsome, fun g hg hgf => ?_, assign_self,
      ?_, ?_, fun Q hQ v hv' hne => hr.lookup_other h hP hT hl hQ hv' hne,
      fun Q hQ k hne => hr.elsewhere (.inr hT) (h.directory Q hQ) hne⟩
    · rw [assign_of_ne hgf, hr.news g hg]
    · rw [hlink]
      exact hl.link.1
    · rw [Memory.pte, hlink, hl.link.2, Memory.put_self]
      rfl
  · have hlow := Nat.lt_of_not_le hv
    have hnt := hmap.low hlow
    have hold : R.sealed → present (m.phys P (page / 1024)) = false →
        (pageFlagUser ||| 1) / 4 % 2 ≠ 1 := by
      intro hs hp
      rw [hmap.sealed hs hlow] at hp
      cases hp
    obtain ⟨T, own₁, m₁, hr, hT, hlp, hlT, he⟩ := h.readyLow hP pageFlagUser hlow (by decide)
      (by decide) hold (fun ht => absurd ht hnt) hm
    have hfn : own₁ f = none := by rw [hr.news f hbit, hf]
    have hsome : ∀ g o, own₁ g = some o →
        assign own₁ f (.page P (page / 1024) (page % 1024)) g = some o := fun _ _ => assign_of_some hfn
    have hatt : Owned R (assign own₁ f (.page P (page / 1024) (page % 1024))) dirs pending
        (m₁.put T (page % 1024) (entry f (pageFlagUser ||| 1))) :=
      hr.owned.attachLow hfn hT (kernel_index hlow) (by decide) hnt
    have hdir := hr.owned.directory P hP
    have hlink : (m₁.put T (page % 1024) (entry f (pageFlagUser ||| 1))).phys P = m₁.phys P :=
      m₁.put_frame_ne _ _ (held_ne_low hT (held_directory hdir))
    rw [he]
    refine ⟨_, hatt, hr.grows (h.directory P hP) (.inl hT) hsome, fun g hg hgf => ?_, assign_self,
      ?_, ?_, fun Q hQ v hv' _ => hr.lookup_low h hP hlow hT hQ hv',
      fun Q hQ k hne => hr.elsewhere (.inl hT) (h.directory Q hQ) hne⟩
    · rw [assign_of_ne hgf, hr.news g hg]
    · rw [hlink]
      exact hlp
    · rw [Memory.pte, hlink, hlT, Memory.put_self]
      rfl

structure KernelMapped (R : Regime) (own : Owners) (dirs pending : List Nat) (m : Memory)
    (P page : Nat) (own' : Owners) (m' : Memory) : Prop where
  owned : Owned R own' dirs pending m'
  grows : Grows own own' m m'
  news : ∀ g, m.bitmap g = true → own' g = own g
  link : present (m'.phys P (page / 1024)) = true
  others : ∀ Q ∈ dirs, ∀ v, userFuncPage ≤ v → Q ≠ P ∨ v ≠ page → m'.lookup Q v = m.lookup Q v
  elsewhere : ∀ Q ∈ dirs, ∀ i, Q ≠ P ∨ i ≠ page / 1024 → m'.phys Q i = m.phys Q i

/-- A page of the frame buffer from USER_FUNC_VADDR on. -/
theorem Owned.mapDevice {page : Nat} (h : Owned R own dirs pending m) (hP : P ∈ dirs)
    (hv : userFuncPage ≤ page) (hdev : R.device (page / 1024))
    (hfree : R.tight → present (m.lookup P page) = false)
    (hm : (mapPage P page page pageFlagKernel m).exhausted = false) :
    ∃ own', KernelMapped R own dirs pending m P page own'
      (mapPage P page page pageFlagKernel m) := by
  obtain ⟨T, own₁, m₁, hr, hT, hl, he⟩ := h.ready hP pageFlagKernel hv (fun _ => (R.bounded _ hdev).2)
    (by decide) (by decide) (fun _ => by simp [pageFlagKernel, hdev]) hm
  have habsent : R.tight → present (m₁.phys T (page % 1024)) = false := by
    intro hR
    cases hp : present (m.phys P (page / 1024)) with
    | true =>
      have hl' := hl.link.2
      have hfr := hfree hR
      rw [hl.found hp] at hl' ⊢
      rw [Memory.lookup, if_pos hp, Memory.pte, hl'] at hfr
      exact hfr
    | false => rw [hl.made hp, present_zero]
  have hput := hr.owned.put_kernel (f := page) (j := page % 1024) hT hdev (by omega) fun hR hp => by
    rw [habsent hR] at hp
    cases hp
  rw [he]
  refine ⟨own₁, hput, hr.grows (h.directory P hP) (.inr hT) fun _ _ ho => ho, hr.news, ?_,
    fun Q hQ v hv' hne => hr.lookup_other h hP hT hl hQ hv' hne,
    fun Q hQ k hne => hr.elsewhere (.inr hT) (h.directory Q hQ) hne⟩
  rw [put_table_directory hT (hr.owned.directory P hP)]
  exact hl.link.1

theorem Owned.mapDevice_lookup {page : Nat} (h : Owned R own dirs pending m) (hP : P ∈ dirs)
    (hv : userFuncPage ≤ page) (hdev : R.device (page / 1024))
    (hm : (mapPage P page page pageFlagKernel m).exhausted = false) :
    (mapPage P page page pageFlagKernel m).lookup P page = entry page pageFlagKernel := by
  obtain ⟨T, own₁, m₁, hr, hT, hl, he⟩ := h.ready hP pageFlagKernel hv (fun _ => (R.bounded _ hdev).2)
    (by decide) (by decide) (fun _ => by simp [pageFlagKernel, hdev]) hm
  rw [he, Memory.lookup, Memory.pte, put_table_directory hT (hr.owned.directory P hP),
    if_pos hl.link.1, hl.link.2, Memory.put_self]
  rfl

theorem Owned.mapLow {page f : Nat} (h : Owned R own dirs pending m) (hP : P ∈ dirs)
    (hv : page < userFuncPage) (hk : R.tight → ∀ t, R.kept t)
    (hm : (mapPage P page f pageFlagKernel m).exhausted = false) :
    ∃ own', KernelMapped R own dirs pending m P page own' (mapPage P page f pageFlagKernel m) := by
  obtain ⟨T, own₁, m₁, hr, hT, hlp, -, he⟩ := h.readyLow hP pageFlagKernel hv (by decide)
    (by decide) (fun _ _ => by decide) hk hm
  have hue : user (entry f (pageFlagKernel ||| 1)) = false := by rw [user_entry]; rfl
  rw [he]
  refine ⟨own₁, hr.owned.put_lowTable hT hue, hr.grows (h.directory P hP) (.inl hT) fun _ _ ho => ho,
    hr.news, ?_, fun Q hQ v hv' _ => hr.lookup_low h hP hv hT hQ hv',
    fun Q hQ k hne => hr.elsewhere (.inl hT) (h.directory Q hQ) hne⟩
  rw [m₁.put_frame_ne _ _ (held_ne_low hT (held_directory (hr.owned.directory P hP)))]
  exact hlp

/-! ### Loading a page -/

structure PageLoaded (R : Regime) (own : Owners) (dirs : List Nat) (m : Memory) (P page : Nat)
    (w : Nat → Nat) (own' : Owners) (m' : Memory) : Prop where
  owned : Owned R own' dirs [] m'
  grows : Grows own own' m m'
  frame : ∃ f, m.bitmap f = false ∧ own' f = some (.page P (page / 1024) (page % 1024)) ∧
    m'.pte P page = entry f pageFlagUser ∧ m'.phys f = w
  link : present (m'.phys P (page / 1024)) = true
  others : ∀ Q ∈ dirs, ∀ v, userFuncPage ≤ v → Q ≠ P ∨ v ≠ page → m'.lookup Q v = m.lookup Q v
  elsewhere : ∀ Q ∈ dirs, ∀ i, Q ≠ P ∨ i ≠ page / 1024 → m'.phys Q i = m.phys Q i

/-- A write to a page keeps the directories and tables. -/
theorem Owned.fill_page {f Q i j : Nat} (h : Owned R own dirs pending m) (w : Nat → Nat)
    (hf : own f = some (.page Q i j)) : Owned R own dirs pending (m.fill f w) ∧
      ∀ g, g ≠ f → (m.fill f w).phys g = m.phys g :=
  ⟨h.fill_plain (.inr ⟨Q, i, j, hf⟩), fun _ hg => m.fill_ne w hg⟩

theorem Owned.lookup_fill {f Q i j P' v : Nat} (h : Owned R own dirs pending m) (w : Nat → Nat)
    (hf : own f = some (.page Q i j)) (hP : P' ∈ dirs) (hv : userFuncPage ≤ v) :
    (m.fill f w).lookup P' v = m.lookup P' v := by
  refine lookup_congr (congrFun (m.fill_ne w ?_) _) fun hp => congrFun (m.fill_ne w ?_) _
  · exact owner_ne (h.directory P' hP) hf (by simp)
  · exact owner_ne (h.table P' hP _ (page_index hv) hp) hf (by simp)

theorem Owned.pageMapped {page : Nat} (h : Owned R own dirs [] m) (hP : P ∈ dirs)
    (hmap : Mappable R P page m)
    (hm : (mapPage P page (allocateFrame m).1 pageFlagUser (allocateFrame m).2).exhausted = false) :
    m.bitmap (allocateFrame m).1 = false ∧ own (allocateFrame m).1 = none ∧
      ∃ own', UserMapped R own dirs [] m P page (allocateFrame m).1 own'
        (mapPage P page (allocateFrame m).1 pageFlagUser (allocateFrame m).2) := by
  have hmet := mapPage_served hm
  have hspec := allocateFrame_spec hmet
  obtain ⟨hfn, h₁⟩ := h.allocate hmet
  generalize (allocateFrame m).1 = f at *
  generalize (allocateFrame m).2 = m₁ at *
  have hphys : m₁.phys = m.phys := by rw [show m₁ = _ from hspec.eq, Memory.mark_phys]
  have hlook : ∀ Q v, m₁.lookup Q v = m.lookup Q v :=
    fun Q v => lookup_congr (by rw [hphys]) fun _ => by rw [hphys]
  have hbits : ∀ g, m.bitmap g = true → m₁.bitmap g = true := by
    intro g hg
    rw [show m₁ = _ from hspec.eq]
    by_cases hgf : g = f
    · rw [hgf, Memory.mark_self]
    · rw [m.mark_of_ne true hgf, hg]
  have hmap₁ : Mappable R P page m₁ :=
    ⟨hmap.low, hmap.bound, fun hs hlow => by rw [hphys]; exact hmap.sealed hs hlow,
      fun hd => by rw [hphys]; exact hmap.furnished hd, fun hR => by rw [hlook]; exact hmap.free hR⟩
  have hgrow : Grows own own m m₁ :=
    ⟨fun _ _ ho => ho, hbits, fun Q i _ _ => by rw [hphys], fun g _ _ _ _ => by rw [hphys]⟩
  obtain ⟨own', hu⟩ := h₁.mapUser hfn hP hmap₁ hm
  refine ⟨hspec.free, hfn, own', hu.owned, hgrow.trans hu.grows, fun g hg => hu.news g (hbits g hg),
    hu.owner, hu.link, hu.mapped, fun Q hQ v hv hne => ?_, fun Q hQ i hne => ?_⟩
  · rw [hu.others Q hQ v hv hne, hlook]
  · rw [hu.elsewhere Q hQ i hne, hphys]

/-- One round of the loops in update_page_directory and sbrk. -/
theorem Owned.pageLoaded {page : Nat} {w : Nat → Nat} (h : Owned R own dirs [] m) (hP : P ∈ dirs)
    (hmap : Mappable R P page m) (hm : (loadPage P page w m).exhausted = false) :
    ∃ own', PageLoaded R own dirs m P page w own' (loadPage P page w m) := by
  unfold loadPage at hm ⊢
  dsimp only at hm ⊢
  rw [writePage_exhausted] at hm
  obtain ⟨hfree, hfn, own₂, hu⟩ := h.pageMapped hP hmap hm
  generalize (allocateFrame m).1 = f at *
  have hfr : frameOf ((mapPage P page f pageFlagUser (allocateFrame m).2).pte P page) = f := by
    rw [hu.mapped, frameOf_entry (by decide)]
  generalize mapPage P page f pageFlagUser (allocateFrame m).2 = m₂ at hu hfr ⊢
  rw [writePage, hfr]
  obtain ⟨h₃, hkeep⟩ := hu.owned.fill_page w hu.owner
  have hdir := hkeep P (owner_ne (hu.owned.directory P hP) hu.owner (by simp))
  have hne : ∀ g o, own g = some o → g ≠ f := fun g o hg => Owned.ne_of_none hfn hg
  have htable : frameOf (m₂.phys P (page / 1024)) ≠ f := by
    by_cases hv : userFuncPage ≤ page
    · exact owner_ne (hu.owned.table P hP _ (page_index hv) hu.link) hu.owner (by simp)
    · have hi := kernel_index (Nat.lt_of_not_le hv)
      exact owner_ne (hu.owned.low P hP _ hi hu.link).1 hu.owner (by simp)
  have hg := hu.grows
  refine ⟨own₂, h₃, ⟨hg.owners, fun g hb => ?_, fun Q i hQ hp => ?_, fun g Q i j ho => ?_⟩,
    ⟨f, hfree, hu.owner, ?_, ?_⟩, ?_, ?_, ?_⟩
  · rw [Memory.fill_bitmap]
    exact hg.bits g hb
  · rw [hkeep Q (hne Q _ hQ), hg.entries Q i hQ hp]
  · rw [hkeep g (hne g _ ho), hg.pages g Q i j ho]
  · rw [Memory.pte, hdir, hkeep _ htable, ← Memory.pte]
    exact hu.mapped
  · exact Memory.fill_self ..
  · rw [hdir]
    exact hu.link
  · intro Q hQ v hv hne
    rw [hu.owned.lookup_fill w hu.owner hQ hv, hu.others Q hQ v hv hne]
  · intro Q hQ i hne'
    rw [hkeep Q (hne Q _ (h.directory Q hQ)), hu.elsewhere Q hQ i hne']

end Mapping

end AdamOS.Paging
