import AdamOS.Kernel.PageTable

/-! Who holds which frame. An owner map names the single use of every frame in use; each operation
of page-table.c extends it or takes frames out of it, and all that is claimed about address spaces
can be read off it. -/
namespace AdamOS.Paging
open AdamOS.Process AdamOS.Word AdamOS.Loop

inductive Owner where
  | directory
  /- a table for addresses below USER_FUNC_VADDR, shared by forks -/
  | low
  /- the table of directory pd at index i -/
  | table (pd i : Nat)
  /- the page of directory pd at indices i and j -/
  | page (pd i j : Nat)
deriving DecidableEq

abbrev Owners := Nat → Option Owner

def assign (own : Owners) (f : Nat) (o : Owner) : Owners := fun g => if g = f then some o else own g

/- The conditions under which a state is described: no user table below USER_FUNC_VADDR, and no
   frame lost other than those `kept`. `device` are the indices from USER_FUNC_VADDR on at which
   the frame buffer is mapped. -/
structure Regime where
  sealed : Prop
  tight : Prop
  kept : Nat → Prop
  device : Nat → Prop
  bounded : ∀ i, device i → userIndex ≤ i ∧ i < 1024

/- No frame is lost but those that are kept: every owner is held by a directory of the list.
   `pending` are the frames allocated but not yet linked. -/
structure Tight (R : Regime) (own : Owners) (dirs pending : List Nat) (m : Memory) : Prop where
  full : ∀ f < numFrames, m.bitmap f = true → R.kept f ∨ own f ≠ none ∨ f ∈ pending
  listed : ∀ P, own P = some .directory → P ∈ dirs
  low : ∀ f, own f = some .low → R.kept f
  linked : ∀ T P i, own T = some (.table P i) → (userIndex ≤ i ∧ i < 1024) ∧
    (T ∈ pending ∨ P ∈ dirs ∧ present (m.phys P i) = true ∧ frameOf (m.phys P i) = T)
  mapped : ∀ f P i j, own f = some (.page P i j) → R.kept f ∨ j < 1024 ∧
    ∃ T, own T = some (.table P i) ∧ present (m.phys T j) = true ∧ frameOf (m.phys T j) = f

structure Owned (R : Regime) (own : Owners) (dirs pending : List Nat) (m : Memory) : Prop where
  reserved : ∀ f ≤ 1024, m.bitmap f = true
  backed : ∀ f o, own f = some o → m.bitmap f = true ∧ 1024 < f ∧ f < numFrames
  fresh : ∀ f ∈ pending, m.bitmap f = true ∧ 1024 < f ∧ f < numFrames
  directory : ∀ P ∈ dirs, own P = some .directory
  absent : ∀ P ∈ dirs, ∀ i, present (m.phys P i) = false → m.phys P i = 0
  low : ∀ P ∈ dirs, ∀ i < userIndex, present (m.phys P i) = true →
    own (frameOf (m.phys P i)) = some .low ∧ (R.sealed → user (m.phys P i) = false)
  table : ∀ P ∈ dirs, ∀ i, userIndex ≤ i → present (m.phys P i) = true →
    own (frameOf (m.phys P i)) = some (.table P i)
  page : ∀ T P i j, own T = some (.table P i) → present (m.phys T j) = true →
    user (m.phys T j) = true → own (frameOf (m.phys T j)) = some (.page P i j)
  lowPage : ∀ T j, own T = some .low → user (m.phys T j) = true →
    ∃ P i k, i < userIndex ∧ own (frameOf (m.phys T j)) = some (.page P i k)
  kernel : ∀ T P i j, own T = some (.table P i) → present (m.phys T j) = true →
    user (m.phys T j) = false →
      own (frameOf (m.phys T j)) = some (.page P i j) ∨ m.phys T j = entry (i * 1024 + j) pageFlagKernel
  userTable : ∀ T P i j, own T = some (.table P i) → ¬R.device i →
    present (m.phys T j) = true → user (m.phys T j) = true
  userEntry : ∀ P ∈ dirs, ∀ i, userIndex ≤ i → present (m.phys P i) = true →
    (user (m.phys P i) = true ↔ ¬R.device i)
  tight : R.tight → Tight R own dirs pending m

def structural (own : Owners) (f : Nat) : Prop :=
  own f = some .directory ∨ ∃ P i, own f = some (.table P i)

def plain (own : Owners) (f : Nat) : Prop := own f = none ∨ ∃ P i j, own f = some (.page P i j)

section Assign
variable {own : Owners} {f g : Nat} {o : Owner}

@[simp] theorem assign_self : assign own f o f = some o := if_pos rfl

theorem assign_of_ne (h : g ≠ f) : assign own f o g = own g := if_neg h

theorem assign_of_some {o' : Owner} (hf : own f = none) (h : own g = some o') :
    assign own f o g = some o' := by
  rw [assign_of_ne, h]
  rintro rfl
  rw [hf] at h
  cases h

theorem of_assign {o' : Owner} (h : assign own f o g = some o') (hne : o' ≠ o) :
    g ≠ f ∧ own g = some o' := by
  by_cases hg : g = f
  · rw [hg, assign_self] at h
    exact absurd (Option.some.inj h).symm hne
  · exact ⟨hg, by rwa [assign_of_ne hg] at h⟩

end Assign

theorem put_entry_cases (m : Memory) (P i e Q k : Nat) :
    Q = P ∧ k = i ∧ (m.put P i e).phys Q k = e ∨
      (Q ≠ P ∨ k ≠ i) ∧ (m.put P i e).phys Q k = m.phys Q k := by
  by_cases hQ : Q = P
  · by_cases hk : k = i
    · exact .inl ⟨hQ, hk, by rw [hQ, hk, Memory.put_self]⟩
    · exact .inr ⟨.inr hk, by rw [hQ, m.put_word_ne P e hk]⟩
  · exact .inr ⟨.inl hQ, by rw [m.put_frame_ne i e hQ]⟩

section Steps
variable {R : Regime} {own : Owners} {dirs pending : List Nat} {m m' : Memory}

theorem Owned.ne_of_none {f g : Nat} {o : Owner} (hf : own f = none) (hg : own g = some o) :
    g ≠ f := by
  rintro rfl
  rw [hf] at hg
  cases hg

theorem Owned.ne_of_none' {f g : Nat} {o : Owner} (hf : own f = none) (hg : own g = some o) :
    f ≠ g := (Owned.ne_of_none hf hg).symm

theorem Owned.zero (h : Owned R own dirs pending m) : own 0 = none := by
  cases ho : own 0 with
  | none => rfl
  | some o =>
    have := (h.backed 0 o ho).2.1
    omega

theorem structural_not_plain {f : Nat} (h : structural own f) : ¬plain own f := by
  rintro (hn | ⟨Q, k, j, hp⟩)
  · rcases h with hd | ⟨P, i, ht⟩
    · rw [hn] at hd
      cases hd
    · rw [hn] at ht
      cases ht
  · rcases h with hd | ⟨P, i, ht⟩
    · rw [hp] at hd
      cases hd
    · rw [hp] at ht
      cases ht

theorem low_not_plain {f : Nat} (h : own f = some .low) : ¬plain own f := by
  rintro (hn | ⟨Q, k, j, hp⟩)
  · rw [h] at hn
    cases hn
  · rw [h] at hp
    cases hp

theorem low_not_structural {f : Nat} (h : own f = some .low) : ¬structural own f := by
  rintro (hd | ⟨P, i, ht⟩)
  · rw [h] at hd
    cases hd
  · rw [h] at ht
    cases ht

/-- Only the bitmap and the tables matter; a low table may get more entries for the kernel. -/
theorem Owned.of_agree (h : Owned R own dirs pending m) (hb : m'.bitmap = m.bitmap)
    (hp : ∀ f, structural own f → m'.phys f = m.phys f)
    (hl : ∀ T j, own T = some .low → user (m'.phys T j) = true → m'.phys T j = m.phys T j) :
    Owned R own dirs pending m' := by
  have hd : ∀ P ∈ dirs, m'.phys P = m.phys P := fun P hP => hp P (.inl (h.directory P hP))
  have ht : ∀ T P i, own T = some (.table P i) → m'.phys T = m.phys T :=
    fun T P i hT => hp T (.inr ⟨P, i, hT⟩)
  refine ⟨hb ▸ h.reserved, hb ▸ h.backed, hb ▸ h.fresh, h.directory, ?_, ?_, ?_, ?_, ?_, ?_, ?_,
    ?_, ?_⟩
  · intro P hP i
    rw [hd P hP]
    exact h.absent P hP i
  · intro P hP i
    rw [hd P hP]
    exact h.low P hP i
  · intro P hP i
    rw [hd P hP]
    exact h.table P hP i
  · intro T P i j hT
    rw [ht T P i hT]
    exact h.page T P i j hT
  · intro T j hT hu
    have he := hl T j hT hu
    rw [he] at hu ⊢
    exact h.lowPage T j hT hu
  · intro T P i j hT
    rw [ht T P i hT]
    exact h.kernel T P i j hT
  · intro T P i j hT
    rw [ht T P i hT]
    exact h.userTable T P i j hT
  · intro P hP i
    rw [hd P hP]
    exact h.userEntry P hP i
  · intro hR
    have h' := h.tight hR
    refine ⟨hb ▸ h'.full, h'.listed, h'.low, ?_, ?_⟩
    · intro T P i hT
      obtain ⟨hi, hl⟩ := h'.linked T P i hT
      refine ⟨hi, hl.imp id fun ⟨hP, hl⟩ => ⟨hP, ?_⟩⟩
      rw [hd P hP]
      exact hl
    · intro f P i j hf
      refine (h'.mapped f P i j hf).imp id fun ⟨hj, T, hT, hl⟩ => ⟨hj, T, hT, ?_⟩
      rw [ht T P i hT]
      exact hl

/-- A write to a frame that is no directory and no table. -/
theorem Owned.put_plain (h : Owned R own dirs pending m) {f j e : Nat} (hf : plain own f) :
    Owned R own dirs pending (m.put f j e) :=
  h.of_agree (Memory.put_bitmap ..)
    (fun _ hg => m.put_frame_ne j e fun he => structural_not_plain hg (he ▸ hf))
    fun T k hT _ => congrFun (m.put_frame_ne j e fun he : T = f => low_not_plain hT (he ▸ hf)) k

theorem Owned.fill_plain (h : Owned R own dirs pending m) {f : Nat} {w : Nat → Nat}
    (hf : plain own f) : Owned R own dirs pending (m.fill f w) :=
  h.of_agree (Memory.fill_bitmap ..)
    (fun _ hg => m.fill_ne w fun he => structural_not_plain hg (he ▸ hf))
    fun T k hT _ => congrFun (m.fill_ne w fun he : T = f => low_not_plain hT (he ▸ hf)) k

theorem Owned.put_lowTable (h : Owned R own dirs pending m) {T j e : Nat} (hT : own T = some .low)
    (he : user e = false) : Owned R own dirs pending (m.put T j e) := by
  refine h.of_agree (Memory.put_bitmap ..)
    (fun _ hg => m.put_frame_ne j e fun hgT => low_not_structural hT (hgT ▸ hg)) fun T' k _ hu => ?_
  rcases put_entry_cases m T j e T' k with ⟨-, -, hc⟩ | ⟨-, hc⟩
  · rw [hc, he] at hu
    cases hu
  · exact hc

/-! ### Allocation and the first use of a frame -/

/-- An allocation that is met gives a frame nobody owns. -/
theorem Owned.allocate (h : Owned R own dirs pending m)
    (hm : (allocateFrame m).2.exhausted = false) : own (allocateFrame m).1 = none ∧
      Owned R own dirs ((allocateFrame m).1 :: pending) (allocateFrame m).2 := by
  obtain ⟨hpos, hlt, hfree, he⟩ := allocateFrame_spec hm
  generalize (allocateFrame m).1 = f at *
  generalize (allocateFrame m).2 = m' at *
  subst he
  have hf : own f = none := by
    cases ho : own f with
    | none => rfl
    | some o =>
      rw [(h.backed f o ho).1] at hfree
      cases hfree
  have hbit : ∀ g, m.bitmap g = true → (m.mark f true).bitmap g = true := by
    intro g hg
    by_cases hgf : g = f
    · rw [hgf, Memory.mark_self]
    · rw [m.mark_of_ne true hgf, hg]
  have hlow : 1024 < f := by
    by_contra hle
    rw [h.reserved f (by omega)] at hfree
    cases hfree
  refine ⟨hf, fun g hg => hbit g (h.reserved g hg), ?_, ?_, h.directory, h.absent, h.low, h.table,
    h.page, h.lowPage, h.kernel, h.userTable, h.userEntry, ?_⟩
  · intro g o ho
    obtain ⟨hg, hr⟩ := h.backed g o ho
    exact ⟨hbit g hg, hr⟩
  · intro g hg
    rcases List.mem_cons.mp hg with rfl | hg
    · exact ⟨Memory.mark_self .., hlow, hlt⟩
    · obtain ⟨hb, hr⟩ := h.fresh g hg
      exact ⟨hbit g hb, hr⟩
  · intro hR
    have h' := h.tight hR
    refine ⟨?_, h'.listed, h'.low, ?_, h'.mapped⟩
    · intro g hg hb
      by_cases hgf : g = f
      · exact .inr (.inr (hgf ▸ List.mem_cons_self))
      · rw [m.mark_of_ne true hgf] at hb
        exact (h'.full g hg hb).imp id (.imp id (List.mem_cons_of_mem f))
    · intro T P i hT
      obtain ⟨hi, hl⟩ := h'.linked T P i hT
      exact ⟨hi, hl.imp (List.mem_cons_of_mem f) id⟩

theorem Owned.reorder {dirs' pending' : List Nat} (h : Owned R own dirs pending m)
    (hd : ∀ P, P ∈ dirs' ↔ P ∈ dirs) (hp : ∀ f, f ∈ pending' ↔ f ∈ pending) :
    Owned R own dirs' pending' m := by
  refine ⟨h.reserved, h.backed, fun f hf => h.fresh f ((hp f).mp hf),
    fun P hP => h.directory P ((hd P).mp hP), fun P hP => h.absent P ((hd P).mp hP),
    fun P hP => h.low P ((hd P).mp hP), fun P hP => h.table P ((hd P).mp hP), h.page, h.lowPage,
    h.kernel, h.userTable, fun P hP => h.userEntry P ((hd P).mp hP), fun hR => ?_⟩
  have h' := h.tight hR
  refine ⟨fun f hf hb => (h'.full f hf hb).imp id (.imp id (hp f).mpr),
    fun P hP => (hd P).mpr (h'.listed P hP), h'.low, fun T P i hT => ?_, h'.mapped⟩
  obtain ⟨hi, hl⟩ := h'.linked T P i hT
  exact ⟨hi, hl.imp (hp T).mpr fun ⟨hP, hl⟩ => ⟨(hd P).mpr hP, hl⟩⟩

/-- A pending frame that gets a use is backed as the others are. -/
theorem Owned.backed_assign {f : Nat} {o' : Owner} (h : Owned R own dirs (f :: pending) m) (g : Nat)
    (o : Owner) (ho : assign own f o' g = some o) : m.bitmap g = true ∧ 1024 < g ∧ g < numFrames := by
  by_cases hg : g = f
  · exact hg ▸ h.fresh f List.mem_cons_self
  · rw [assign_of_ne hg] at ho
    exact h.backed g o ho

theorem Tight.full_assign {f : Nat} {o : Owner} (h : Tight R own dirs (f :: pending) m) (g : Nat)
    (hg : g < numFrames) (hb : m.bitmap g = true) :
    R.kept g ∨ assign own f o g ≠ none ∨ g ∈ pending := by
  by_cases hgf : g = f
  · refine .inr (.inl ?_)
    rw [hgf, assign_self]
    simp
  · rw [assign_of_ne hgf]
    exact (h.full g hg hb).imp id (.imp id fun hm => (List.mem_cons.mp hm).resolve_left hgf)

theorem Owned.unused {f : Nat} (h : Owned R own dirs pending m) (hf : numFrames ≤ f) : own f = none := by
  cases ho : own f with
  | none => rfl
  | some o =>
    have := (h.backed f o ho).2.2
    omega

theorem Owned.makeDirectory {P : Nat} (h : Owned R own dirs (P :: pending) m) (hP : own P = none)
    (hz : m.phys P = fun _ => 0) :
    Owned R (assign own P .directory) (P :: dirs) pending m := by
  have hsome : ∀ {g o}, own g = some o → assign own P .directory g = some o := assign_of_some hP
  refine ⟨h.reserved, h.backed_assign, fun g hg => h.fresh g (List.mem_cons_of_mem P hg), ?_, ?_,
    ?_, ?_, ?_, ?_, ?_, ?_, ?_, ?_⟩
  · intro Q hQ
    rcases List.mem_cons.mp hQ with rfl | hQ
    · exact assign_self
    · exact hsome (h.directory Q hQ)
  · intro Q hQ i hp
    rcases List.mem_cons.mp hQ with rfl | hQ
    · rw [hz]
    · exact h.absent Q hQ i hp
  · intro Q hQ i hi hp
    rcases List.mem_cons.mp hQ with rfl | hQ
    · simp [hz] at hp
    · exact ⟨hsome (h.low Q hQ i hi hp).1, (h.low Q hQ i hi hp).2⟩
  · intro Q hQ i hi hp
    rcases List.mem_cons.mp hQ with rfl | hQ
    · simp [hz] at hp
    · exact hsome (h.table Q hQ i hi hp)
  · intro T Q i j hT hp hu
    exact hsome (h.page T Q i j (of_assign hT (by simp)).2 hp hu)
  · intro T j hT hu
    obtain ⟨Q, i, k, hi, ho⟩ := h.lowPage T j (of_assign hT (by simp)).2 hu
    exact ⟨Q, i, k, hi, hsome ho⟩
  · exact fun T Q i j hT hp hu => (h.kernel T Q i j (of_assign hT (by simp)).2 hp hu).imp hsome id
  · exact fun T Q i j hT => h.userTable T Q i j (of_assign hT (by simp)).2
  · intro Q hQ i hi hp
    rcases List.mem_cons.mp hQ with rfl | hQ
    · simp [hz] at hp
    · exact h.userEntry Q hQ i hi hp
  · intro hR
    have h' := h.tight hR
    refine ⟨h'.full_assign, ?_, ?_, ?_, ?_⟩
    · intro Q hQ
      by_cases hQP : Q = P
      · exact hQP ▸ List.mem_cons_self
      · rw [assign_of_ne hQP] at hQ
        exact List.mem_cons_of_mem P (h'.listed Q hQ)
    · exact fun f hf => h'.low f (of_assign hf (by simp)).2
    · intro T Q i hT
      obtain ⟨hTP, hT⟩ := of_assign hT (by simp)
      obtain ⟨hi, hl⟩ := h'.linked T Q i hT
      refine ⟨hi, hl.imp (fun hm => (List.mem_cons.mp hm).resolve_left hTP) fun hl => ?_⟩
      exact ⟨List.mem_cons_of_mem P hl.1, hl.2⟩
    · intro f Q i j hf
      refine (h'.mapped f Q i j (of_assign hf (by simp)).2).imp id ?_
      exact fun ⟨hj, T, hT, hl⟩ => ⟨hj, T, hsome hT, hl⟩

/-- A zeroed frame becomes the table of an index, still to be linked. -/
theorem Owned.makeTable {t P i : Nat} (h : Owned R own dirs (t :: pending) m) (ht : own t = none)
    (hz : m.phys t = fun _ => 0) (hi : userIndex ≤ i) (hlt : R.tight → i < 1024) :
    Owned R (assign own t (.table P i)) dirs (t :: pending) m := by
  have hsome : ∀ {g o}, own g = some o → assign own t (.table P i) g = some o := assign_of_some ht
  have hold : ∀ {T Q k j}, assign own t (.table P i) T = some (.table Q k) →
      present (m.phys T j) = true → own T = some (.table Q k) := by
    intro T Q k j hT hp
    by_cases hTt : T = t
    · simp [hTt, hz] at hp
    · rwa [assign_of_ne hTt] at hT
  refine ⟨h.reserved, h.backed_assign, h.fresh, fun Q hQ => hsome (h.directory Q hQ), h.absent, ?_,
    ?_, ?_, ?_, ?_, ?_, h.userEntry, ?_⟩
  · exact fun Q hQ k hk hp => ⟨hsome (h.low Q hQ k hk hp).1, (h.low Q hQ k hk hp).2⟩
  · exact fun Q hQ k hk hp => hsome (h.table Q hQ k hk hp)
  · exact fun T Q k j hT hp hu => hsome (h.page T Q k j (hold hT hp) hp hu)
  · intro T j hT hu
    obtain ⟨Q, k, l, hk, ho⟩ := h.lowPage T j (of_assign hT (by simp)).2 hu
    exact ⟨Q, k, l, hk, hsome ho⟩
  · exact fun T Q k j hT hp hu => (h.kernel T Q k j (hold hT hp) hp hu).imp hsome id
  · exact fun T Q k j hT hd hp => h.userTable T Q k j (hold hT hp) hd hp
  · intro hR
    have h' := h.tight hR
    refine ⟨?_, fun Q hQ => h'.listed Q (of_assign hQ (by simp)).2, ?_, ?_, ?_⟩
    · intro g hg hb
      by_cases hgt : g = t
      · exact .inr (.inr (hgt ▸ List.mem_cons_self))
      · rw [assign_of_ne hgt]
        exact h'.full g hg hb
    · exact fun f hf => h'.low f (of_assign hf (by simp)).2
    · intro T Q k hT
      by_cases hTt : T = t
      · rw [hTt, assign_self] at hT
        cases hT
        exact ⟨⟨hi, hlt hR⟩, .inl (hTt ▸ List.mem_cons_self)⟩
      · rw [assign_of_ne hTt] at hT
        exact h'.linked T Q k hT
    · intro f Q k j hf
      refine (h'.mapped f Q k j (of_assign hf (by simp)).2).imp id ?_
      exact fun ⟨hj, T, hT, hl⟩ => ⟨hj, T, hsome hT, hl⟩

/-! ### Directory entries -/

theorem put_directory_table {P i e T Q k : Nat} (hP : own P = some .directory)
    (hT : own T = some (.table Q k)) : (m.put P i e).phys T = m.phys T := by
  refine m.put_frame_ne i e ?_
  rintro rfl
  rw [hP] at hT
  cases hT

theorem put_directory_low {P i e T : Nat} (hP : own P = some .directory)
    (hT : own T = some .low) : (m.put P i e).phys T = m.phys T := by
  refine m.put_frame_ne i e ?_
  rintro rfl
  rw [hP] at hT
  cases hT

theorem Tight.linkTable {t P i flags : Nat} (h : Tight R own dirs (t :: pending) m)
    (ht : own t = some (.table P i)) (hP : P ∈ dirs) (hdir : own P = some .directory)
    (hfl : flags < pageSize) (hpe : present (entry t flags) = true)
    (hfree : present (m.phys P i) = false) :
    Tight R own dirs pending (m.put P i (entry t flags)) := by
  refine ⟨?_, h.listed, h.low, ?_, ?_⟩
  · intro g hg hb
    rcases h.full g hg hb with hg | hg | hg
    · exact .inl hg
    · exact .inr (.inl hg)
    · rcases List.mem_cons.mp hg with rfl | hg
      · exact .inr (.inl (by rw [ht]; simp))
      · exact .inr (.inr hg)
  · intro T Q k hT'
    obtain ⟨hk, hl⟩ := h.linked T Q k hT'
    refine ⟨hk, ?_⟩
    rcases put_entry_cases m P i (entry t flags) Q k with ⟨rfl, rfl, he⟩ | ⟨hne, he⟩
    · by_cases hTt : T = t
      · exact .inr ⟨hP, by rw [he, hpe], by rw [he, frameOf_entry hfl, hTt]⟩
      · refine .inl ?_
        rcases hl with hm | ⟨-, hp, -⟩
        · exact (List.mem_cons.mp hm).resolve_left hTt
        · rw [hfree] at hp
          cases hp
    · rw [he]
      refine hl.imp (fun hm => ?_) id
      refine (List.mem_cons.mp hm).resolve_left ?_
      rintro rfl
      rw [ht] at hT'
      cases hT'
      exact hne.elim (fun hne => hne rfl) fun hne => hne rfl
  · intro f Q k j hf
    refine (h.mapped f Q k j hf).imp id fun ⟨hj, T, hT', hl⟩ => ⟨hj, T, hT', ?_⟩
    rw [put_directory_table hdir hT']
    exact hl

/-- A pending table is linked at an index that was free. -/
theorem Owned.linkTable {t P i : Nat} (h : Owned R own dirs (t :: pending) m) (flags : Nat)
    (ht : own t = some (.table P i)) (hP : P ∈ dirs) (hi : userIndex ≤ i)
    (hfl : flags < pageSize) (hpr : flags % 2 = 1) (huser : flags / 4 % 2 = 1 ↔ ¬R.device i)
    (hfree : R.tight → present (m.phys P i) = false) :
    Owned R own dirs pending (m.put P i (entry t flags)) := by
  have hdir := h.directory P hP
  have hpe : present (entry t flags) = true := by simpa [present_entry] using hpr
  refine ⟨h.reserved, h.backed, fun g hg => h.fresh g (List.mem_cons_of_mem t hg), h.directory,
    ?_, ?_, ?_, ?_, ?_, ?_, ?_, ?_,
    fun hR => (h.tight hR).linkTable ht hP hdir hfl hpe (hfree hR)⟩
  · intro Q hQ k hp
    rcases put_entry_cases m P i (entry t flags) Q k with ⟨-, -, he⟩ | ⟨-, he⟩
    · rw [he, hpe] at hp
      cases hp
    · rw [he] at hp ⊢
      exact h.absent Q hQ k hp
  · intro Q hQ k hk hp
    rcases put_entry_cases m P i (entry t flags) Q k with ⟨-, rfl, he⟩ | ⟨-, he⟩
    · omega
    · rw [he] at hp ⊢
      exact h.low Q hQ k hk hp
  · intro Q hQ k hk hp
    rcases put_entry_cases m P i (entry t flags) Q k with ⟨rfl, rfl, he⟩ | ⟨-, he⟩
    · rw [he, frameOf_entry hfl, ht]
    · rw [he] at hp ⊢
      exact h.table Q hQ k hk hp
  · intro T Q k j hT'
    rw [put_directory_table hdir hT']
    exact h.page T Q k j hT'
  · intro T j hT'
    rw [put_directory_low hdir hT']
    exact h.lowPage T j hT'
  · intro T Q k j hT'
    rw [put_directory_table hdir hT']
    exact h.kernel T Q k j hT'
  · intro T Q k j hT'
    rw [put_directory_table hdir hT']
    exact h.userTable T Q k j hT'
  · intro Q hQ k hk hp
    rcases put_entry_cases m P i (entry t flags) Q k with ⟨-, rfl, he⟩ | ⟨-, he⟩
    · rw [he, user_entry, decide_eq_true_eq]
      exact huser
    · rw [he] at hp ⊢
      exact h.userEntry Q hQ k hk hp

/-- An entry below USER_FUNC_VADDR changes none of the tables above it. -/
theorem Owned.put_low {P i e : Nat} (h : Owned R own dirs pending m) (hP : P ∈ dirs)
    (hi : i < userIndex) (hpe : present e = true) (he : own (frameOf e) = some .low)
    (hu : R.sealed → user e = false) : Owned R own dirs pending (m.put P i e) := by
  have hdir := h.directory P hP
  refine ⟨h.reserved, h.backed, h.fresh, h.directory, ?_, ?_, ?_, ?_, ?_, ?_, ?_, ?_, ?_⟩
  · intro Q hQ k hp
    rcases put_entry_cases m P i e Q k with ⟨-, -, hc⟩ | ⟨-, hc⟩
    · rw [hc, hpe] at hp
      cases hp
    · rw [hc] at hp ⊢
      exact h.absent Q hQ k hp
  · intro Q hQ k hk hp
    rcases put_entry_cases m P i e Q k with ⟨-, -, hc⟩ | ⟨-, hc⟩
    · rw [hc]
      exact ⟨he, hu⟩
    · rw [hc] at hp ⊢
      exact h.low Q hQ k hk hp
  · intro Q hQ k hk hp
    rcases put_entry_cases m P i e Q k with ⟨-, rfl, -⟩ | ⟨-, hc⟩
    · omega
    · rw [hc] at hp ⊢
      exact h.table Q hQ k hk hp
  · intro T Q k j hT
    rw [put_directory_table hdir hT]
    exact h.page T Q k j hT
  · intro T j hT
    rw [put_directory_low hdir hT]
    exact h.lowPage T j hT
  · intro T Q k j hT
    rw [put_directory_table hdir hT]
    exact h.kernel T Q k j hT
  · intro T Q k j hT
    rw [put_directory_table hdir hT]
    exact h.userTable T Q k j hT
  · intro Q hQ k hk hp
    rcases put_entry_cases m P i e Q k with ⟨-, rfl, -⟩ | ⟨-, hc⟩
    · omega
    · rw [hc] at hp ⊢
      exact h.userEntry Q hQ k hk hp
  · intro hR
    have h' := h.tight hR
    refine ⟨h'.full, h'.listed, h'.low, ?_, ?_⟩
    · intro T Q k hT
      obtain ⟨hk, hl⟩ := h'.linked T Q k hT
      rcases put_entry_cases m P i e Q k with ⟨-, rfl, -⟩ | ⟨-, hc⟩
      · omega
      · rw [hc]
        exact ⟨hk, hl⟩
    · intro f Q k j hf
      refine (h'.mapped f Q k j hf).imp id fun ⟨hj, T, hT, hl⟩ => ⟨hj, T, hT, ?_⟩
      rw [put_directory_table hdir hT]
      exact hl

/-- A zeroed frame becomes a table below USER_FUNC_VADDR. -/
theorem Owned.makeLow {t : Nat} (h : Owned R own dirs (t :: pending) m) (ht : own t = none)
    (hz : m.phys t = fun _ => 0) (hk : R.tight → R.kept t) :
    Owned R (assign own t .low) dirs pending m := by
  have hsome : ∀ {g o}, own g = some o → assign own t .low g = some o := assign_of_some ht
  refine ⟨h.reserved, h.backed_assign, fun g hg => h.fresh g (List.mem_cons_of_mem t hg),
    fun Q hQ => hsome (h.directory Q hQ), h.absent, ?_, ?_, ?_, ?_, ?_, ?_, h.userEntry, ?_⟩
  · exact fun Q hQ k hk hp => ⟨hsome (h.low Q hQ k hk hp).1, (h.low Q hQ k hk hp).2⟩
  · exact fun Q hQ k hk hp => hsome (h.table Q hQ k hk hp)
  · exact fun T Q k j hT hp hu => hsome (h.page T Q k j (of_assign hT (by simp)).2 hp hu)
  · intro T j hT hu
    by_cases hTt : T = t
    · simp [hTt, hz] at hu
    · rw [assign_of_ne hTt] at hT
      obtain ⟨Q, k, l, hk, ho⟩ := h.lowPage T j hT hu
      exact ⟨Q, k, l, hk, hsome ho⟩
  · exact fun T Q k j hT hp hu => (h.kernel T Q k j (of_assign hT (by simp)).2 hp hu).imp hsome id
  · exact fun T Q k j hT => h.userTable T Q k j (of_assign hT (by simp)).2
  · intro hR
    have h' := h.tight hR
    refine ⟨h'.full_assign, fun Q hQ => h'.listed Q (of_assign hQ (by simp)).2, ?_, ?_, ?_⟩
    · intro f hf
      by_cases hft : f = t
      · exact hft ▸ hk hR
      · rw [assign_of_ne hft] at hf
        exact h'.low f hf
    · intro T Q k hT
      obtain ⟨hTt, hT⟩ := of_assign hT (by simp)
      obtain ⟨hk, hl⟩ := h'.linked T Q k hT
      exact ⟨hk, hl.imp (fun hm => (List.mem_cons.mp hm).resolve_left hTt) id⟩
    · intro f Q k j hf
      refine (h'.mapped f Q k j (of_assign hf (by simp)).2).imp id ?_
      exact fun ⟨hj, T, hT, hl⟩ => ⟨hj, T, hsome hT, hl⟩

/-! ### Table entries -/

theorem put_table_directory {T Q k j e P : Nat} (hT : own T = some (.table Q k))
    (hP : own P = some .directory) : (m.put T j e).phys P = m.phys P := by
  refine m.put_frame_ne j e ?_
  rintro rfl
  rw [hP] at hT
  cases hT

theorem Tight.attachPage {f T P i j flags : Nat} (h : Tight R own dirs (f :: pending) m)
    (hdirs : ∀ Q ∈ dirs, own Q = some .directory) (hf : own f = none)
    (hT : own T = some (.table P i)) (hj : j < 1024) (hfl : flags < pageSize)
    (hpe : present (entry f flags) = true) (hfree : present (m.phys T j) = true →
      own (frameOf (m.phys T j)) = none ∨ R.kept (frameOf (m.phys T j))) :
    Tight R (assign own f (.page P i j)) dirs pending (m.put T j (entry f flags)) := by
  have hsome : ∀ {g o}, own g = some o → assign own f (.page P i j) g = some o := assign_of_some hf
  refine ⟨h.full_assign, fun Q hQ => h.listed Q (of_assign hQ (by simp)).2, ?_, ?_, ?_⟩
  · exact fun g hg => h.low g (of_assign hg (by simp)).2
  · intro T' Q k hT'
    obtain ⟨hne, hT'⟩ := of_assign hT' (by simp)
    obtain ⟨hk, hl⟩ := h.linked T' Q k hT'
    refine ⟨hk, hl.imp (fun hm => (List.mem_cons.mp hm).resolve_left hne) fun hl => ?_⟩
    rw [put_table_directory hT (hdirs Q hl.1)]
    exact hl
  · intro g Q k l hg
    by_cases hgf : g = f
    · rw [hgf, assign_self] at hg
      cases hg
      exact .inr ⟨hj, T, hsome hT, by rw [Memory.put_self, hpe],
        by rw [Memory.put_self, frameOf_entry hfl, hgf]⟩
    · rw [assign_of_ne hgf] at hg
      obtain hk | ⟨hl, T', hT', hp, hfr⟩ := h.mapped g Q k l hg
      · exact .inl hk
      rcases put_entry_cases m T j (entry f flags) T' l with ⟨rfl, rfl, -⟩ | ⟨-, he⟩
      · -- the frame that was mapped here is nobody's, or kept
        have hlost := hfree hp
        rw [hfr] at hlost
        rcases hlost with hno | hk
        · rw [hg] at hno
          cases hno
        · exact .inl hk
      · refine .inr ⟨hl, T', hsome hT', ?_⟩
        rw [he]
        exact ⟨hp, hfr⟩

/-- A pending frame is mapped in a table, at a place that had no frame in use, unless it was kept. -/
theorem Owned.attachPage {f T P i j : Nat} (h : Owned R own dirs (f :: pending) m) (flags : Nat)
    (hf : own f = none) (hT : own T = some (.table P i)) (hj : j < 1024)
    (hfl : flags < pageSize) (hpr : flags % 2 = 1) (huser : ¬R.device i → flags / 4 % 2 = 1)
    (hR : R.tight → present (m.phys T j) = true →
      numFrames ≤ frameOf (m.phys T j) ∨ R.kept (frameOf (m.phys T j))) :
    Owned R (assign own f (.page P i j)) dirs pending (m.put T j (entry f flags)) := by
  have hsome : ∀ {g o}, own g = some o → assign own f (.page P i j) g = some o := assign_of_some hf
  have hpe : present (entry f flags) = true := by simpa [present_entry] using hpr
  have hd : ∀ Q ∈ dirs, (m.put T j (entry f flags)).phys Q = m.phys Q :=
    fun Q hQ => put_table_directory hT (h.directory Q hQ)
  have htab : ∀ {T' Q k}, assign own f (.page P i j) T' = some (.table Q k) →
      T' ≠ f ∧ own T' = some (.table Q k) := fun hT' => of_assign hT' (by simp)
  have hlow : ∀ {T'}, assign own f (.page P i j) T' = some .low →
      own T' = some .low ∧ (m.put T j (entry f flags)).phys T' = m.phys T' := by
    intro T' hT'
    have hl := (of_assign hT' (by simp)).2
    refine ⟨hl, m.put_frame_ne j _ ?_⟩
    rintro rfl
    rw [hT] at hl
    cases hl
  refine ⟨h.reserved, h.backed_assign, fun g hg => h.fresh g (List.mem_cons_of_mem f hg),
    fun Q hQ => hsome (h.directory Q hQ), ?_, ?_, ?_, ?_, ?_, ?_, ?_, ?_, fun hR' =>
      (h.tight hR').attachPage h.directory hf hT hj hfl hpe fun hp => (hR hR' hp).imp h.unused id⟩
  · intro Q hQ k
    rw [hd Q hQ]
    exact h.absent Q hQ k
  · intro Q hQ k hk
    rw [hd Q hQ]
    exact fun hp => ⟨hsome (h.low Q hQ k hk hp).1, (h.low Q hQ k hk hp).2⟩
  · intro Q hQ k hk
    rw [hd Q hQ]
    exact fun hp => hsome (h.table Q hQ k hk hp)
  · intro T' Q k l hT' hp hu
    obtain ⟨-, hold⟩ := htab hT'
    rcases put_entry_cases m T j (entry f flags) T' l with ⟨rfl, rfl, he⟩ | ⟨-, he⟩
    · rw [hT] at hold
      cases hold
      rw [he, frameOf_entry hfl, assign_self]
    · rw [he] at hp hu ⊢
      exact hsome (h.page T' Q k l hold hp hu)
  · intro T' l hT' hu
    obtain ⟨hl, he⟩ := hlow hT'
    rw [he] at hu ⊢
    obtain ⟨Q, k, n, hk, ho⟩ := h.lowPage T' l hl hu
    exact ⟨Q, k, n, hk, hsome ho⟩
  · intro T' Q k l hT' hp hu
    obtain ⟨-, hold⟩ := htab hT'
    rcases put_entry_cases m T j (entry f flags) T' l with ⟨rfl, rfl, he⟩ | ⟨-, he⟩
    · rw [hT] at hold
      cases hold
      rw [he, frameOf_entry hfl]
      exact .inl assign_self
    · rw [he] at hp hu ⊢
      exact (h.kernel T' Q k l hold hp hu).imp hsome id
  · intro T' Q k l hT' hdev hp
    obtain ⟨-, hold⟩ := htab hT'
    rcases put_entry_cases m T j (entry f flags) T' l with ⟨rfl, rfl, he⟩ | ⟨-, he⟩
    · rw [hT] at hold
      cases hold
      rw [he, user_entry, decide_eq_true_eq]
      exact huser hdev
    · rw [he] at hp ⊢
      exact h.userTable T' Q k l hold hdev hp
  · intro Q hQ k hk
    rw [hd Q hQ]
    exact h.userEntry Q hQ k hk

/-- A pending frame is mapped for the user in a low table. -/
theorem Owned.attachLow {f T P i k j flags : Nat} (h : Owned R own dirs (f :: pending) m)
    (hf : own f = none) (hT : own T = some .low) (hi : i < userIndex) (hfl : flags < pageSize)
    (hR : ¬R.tight) :
    Owned R (assign own f (.page P i k)) dirs pending (m.put T j (entry f flags)) := by
  have hsome : ∀ {g o}, own g = some o → assign own f (.page P i k) g = some o := assign_of_some hf
  have hkeep : ∀ {g o}, own g = some o → o ≠ .low →
      (m.put T j (entry f flags)).phys g = m.phys g := by
    intro g o hg ho
    refine m.put_frame_ne j _ ?_
    rintro rfl
    rw [hT] at hg
    exact ho (Option.some.inj hg).symm
  have hd : ∀ Q ∈ dirs, (m.put T j (entry f flags)).phys Q = m.phys Q :=
    fun Q hQ => hkeep (h.directory Q hQ) (by simp)
  have htab : ∀ {T' Q l}, assign own f (.page P i k) T' = some (.table Q l) →
      own T' = some (.table Q l) ∧ (m.put T j (entry f flags)).phys T' = m.phys T' := by
    intro T' Q l hT'
    have ho := (of_assign hT' (by simp)).2
    exact ⟨ho, hkeep ho (by simp)⟩
  refine ⟨h.reserved, h.backed_assign, fun g hg => h.fresh g (List.mem_cons_of_mem f hg),
    fun Q hQ => hsome (h.directory Q hQ), ?_, ?_, ?_, ?_, ?_, ?_, ?_, ?_, fun ht => absurd ht hR⟩
  · intro Q hQ l
    rw [hd Q hQ]
    exact h.absent Q hQ l
  · intro Q hQ l hl
    rw [hd Q hQ]
    exact fun hp => ⟨hsome (h.low Q hQ l hl hp).1, (h.low Q hQ l hl hp).2⟩
  · intro Q hQ l hl
    rw [hd Q hQ]
    exact fun hp => hsome (h.table Q hQ l hl hp)
  · intro T' Q l n hT'
    obtain ⟨ho, he⟩ := htab hT'
    rw [he]
    exact fun hp hu => hsome (h.page T' Q l n ho hp hu)
  · intro T' l hT' hu
    have ho := (of_assign hT' (by simp)).2
    rcases put_entry_cases m T j (entry f flags) T' l with ⟨rfl, rfl, he⟩ | ⟨-, he⟩
    · rw [he, frameOf_entry hfl, assign_self]
      exact ⟨P, i, k, hi, rfl⟩
    · rw [he] at hu ⊢
      obtain ⟨Q, n, n', hn, hq⟩ := h.lowPage T' l ho hu
      exact ⟨Q, n, n', hn, hsome hq⟩
  · intro T' Q l n hT'
    obtain ⟨ho, he⟩ := htab hT'
    rw [he]
    exact fun hp hu => (h.kernel T' Q l n ho hp hu).imp hsome id
  · intro T' Q l n hT'
    obtain ⟨ho, he⟩ := htab hT'
    rw [he]
    exact h.userTable T' Q l n ho
  · intro Q hQ l hl
    rw [hd Q hQ]
    exact h.userEntry Q hQ l hl

/-- The identity mapping of a page of the frame buffer; where nothing is lost it replaces at most
itself. -/
theorem Owned.put_kernel {T P i j f : Nat} (h : Owned R own dirs pending m)
    (hT : own T = some (.table P i)) (hdev : R.device i) (hf : f = i * 1024 + j)
    (hR : R.tight → present (m.phys T j) = true → m.phys T j = entry f pageFlagKernel) :
    Owned R own dirs pending (m.put T j (entry f pageFlagKernel)) := by
  have hd : ∀ Q ∈ dirs, (m.put T j (entry f pageFlagKernel)).phys Q = m.phys Q :=
    fun Q hQ => put_table_directory hT (h.directory Q hQ)
  have hue : user (entry f pageFlagKernel) = false := by rw [user_entry]; rfl
  refine ⟨h.reserved, h.backed, h.fresh, h.directory, ?_, ?_, ?_, ?_, ?_, ?_, ?_, ?_, ?_⟩
  · intro Q hQ k
    rw [hd Q hQ]
    exact h.absent Q hQ k
  · intro Q hQ k
    rw [hd Q hQ]
    exact h.low Q hQ k
  · intro Q hQ k
    rw [hd Q hQ]
    exact h.table Q hQ k
  · intro T' Q k l hT' hp hu
    rcases put_entry_cases m T j (entry f pageFlagKernel) T' l with ⟨-, -, he⟩ | ⟨-, he⟩
    · rw [he, hue] at hu
      cases hu
    · rw [he] at hp hu ⊢
      exact h.page T' Q k l hT' hp hu
  · intro T' l hT'
    have he : (m.put T j (entry f pageFlagKernel)).phys T' = m.phys T' := by
      refine m.put_frame_ne j _ ?_
      rintro rfl
      rw [hT] at hT'
      cases hT'
    rw [he]
    exact h.lowPage T' l hT'
  · intro T' Q k l hT' hp hu
    rcases put_entry_cases m T j (entry f pageFlagKernel) T' l with ⟨rfl, rfl, he⟩ | ⟨-, he⟩
    · rw [hT] at hT'
      cases hT'
      exact .inr (by rw [he, hf])
    · rw [he] at hp hu ⊢
      exact h.kernel T' Q k l hT' hp hu
  · intro T' Q k l hT' hnd hp
    rcases put_entry_cases m T j (entry f pageFlagKernel) T' l with ⟨rfl, rfl, -⟩ | ⟨-, he⟩
    · rw [hT] at hT'
      cases hT'
      exact absurd hdev hnd
    · rw [he] at hp ⊢
      exact h.userTable T' Q k l hT' hnd hp
  · intro Q hQ k hk
    rw [hd Q hQ]
    exact h.userEntry Q hQ k hk
  · intro hR'
    have h' := h.tight hR'
    have hsame := hR hR'
    refine ⟨h'.full, h'.listed, h'.low, ?_, ?_⟩
    · intro T' Q k hT'
      obtain ⟨hk, hl⟩ := h'.linked T' Q k hT'
      refine ⟨hk, hl.imp id fun hl => ?_⟩
      rw [hd Q hl.1]
      exact hl
    · intro g Q k l hg
      refine (h'.mapped g Q k l hg).imp id fun ⟨hj, T', hT', hp, hfr⟩ => ⟨hj, T', hT', ?_⟩
      rcases put_entry_cases m T j (entry f pageFlagKernel) T' l with ⟨rfl, rfl, he⟩ | ⟨-, he⟩
      · rw [he, ← hsame hp]
        exact ⟨hp, hfr⟩
      · rw [he]
        exact ⟨hp, hfr⟩

/-! ### Release -/

/-- Where losses do not count, a directory may be forgotten. -/
theorem Owned.drop {dirs' : List Nat} (h : Owned R own dirs pending m) (ht : ¬R.tight)
    (hsub : ∀ P ∈ dirs', P ∈ dirs) : Owned R own dirs' pending m :=
  ⟨h.reserved, h.backed, h.fresh, fun P hP => h.directory P (hsub P hP),
    fun P hP => h.absent P (hsub P hP), fun P hP => h.low P (hsub P hP),
    fun P hP => h.table P (hsub P hP), h.page, h.lowPage, h.kernel, h.userTable,
    fun P hP => h.userEntry P (hsub P hP), fun hR => absurd hR ht⟩

def mapsUser (m : Memory) (T n g : Nat) : Prop :=
  g ≠ 0 ∧ ∃ j < n, present (m.phys T j) = true ∧ user (m.phys T j) = true ∧ frameOf (m.phys T j) = g

theorem clearPages_spec (m : Memory) (T n : Nat) :
    (loop n (clearPage T) m).phys = m.phys ∧
      (∀ g, mapsUser m T n g → (loop n (clearPage T) m).bitmap g = false) ∧
      ∀ g, ¬mapsUser m T n g → (loop n (clearPage T) m).bitmap g = m.bitmap g := by
  refine loop_invariant (fun n (r : Memory) => r.phys = m.phys ∧ (∀ g, mapsUser m T n g → r.bitmap g = false) ∧
    ∀ g, ¬mapsUser m T n g → r.bitmap g = m.bitmap g) ⟨rfl, ?_, fun _ _ => rfl⟩ ?_
  · rintro g ⟨-, j, hj, -⟩
    omega
  · rintro i - r ⟨hp, hfreed, hkept⟩
    have hgrow : ∀ g, mapsUser m T i g → mapsUser m T (i + 1) g :=
      fun g ⟨h0, j, hj, hr⟩ => ⟨h0, j, by omega, hr⟩
    unfold clearPage
    rw [hp]
    by_cases hc : present (m.phys T i) && user (m.phys T i)
    · have hc' : present (m.phys T i) = true ∧ user (m.phys T i) = true := by simpa using hc
      simp only [hc, if_true]
      refine ⟨by rw [freeFrame_phys, hp], ?_, ?_⟩
      · rintro g ⟨h0, j, hj, hr⟩
        by_cases hg : g = frameOf (m.phys T i)
        · subst hg
          simp only [freeFrame, if_neg h0, Memory.mark_self]
        · rw [freeFrame_bitmap _ _ (.inl hg)]
          refine hfreed g ⟨h0, j, ?_, hr⟩
          have : j ≠ i := by
            rintro rfl
            exact hg hr.2.2.symm
          omega
      · intro g hg
        have : g ≠ frameOf (m.phys T i) ∨ g = 0 := by
          by_contra hn
          obtain ⟨hn1, hn2⟩ := not_or.mp hn
          exact hg ⟨hn2, i, by omega, hc'.1, hc'.2, (not_not.mp hn1).symm⟩
        rw [freeFrame_bitmap _ _ this]
        exact hkept g (mt (hgrow g) hg)
    · simp only [hc, if_false, Bool.false_eq_true]
      refine ⟨hp, ?_, fun g hg => hkept g (mt (hgrow g) hg)⟩
      rintro g ⟨h0, j, hj, hr⟩
      refine hfreed g ⟨h0, j, ?_, hr⟩
      have : j ≠ i := by
        rintro rfl
        simp [hr.1, hr.2.1] at hc
      omega

def revoke (own : Owners) (P i : Nat) : Owners := fun f =>
  match own f with
  | some (.table Q k) => if Q = P ∧ k = i then none else own f
  | some (.page Q k _) => if Q = P ∧ k = i then none else own f
  | _ => own f

theorem of_revoke {P i f : Nat} {o : Owner} (h : revoke own P i f = some o) :
    own f = some o ∧ o ≠ .table P i ∧ ∀ j, o ≠ .page P i j := by
  unfold revoke at h
  split at h
  next Q k he =>
    by_cases hc : Q = P ∧ k = i
    · simp [hc] at h
    · rw [if_neg hc] at h
      rw [he] at h ⊢
      cases h
      refine ⟨rfl, ?_, fun _ => by simp⟩
      rintro ⟨⟩
      exact hc ⟨rfl, rfl⟩
  next Q k j he =>
    by_cases hc : Q = P ∧ k = i
    · simp [hc] at h
    · rw [if_neg hc] at h
      rw [he] at h ⊢
      cases h
      refine ⟨rfl, by simp, ?_⟩
      rintro j' ⟨⟩
      exact hc ⟨rfl, rfl⟩
  next h1 h2 =>
    refine ⟨h, ?_, ?_⟩
    · rintro rfl
      exact h1 P i h
    · rintro j rfl
      exact h2 P i j h

theorem revoke_of {P i f : Nat} {o : Owner} (h : own f = some o) (ht : o ≠ .table P i)
    (hp : ∀ j, o ≠ .page P i j) : revoke own P i f = some o := by
  unfold revoke
  cases o with
  | directory => simp only [h]
  | low => simp only [h]
  | table Q k =>
    simp only [h]
    exact if_neg fun hc => ht (by rw [hc.1, hc.2])
  | page Q k j =>
    simp only [h]
    exact if_neg fun hc => hp j (by rw [hc.1, hc.2])

theorem revoke_none {P i f : Nat} (h : revoke own P i f = none) :
    own f = none ∨ own f = some (.table P i) ∨ ∃ j, own f = some (.page P i j) := by
  cases ho : own f with
  | none => exact .inl rfl
  | some o =>
    by_cases ht : o = .table P i
    · exact .inr (.inl (by rw [ht]))
    · by_cases hp : ∃ j, o = .page P i j
      · obtain ⟨j, rfl⟩ := hp
        exact .inr (.inr ⟨j, rfl⟩)
      · have := revoke_of ho ht fun j hj => hp ⟨j, hj⟩
        rw [h] at this
        cases this

def clears (i e : Nat) : Bool := present e && decide (userIndex ≤ i) && user e

theorem clears_iff {i e : Nat} :
    clears i e = true ↔ present e = true ∧ userIndex ≤ i ∧ user e = true := by
  simp [clears, and_assoc]

theorem clearEntry_of_not {P i : Nat} (h : ¬clears i (m.phys P i)) : clearEntry P i m = m := by
  unfold clearEntry
  exact if_neg h

structure Cleared (m : Memory) (P i T : Nat) (m' : Memory) : Prop where
  phys : m'.phys = (m.put P i 0).phys
  gone : ∀ g, g ≠ 0 → g = T ∨ mapsUser m T 1024 g → m'.bitmap g = false
  kept : ∀ g, g ≠ T → ¬mapsUser m T 1024 g → m'.bitmap g = m.bitmap g

theorem clearEntry_cleared {P i : Nat} (h : clears i (m.phys P i)) :
    Cleared m P i (frameOf (m.phys P i)) (clearEntry P i m) := by
  obtain ⟨hp, hgone, hkept⟩ := clearPages_spec m (frameOf (m.phys P i)) 1024
  have he : clearEntry P i m = (freeFrame (frameOf (m.phys P i))
      (loop 1024 (clearPage (frameOf (m.phys P i))) m)).put P i 0 := by
    unfold clearEntry
    exact if_pos h
  generalize frameOf (m.phys P i) = T at *
  generalize loop 1024 (clearPage T) m = r at *
  rw [he]
  refine ⟨by simp only [Memory.put, freeFrame_phys, hp], ?_, ?_⟩
  · intro g h0 hg
    rw [Memory.put_bitmap]
    by_cases hgT : g = T
    · subst hgT
      simp only [freeFrame, if_neg h0, Memory.mark_self]
    · rw [freeFrame_bitmap T r (.inl hgT)]
      exact hgone g (hg.resolve_left hgT)
  · intro g hgT hg
    rw [Memory.put_bitmap, freeFrame_bitmap T r (.inl hgT)]
    exact hkept g hg

section Cleared
variable {P i T : Nat}

theorem Cleared.word (hm : Cleared m P i T m') (Q k : Nat) : Q = P ∧ k = i ∧ m'.phys Q k = 0 ∨
    (Q ≠ P ∨ k ≠ i) ∧ m'.phys Q k = m.phys Q k := by
  rw [hm.phys]
  exact put_entry_cases m P i 0 Q k

theorem Cleared.table_kept {T' Q k : Nat} (hm : Cleared m P i T m') (hP : own P = some .directory)
    (hT' : own T' = some (.table Q k)) : m'.phys T' = m.phys T' := by
  rw [hm.phys]
  exact put_directory_table hP hT'

theorem Cleared.low_kept {T' : Nat} (hm : Cleared m P i T m') (hP : own P = some .directory)
    (hT' : own T' = some .low) : m'.phys T' = m.phys T' := by
  rw [hm.phys]
  exact put_directory_low hP hT'

theorem Owned.mapsUser_page {g : Nat} (h : Owned R own dirs pending m)
    (hT : own T = some (.table P i)) (hg : mapsUser m T 1024 g) : ∃ j, own g = some (.page P i j) := by
  obtain ⟨-, j, -, hp, hu, rfl⟩ := hg
  exact ⟨j, h.page T P i j hT hp hu⟩

theorem Owned.cleared_bit {g : Nat} (h : Owned R own dirs pending m)
    (hT : own T = some (.table P i)) (hm : Cleared m P i T m')
    (hgT : own g ≠ some (.table P i) ∨ g ≠ T) (hgp : ∀ j, own g ≠ some (.page P i j)) :
    m'.bitmap g = m.bitmap g := by
  refine hm.kept g ?_ fun hg => ?_
  · rintro rfl
    exact hgT.elim (fun hgT => hgT hT) fun hgT => hgT rfl
  · obtain ⟨j, hj⟩ := h.mapsUser_page hT hg
    exact hgp j hj

/-- Where nothing is lost, the table and every page that loses its owner are given back, unless it
was kept. -/
theorem Owned.cleared_freed {g : Nat} (h : Owned R own dirs [] m) (hR : R.tight)
    (hT : own T = some (.table P i)) (hTe : frameOf (m.phys P i) = T) (hdev : ¬R.device i)
    (hm : Cleared m P i T m') (hg : own g = some (.table P i) ∨ ∃ j, own g = some (.page P i j)) :
    R.kept g ∨ m'.bitmap g = false := by
  have h' := h.tight hR
  have honly : ∀ {T'}, own T' = some (.table P i) → T' = T := by
    intro T' hT'
    obtain ⟨-, hm | ⟨-, -, hfr⟩⟩ := h'.linked T' P i hT'
    · cases hm
    · exact hfr.symm.trans hTe
  have h0 : g ≠ 0 := by
    rintro rfl
    simp [h.zero] at hg
  rcases hg with hg | ⟨j, hj⟩
  · exact .inr (hm.gone g h0 (.inl (honly hg)))
  · refine (h'.mapped g P i j hj).imp id fun ⟨hlt, T', hT', hp, hfr⟩ => ?_
    rw [honly hT'] at hp hfr
    exact hm.gone g h0 (.inr ⟨h0, j, hlt, hp, h.userTable T P i j hT hdev hp, hfr⟩)

theorem Owned.cleared_tight (h : Owned R own dirs [] m) (hR : R.tight) (hP : own P = some .directory)
    (hT : own T = some (.table P i)) (hTe : frameOf (m.phys P i) = T) (hdev : ¬R.device i)
    (hm : Cleared m P i T m') : Tight R (revoke own P i) dirs [] m' := by
  have h' := h.tight hR
  refine ⟨?_, fun Q hQ => h'.listed Q (of_revoke hQ).1, fun f hf => h'.low f (of_revoke hf).1,
    ?_, ?_⟩
  · intro g hg hb
    by_cases hr : revoke own P i g = none
    · rcases revoke_none hr with hno | hgone
      · rw [h.cleared_bit hT hm (.inl (by simp [hno])) (by simp [hno])] at hb
        rcases h'.full g hg hb with hk | ho | hm
        · exact .inl hk
        · exact absurd hno ho
        · cases hm
      · refine (h.cleared_freed hR hT hTe hdev hm hgone).elim .inl fun hfreed => ?_
        rw [hfreed] at hb
        cases hb
    · exact .inr (.inl hr)
  · intro T' Q k hT'
    obtain ⟨hT', hne, -⟩ := of_revoke hT'
    obtain ⟨hk, hm' | hl⟩ := h'.linked T' Q k hT'
    · cases hm'
    · rcases hm.word Q k with ⟨rfl, rfl, -⟩ | ⟨-, he⟩
      · exact absurd rfl hne
      · rw [he]
        exact ⟨hk, .inr hl⟩
  · intro f Q k j hf
    obtain ⟨hf, -, hne⟩ := of_revoke hf
    refine (h'.mapped f Q k j hf).imp id fun ⟨hj, T', hT', hl⟩ =>
      ⟨hj, T', revoke_of hT' ?_ (by simp), ?_⟩
    · rintro ⟨⟩
      exact hne j rfl
    · rw [hm.table_kept hP hT']
      exact hl

/-- Clearing one entry gives back its table and the pages in it, and no other frame. -/
theorem Owned.cleared (h : Owned R own dirs [] m) (hP : P ∈ dirs) (hc : clears i (m.phys P i))
    (hm : Cleared m P i (frameOf (m.phys P i)) m') : Owned R (revoke own P i) dirs [] m' := by
  obtain ⟨hpr, hi, hu⟩ := clears_iff.mp hc
  have hdir := h.directory P hP
  have hT := h.table P hP i hi hpr
  have hdev : ¬R.device i := (h.userEntry P hP i hi hpr).mp hu
  generalize hTe : frameOf (m.phys P i) = T at *
  refine ⟨?_, ?_, by simp, fun Q hQ => revoke_of (h.directory Q hQ) (by simp) (by simp),
    ?_, ?_, ?_, ?_, ?_, ?_, ?_, ?_, fun hR => h.cleared_tight hR hdir hT hTe hdev hm⟩
  · intro f hf
    have hno : own f = none := by
      cases ho : own f with
      | none => rfl
      | some o =>
        have := (h.backed f o ho).2.1
        omega
    rw [h.cleared_bit hT hm (.inl (by simp [hno])) (by simp [hno])]
    exact h.reserved f hf
  · intro f o hf
    obtain ⟨ho, hnt, hnp⟩ := of_revoke hf
    rw [h.cleared_bit hT hm (.inr ?_) ?_]
    · exact h.backed f o ho
    · rintro rfl
      rw [hT] at ho
      exact hnt (Option.some.inj ho).symm
    · intro j hj
      rw [ho] at hj
      exact hnp j (Option.some.inj hj)
  · intro Q hQ k hp
    rcases hm.word Q k with ⟨-, -, he⟩ | ⟨-, he⟩
    · exact he
    · rw [he] at hp ⊢
      exact h.absent Q hQ k hp
  · intro Q hQ k hk hp
    rcases hm.word Q k with ⟨-, -, he⟩ | ⟨-, he⟩
    · simp [he] at hp
    · rw [he] at hp ⊢
      exact ⟨revoke_of (h.low Q hQ k hk hp).1 (by simp) (by simp), (h.low Q hQ k hk hp).2⟩
  · intro Q hQ k hk hp
    rcases hm.word Q k with ⟨-, -, he⟩ | ⟨hne, he⟩
    · simp [he] at hp
    · rw [he] at hp ⊢
      refine revoke_of (h.table Q hQ k hk hp) ?_ (by simp)
      rintro ⟨⟩
      simp at hne
  · intro T' Q k j hT'
    obtain ⟨hT', hne, -⟩ := of_revoke hT'
    rw [hm.table_kept hdir hT']
    intro hp hu
    refine revoke_of (h.page T' Q k j hT' hp hu) (by simp) ?_
    rintro j' ⟨⟩
    exact hne rfl
  · intro T' j hT' hu
    have hT' := (of_revoke hT').1
    rw [hm.low_kept hdir hT'] at hu ⊢
    obtain ⟨Q, k, l, hk, ho⟩ := h.lowPage T' j hT' hu
    refine ⟨Q, k, l, hk, revoke_of ho (by simp) ?_⟩
    rintro j' ⟨⟩
    omega
  · intro T' Q k j hT' hp hu
    obtain ⟨hT', hne, -⟩ := of_revoke hT'
    rw [hm.table_kept hdir hT'] at hp hu ⊢
    refine (h.kernel T' Q k j hT' hp hu).imp (fun ho => revoke_of ho (by simp) ?_) id
    rintro j' ⟨⟩
    exact hne rfl
  · intro T' Q k j hT'
    have hT' := (of_revoke hT').1
    rw [hm.table_kept hdir hT']
    exact h.userTable T' Q k j hT'
  · intro Q hQ k hk hp
    rcases hm.word Q k with ⟨-, -, he⟩ | ⟨-, he⟩
    · simp [he] at hp
    · rw [he] at hp ⊢
      exact h.userEntry Q hQ k hk hp

end Cleared

theorem clearEntry_phys (m : Memory) (P i : Nat) : (clearEntry P i m).phys =
    if clears i (m.phys P i) then (m.put P i 0).phys else m.phys := by
  by_cases hc : clears i (m.phys P i)
  · rw [if_pos hc, (clearEntry_cleared hc).phys]
  · rw [if_neg hc, clearEntry_of_not hc]

theorem clearEntries_phys (m : Memory) (P n : Nat) :
    (∀ Q, Q ≠ P → (loop n (clearEntry P) m).phys Q = m.phys Q) ∧
      ∀ i, (loop n (clearEntry P) m).phys P i =
        if i < n ∧ clears i (m.phys P i) then 0 else m.phys P i := by
  refine loop_invariant (fun n (r : Memory) => (∀ Q, Q ≠ P → r.phys Q = m.phys Q) ∧
    ∀ i, r.phys P i = if i < n ∧ clears i (m.phys P i) then 0 else m.phys P i)
    ⟨fun _ _ => rfl, fun i => by simp⟩ ?_
  rintro k - r ⟨hQ, hi⟩
  have hk : r.phys P k = m.phys P k := by simp [hi]
  rw [clearEntry_phys, hk]
  refine ⟨fun Q hne => ?_, fun i => ?_⟩
  · by_cases hc : clears k (m.phys P k)
    · rw [if_pos hc, r.put_frame_ne k 0 hne, hQ Q hne]
    · rw [if_neg hc, hQ Q hne]
  · by_cases hik : i = k
    · subst hik
      by_cases hc : clears i (m.phys P i) <;> simp [hc, hi]
    · have hlt : i < k + 1 ↔ i < k := by omega
      by_cases hc : clears k (m.phys P k)
      · simp only [if_pos hc, r.put_word_ne P 0 hik, hi, hlt]
      · simp only [if_neg hc, hi, hlt]

theorem clearPageDirectory_eq (m : Memory) (P : Nat) :
    clearPageDirectory P m = loop 1024 (clearEntry P) m := (rfl)

/-- What clear_page_directory leaves of a directory entry. -/
theorem clearPageDirectory_entry (m : Memory) (P : Nat) {i : Nat} (hi : i < 1024) :
    (clearPageDirectory P m).phys P i = if clears i (m.phys P i) then 0 else m.phys P i := by
  have h := (clearEntries_phys m P 1024).2 i
  rw [← clearPageDirectory_eq] at h
  simpa only [hi, true_and] using h

theorem clearPageDirectory_other (m : Memory) {P Q : Nat} (h : Q ≠ P) :
    (clearPageDirectory P m).phys Q = m.phys Q := by
  rw [clearPageDirectory_eq]
  exact (clearEntries_phys m P 1024).1 Q h

end Steps

end AdamOS.Paging
