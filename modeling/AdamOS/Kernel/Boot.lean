import AdamOS.Kernel.Spaces

/-! The address spaces kernel_main builds: the kernel's own pages and the frame buffer mapped to
themselves, one page of code and one of stack. -/
namespace AdamOS.Paging
open AdamOS.Process AdamOS.Lifecycle AdamOS.Word AdamOS.Loop

/-! ### The frames the kernel reserves -/

/- While nothing is freed the allocated frames are those below n. -/
structure Filled (m : Memory) (n : Nat) : Prop where
  pos : 0 < n
  bits : ∀ f, m.bitmap f = decide (f < n)

theorem Filled.allocate {m : Memory} {n : Nat} (h : Filled m n) (hn : n < numFrames) :
    allocateFrame m = (n, m.mark n true) ∧ Filled (m.mark n true) (n + 1) := by
  have hfree : m.bitmap n = false := by rw [h.bits]; exact decide_eq_false (Nat.lt_irrefl n)
  have hfirst : firstFree m = some n := by
    cases hf : firstFree m with
    | none =>
      rw [firstFree_none hf h.pos hn] at hfree
      cases hfree
    | some f =>
      obtain ⟨-, -, hb⟩ := firstFree_some hf
      have hle := firstFree_le hf h.pos hfree
      rw [h.bits, decide_eq_false_iff_not] at hb
      rw [show f = n by omega]
  refine ⟨by rw [allocateFrame, hfirst], Nat.succ_pos n, fun f => ?_⟩
  by_cases hf : f = n
  · rw [hf, Memory.mark_self]
    exact (decide_eq_true (Nat.lt_succ_self n)).symm
  · rw [m.mark_of_ne true hf, h.bits]
    exact decide_eq_decide.mpr (by omega)

structure Reserved (M : Machine) (m : Memory) (n : Nat) : Prop where
  filled : Filled m n
  phys : m.phys = M.phys
  exhausted : m.exhausted = false
  nullTable : m.nullTable = false

theorem reserveKernel_reserved (M : Machine) : Reserved M (reserveKernel M) 1025 := by
  have hinit : Reserved M (initFrames M.phys) (0 + 1) := by
    refine ⟨⟨Nat.succ_pos 0, fun f => ?_⟩, rfl, rfl, rfl⟩
    rw [initFrames]
    exact decide_eq_decide.mpr (by omega)
  rw [reserveKernel]
  refine loop_invariant (fun i r => Reserved M r (i + 1)) hinit fun i hi r h => ?_
  obtain ⟨he, hf⟩ := h.filled.allocate (by simp only [numFrames]; omega)
  rw [he]
  exact ⟨hf, h.phys, h.exhausted, h.nullTable⟩

theorem reserveKernel_owned (M : Machine) (R : Regime) (hk : ∀ f, R.kept f) :
    Owned R (fun _ => none) [] [] (reserveKernel M) where
  reserved := by
    intro f hf
    rw [(reserveKernel_reserved M).filled.bits]
    exact decide_eq_true (by omega)
  backed := by simp
  fresh := by simp
  directory := by simp
  absent := by simp
  low := by simp
  table := by simp
  page := by simp
  lowPage := by simp
  kernel := by simp
  userTable := by simp
  userEntry := by simp
  tight := fun _ => ⟨fun f _ _ => .inl (hk f), by simp, by simp, by simp, by simp⟩

/-! ### One address space -/

def devicePage (M : Machine) (v : Nat) : Prop := fbPage M ≤ v ∧ v < fbPage M + fbPages M

def deviceIndex (M : Machine) (i : Nat) : Prop :=
  ∃ v, devicePage M v ∧ userFuncPage ≤ v ∧ v / 1024 = i

theorem devicePage_lt {M : Machine} {v : Nat} (h : devicePage M v) : v < 1048576 := by
  have hr := M.inRange
  have hv := h.2
  simp only [fbPages, fbPage, pageSize] at *
  omega

theorem deviceIndex_lt {M : Machine} {i : Nat} (h : deviceIndex M i) : i < 1024 := by
  obtain ⟨v, hv, -, he⟩ := h
  have := devicePage_lt hv
  omega

section Build
variable {R : Regime} {own own' own'' : Owners} {dirs pending : List Nat} {m m' m'' : Memory}
  {P : Nat} {mapped : Nat → Prop}

/- Directory P under construction: `mapped` are the pages it maps so far. -/
structure Building (R : Regime) (own : Owners) (dirs pending : List Nat) (m : Memory) (P : Nat)
    (mapped : Nat → Prop) (own' : Owners) (m' : Memory) : Prop where
  owned : Owned R own' (P :: dirs) pending m'
  grows : Grows own own' m m'
  apart : P ∉ dirs
  others : ∀ Q ∈ dirs, ∀ v, userFuncPage ≤ v → m'.lookup Q v = m.lookup Q v
  elsewhere : ∀ Q ∈ dirs, ∀ i, m'.phys Q i = m.phys Q i
  pages : ∀ v, userFuncPage ≤ v → (present (m'.lookup P v) = true ↔ mapped v)
  links : ∀ v, mapped v → present (m'.phys P (v / 1024)) = true
  only : ∀ i, present (m'.phys P i) = true → ∃ v, mapped v ∧ v / 1024 = i

theorem Building.mono {mapped' : Nat → Prop}
    (h : Building R own dirs pending m P mapped own' m') (hm : ∀ v, mapped v ↔ mapped' v) :
    Building R own dirs pending m P mapped' own' m' where
  owned := h.owned
  grows := h.grows
  apart := h.apart
  others := h.others
  elsewhere := h.elsewhere
  pages := fun v hv => (h.pages v hv).trans (hm v)
  links := fun v hv => h.links v ((hm v).mpr hv)
  only := fun i hp => (h.only i hp).imp fun v hv => ⟨(hm v).mp hv.1, hv.2⟩

theorem Building.step {page : Nat} (h : Building R own dirs pending m P mapped own' m')
    {pending' : List Nat} (howned : Owned R own'' (P :: dirs) pending' m'')
    (hgrows : Grows own' own'' m' m'') (hlink : present (m''.phys P (page / 1024)) = true)
    (hothers : ∀ Q ∈ P :: dirs, ∀ v, userFuncPage ≤ v → Q ≠ P ∨ v ≠ page →
      m''.lookup Q v = m'.lookup Q v)
    (helse : ∀ Q ∈ P :: dirs, ∀ i, Q ≠ P ∨ i ≠ page / 1024 → m''.phys Q i = m'.phys Q i)
    (hnew : userFuncPage ≤ page → present (m''.lookup P page) = true) :
    Building R own dirs pending' m P (fun v => mapped v ∨ v = page) own'' m'' := by
  have hdir := h.owned.directory P List.mem_cons_self
  have hne : ∀ Q ∈ dirs, Q ≠ P := fun Q hQ he => h.apart (he ▸ hQ)
  refine ⟨howned, h.grows.trans hgrows, h.apart, fun Q hQ v hv => ?_, fun Q hQ i => ?_,
    fun v hv => ?_, fun v hv => ?_, fun i hp => ?_⟩
  · rw [hothers Q (List.mem_cons_of_mem P hQ) v hv (.inl (hne Q hQ)), h.others Q hQ v hv]
  · rw [helse Q (List.mem_cons_of_mem P hQ) i (.inl (hne Q hQ)), h.elsewhere Q hQ i]
  · by_cases hvp : v = page
    · exact ⟨fun _ => .inr hvp, fun _ => hvp ▸ hnew (hvp ▸ hv)⟩
    · rw [hothers P List.mem_cons_self v hv (.inr hvp)]
      exact (h.pages v hv).trans ⟨.inl, fun hm => hm.resolve_right hvp⟩
  · rcases hv with hv | rfl
    · have hl := h.links v hv
      rw [hgrows.entries P _ hdir hl]
      exact hl
    · exact hlink
  · by_cases hi : i = page / 1024
    · exact ⟨page, .inr rfl, hi.symm⟩
    · rw [helse P List.mem_cons_self i (.inr hi)] at hp
      obtain ⟨v, hv, he⟩ := h.only i hp
      exact ⟨v, .inl hv, he⟩

/-- A kernel page, below USER_FUNC_VADDR or in the frame buffer. -/
theorem Building.mapKernel {page : Nat} (h : Building R own dirs pending m P mapped own' m')
    (hk : ∀ t, R.kept t)
    (hpage : page < userFuncPage ∨ R.device (page / 1024) ∧ ¬mapped page)
    (hm : (mapPage P page page pageFlagKernel m').exhausted = false) :
    ∃ own'', Building R own dirs pending m P (fun v => mapped v ∨ v = page) own''
      (mapPage P page page pageFlagKernel m') := by
  have hP : P ∈ P :: dirs := List.mem_cons_self
  by_cases hv : page < userFuncPage
  · obtain ⟨own'', h'⟩ := h.owned.mapLow hP hv (fun _ => hk) hm
    exact ⟨own'', h.step h'.owned h'.grows h'.link h'.others h'.elsewhere
      fun hge => absurd hv (Nat.not_lt.mpr hge)⟩
  · obtain ⟨hdev, hnew⟩ := hpage.resolve_left hv
    have hv := Nat.le_of_not_lt hv
    have hfree : R.tight → present (m'.lookup P page) = false := by
      intro _
      cases hp : present (m'.lookup P page) with
      | false => rfl
      | true => exact absurd ((h.pages page hv).mp hp) hnew
    obtain ⟨own'', h'⟩ := h.owned.mapDevice hP hv hdev hfree hm
    refine ⟨own'', h.step h'.owned h'.grows h'.link h'.others h'.elsewhere fun _ => ?_⟩
    rw [h.owned.mapDevice_lookup hP hv hdev hm, present_entry]
    rfl

theorem Building.mapKernels {first n : Nat} (h : Building R own dirs pending m P mapped own' m')
    (hk : ∀ t, R.kept t)
    (hpage : ∀ i < n, first + i < userFuncPage ∨
      R.device ((first + i) / 1024) ∧ ¬mapped (first + i))
    (hm : (loop n (fun i => mapPage P (first + i) (first + i) pageFlagKernel) m').exhausted = false) :
    ∃ own'', Building R own dirs pending m P (fun v => mapped v ∨ first ≤ v ∧ v < first + n) own''
      (loop n (fun i => mapPage P (first + i) (first + i) pageFlagKernel) m') := by
  refine loop_met (fun i r => ∃ own'', Building R own dirs pending m P
    (fun v => mapped v ∨ first ≤ v ∧ v < first + i) own'' r) (fun _ _ => mapPage_served) hm
    ⟨own', h.mono fun v => ⟨.inl, fun hv => hv.resolve_right (by omega)⟩⟩ ?_
  rintro i hi r ⟨own₁, h₁⟩ hr
  obtain ⟨own₂, h₂⟩ := h₁.mapKernel hk
    ((hpage i hi).imp id fun hd => ⟨hd.1, fun hv => hv.elim hd.2 (by omega)⟩) hr
  refine ⟨own₂, h₂.mono fun v => ⟨?_, ?_⟩⟩
  · rintro ((hv | hv) | rfl)
    · exact .inl hv
    · exact .inr (by omega)
    · exact .inr (by omega)
  · rintro (hv | hv)
    · exact .inl (.inl hv)
    · by_cases he : v = first + i
      · exact .inr he
      · exact .inl (.inr (by omega))

theorem Building.mapUser {f page : Nat} (h : Building R own dirs (f :: pending) m P mapped own' m')
    (hf : own' f = none) (hv : userFuncPage ≤ page)
    (hdev : R.device (page / 1024) → present (m'.phys P (page / 1024)) = true)
    (hlt : page / 1024 < 1024) (hk : ∀ t, R.kept t)
    (hm : (mapPage P page f pageFlagUser m').exhausted = false) :
    ∃ own'', Building R own dirs pending m P (fun v => mapped v ∨ v = page) own''
      (mapPage P page f pageFlagUser m') ∧
      ∀ g, m'.bitmap g = true → g ≠ f → own'' g = own' g := by
  have hmap : Mappable R P page m' :=
    ⟨fun hlow => absurd hlow (by omega), fun _ => hlt, fun _ hlow => absurd hlow (by omega), hdev,
      fun _ _ => .inr (hk _)⟩
  obtain ⟨own'', h'⟩ := h.owned.mapUser hf List.mem_cons_self hmap hm
  refine ⟨own'', h.step h'.owned h'.grows h'.link h'.others h'.elsewhere fun _ => ?_, h'.news⟩
  rw [Memory.lookup, if_pos h'.link, h'.mapped, present_entry]
  rfl

theorem Building.of_grows {pending' : List Nat}
    (h : Building R own dirs pending m P mapped own' m')
    (howned : Owned R own' (P :: dirs) pending' m'')
    (hbits : ∀ g, m'.bitmap g = true → m''.bitmap g = true)
    (hkeep : ∀ g, held own' g → m''.phys g = m'.phys g) :
    Building R own dirs pending' m P mapped own' m'' := by
  have hgrows : Grows own' own' m' m'' :=
    ⟨fun _ _ ho => ho, hbits, fun Q i hQ _ => by rw [hkeep Q (held_directory hQ)],
      fun g Q i j hg => hkeep g (held_page hg)⟩
  have hdirs : ∀ Q ∈ P :: dirs, m''.phys Q = m'.phys Q :=
    fun Q hQ => hkeep Q (held_directory (h.owned.directory Q hQ))
  have hlook : ∀ Q ∈ P :: dirs, ∀ v, userFuncPage ≤ v → m''.lookup Q v = m'.lookup Q v := by
    intro Q hQ v hv
    refine lookup_congr (by rw [hdirs Q hQ]) fun hp => congrFun ?_ _
    exact hkeep _ (held_table (h.owned.table Q hQ _ (page_index hv) hp))
  refine ⟨howned, h.grows.trans hgrows, h.apart, fun Q hQ v hv => ?_, fun Q hQ i => ?_,
    fun v hv => ?_, fun v hv => ?_, fun i hp => ?_⟩
  · rw [hlook Q (List.mem_cons_of_mem P hQ) v hv, h.others Q hQ v hv]
  · rw [hdirs Q (List.mem_cons_of_mem P hQ), h.elsewhere Q hQ i]
  · rw [hlook P List.mem_cons_self v hv]
    exact h.pages v hv
  · rw [hdirs P List.mem_cons_self]
    exact h.links v hv
  · rw [hdirs P List.mem_cons_self] at hp
    exact h.only i hp

/-- create_page_directory: a zeroed frame that maps itself. -/
theorem Owned.building (h : Owned R own dirs [] m) (hk : ∀ t, R.kept t)
    (hm : (createPageDirectory m).2.exhausted = false) :
    (createPageDirectory m).1 < numFrames ∧ own (createPageDirectory m).1 = none ∧
      ∃ own', Building R own dirs [] m (createPageDirectory m).1
        (fun v => v = (createPageDirectory m).1) own' (createPageDirectory m).2 := by
  unfold createPageDirectory at hm ⊢
  dsimp only at hm ⊢
  have hmet : (allocateFrame m).2.exhausted = false := by
    have hs := mapPage_served hm
    rwa [Memory.fill_exhausted] at hs
  have hspec := allocateFrame_spec hmet
  obtain ⟨hn, h₁⟩ := h.allocate hmet
  generalize (allocateFrame m).1 = P at *
  generalize (allocateFrame m).2 = m₁ at *
  have hphys : m₁.phys = m.phys := by rw [show m₁ = _ from hspec.eq, Memory.mark_phys]
  have h₂ := (h₁.fill_plain (w := fun _ => 0) (.inl hn)).makeDirectory hn (Memory.fill_self ..)
  have hsome : ∀ f o, own f = some o → assign own P .directory f = some o := fun _ _ => assign_of_some hn
  have hkeep : ∀ g o, own g = some o → (m₁.fill P fun _ => 0).phys g = m.phys g := by
    intro g o hg
    rw [m₁.fill_ne _ (Owned.ne_of_none hn hg), hphys]
  have hzero : (m₁.fill P fun _ => 0).phys P = fun _ => 0 := Memory.fill_self ..
  have hstart : Building R own dirs [] m P (fun _ => False) (assign own P .directory)
      (m₁.fill P fun _ => 0) := by
    refine ⟨h₂, ⟨hsome, fun g hg => ?_, fun Q i hQ _ => congrFun (hkeep Q _ hQ) i,
      fun g Q i j hg => hkeep g _ hg⟩, fun hP => ?_, fun Q hQ v hv => ?_, fun Q hQ i => ?_,
      fun v hv => ⟨fun hp => ?_, False.elim⟩, fun _ hv => hv.elim, fun i hp => ?_⟩
    · rw [Memory.fill_bitmap, show m₁ = _ from hspec.eq]
      by_cases hgP : g = P
      · rw [hgP, Memory.mark_self]
      · rw [m.mark_of_ne true hgP, hg]
    · rw [h.directory P hP] at hn
      cases hn
    · exact lookup_congr (congrFun (hkeep Q _ (h.directory Q hQ)) _) fun hp =>
        congrFun (hkeep _ _ (h.table Q hQ _ (page_index hv) hp)) _
    · exact congrFun (hkeep Q _ (h.directory Q hQ)) i
    · rw [Memory.lookup, hzero] at hp
      simp at hp
    · rw [hzero] at hp
      simp at hp
  have hlow : P < userFuncPage := Nat.lt_trans hspec.lt (by decide)
  obtain ⟨own', hb⟩ := hstart.mapKernel hk (.inl hlow) hm
  exact ⟨hspec.lt, hn, own', hb.mono fun v => ⟨fun hv => hv.resolve_left id, .inr⟩⟩

def kernelPage (M : Machine) (P v : Nat) : Prop := (v = P ∨ v < 1024) ∨ devicePage M v

def bootPage (M : Machine) (P v : Nat) : Prop :=
  (kernelPage M P v ∨ v = userFuncPage) ∨ v = userStackPage

theorem kernelPage_device {M : Machine} {v : Nat} (h : kernelPage M P v) (hP : P < numFrames)
    (hv : userFuncPage ≤ v) : deviceIndex M (v / 1024) := by
  rcases h with (rfl | h) | h
  · exact absurd hP (Nat.not_lt.mpr (Nat.le_trans (by decide) hv))
  · simp only [userFuncPage] at hv
    omega
  · exact ⟨v, h, hv, rfl⟩

/-- A page of the frame buffer is no frame, nor one of the kernel's own pages. -/
theorem fbPage_new {M : Machine} (hdev : ∀ i, R.device i ↔ deviceIndex M i) (hP : P < userFuncPage)
    (i : Nat) (hi : i < fbPages M) : fbPage M + i < userFuncPage ∨
      R.device ((fbPage M + i) / 1024) ∧
        ¬(fbPage M + i = P ∨ 0 ≤ fbPage M + i ∧ fbPage M + i < 0 + 1024) := by
  by_cases hv : fbPage M + i < userFuncPage
  · exact .inl hv
  · have hv := Nat.le_of_not_lt hv
    refine .inr ⟨(hdev _).mpr ⟨_, ⟨Nat.le_add_right .., by omega⟩, hv, rfl⟩, ?_⟩
    simp only [userFuncPage] at *
    omega

theorem mapLow_eq (P : Nat) : (fun i => mapPage P i i pageFlagKernel) =
    fun i => mapPage P (0 + i) (0 + i) pageFlagKernel := by
  funext i
  rw [Nat.zero_add]

theorem lowPage_new (i : Nat) (hi : i < 1024) : 0 + i < userFuncPage := by
  simp only [userFuncPage]
  omega

theorem Owned.builtLow (h : Owned R own dirs [] m) (hk : ∀ t, R.kept t) :
    let d := createPageDirectory m
    let m' := loop 1024 (fun i => mapPage d.1 i i pageFlagKernel) d.2
    m'.exhausted = false → d.1 < numFrames ∧ own d.1 = none ∧
      (∃ own', Building R own dirs [] m d.1 (fun v => v = d.1) own' d.2) ∧
      ∃ own', Building R own dirs [] m d.1 (fun v => v = d.1 ∨ 0 ≤ v ∧ v < 0 + 1024) own' m' := by
  dsimp only
  intro hlow
  obtain ⟨hlt, hn, own₁, h₁⟩ := h.building hk (loop_served (fun _ _ => mapPage_served) hlow)
  rw [mapLow_eq] at hlow ⊢
  exact ⟨hlt, hn, ⟨own₁, h₁⟩, h₁.mapKernels hk (fun i hi => .inl (lowPage_new i hi)) hlow⟩

theorem Owned.builtKernel {M : Machine} (h : Owned R own dirs [] m) (hk : ∀ t, R.kept t)
    (hdev : ∀ i, R.device i ↔ deviceIndex M i) :
    let d := createPageDirectory m
    let m' := loop (fbPages M) (fun i => mapPage d.1 (fbPage M + i) (fbPage M + i) pageFlagKernel)
      (loop 1024 (fun i => mapPage d.1 i i pageFlagKernel) d.2)
    m'.exhausted = false → d.1 < numFrames ∧ own d.1 = none ∧
      ∃ own', Building R own dirs [] m d.1 (kernelPage M d.1) own' m' := by
  dsimp only
  intro hfb
  obtain ⟨hlt, hn, -, own₂, h₂⟩ := h.builtLow hk (loop_served (fun _ _ => mapPage_served) hfb)
  have hPlow := Nat.lt_trans hlt (by decide : numFrames < userFuncPage)
  obtain ⟨own₃, h₃⟩ := h₂.mapKernels hk (fbPage_new hdev hPlow) hfb
  refine ⟨hlt, hn, own₃, h₃.mono fun v => ?_⟩
  simp only [kernelPage, devicePage, Nat.zero_le, Nat.zero_add, true_and]

theorem Owned.built {M : Machine} (h : Owned R own dirs [] m) (hk : ∀ t, R.kept t)
    (hdev : ∀ i, R.device i ↔ deviceIndex M i) (image : Nat → Nat)
    (hm : (createKernelPageDirectory M image m).2.exhausted = false) :
    (createKernelPageDirectory M image m).1 < numFrames ∧
      own (createKernelPageDirectory M image m).1 = none ∧
      ∃ own', Building R own dirs [] m (createKernelPageDirectory M image m).1
        (bootPage M (createKernelPageDirectory M image m).1) own'
        (createKernelPageDirectory M image m).2 := by
  unfold createKernelPageDirectory at hm ⊢
  dsimp only at hm ⊢
  have hg := mapPage_served (mapPage_served hm)
  rw [Memory.fill_exhausted] at hg
  have hf := allocateFrame_served hg
  obtain ⟨hlt, hn, own₃, h₃⟩ := h.builtKernel hk hdev (allocateFrame_served hf)
  generalize (createPageDirectory m).1 = P at *
  generalize loop (fbPages M) (fun i => mapPage P (fbPage M + i) (fbPage M + i) pageFlagKernel)
    (loop 1024 (fun i => mapPage P i i pageFlagKernel) (createPageDirectory m).2) = m₃ at *
  have hspecf := allocateFrame_spec hf
  obtain ⟨hfn, h₄⟩ := h₃.owned.allocate hf
  generalize (allocateFrame m₃).1 = f at *
  generalize (allocateFrame m₃).2 = m₄ at *
  have hspecg := allocateFrame_spec hg
  obtain ⟨hgn, h₅⟩ := h₄.allocate hg
  generalize (allocateFrame m₄).1 = g at *
  generalize (allocateFrame m₄).2 = m₅ at *
  have hgf : g ≠ f := by
    rintro rfl
    have hfree := hspecg.free
    rw [show m₄ = _ from hspecf.eq, Memory.mark_self] at hfree
    cases hfree
  have hphys : m₅.phys = m₃.phys := by
    rw [show m₅ = _ from hspecg.eq, Memory.mark_phys, show m₄ = _ from hspecf.eq, Memory.mark_phys]
  have hbits : ∀ x, m₃.bitmap x = true ∨ x = g → m₅.bitmap x = true := by
    intro x hx
    rw [show m₅ = _ from hspecg.eq]
    by_cases hxg : x = g
    · rw [hxg, Memory.mark_self]
    · rw [m₄.mark_of_ne true hxg, show m₄ = _ from hspecf.eq]
      by_cases hxf : x = f
      · rw [hxf, Memory.mark_self]
      · rw [m₃.mark_of_ne true hxf, hx.resolve_right hxg]
  have h₆ : Building R own dirs [f, g] m P (kernelPage M P) own₃ (m₅.fill f image) :=
    h₃.of_grows ((h₅.fill_plain (.inl hfn)).reorder (fun _ => Iff.rfl) fun x => by
      simp only [List.mem_cons, List.not_mem_nil, or_false]
      exact or_comm) (fun x hx => by rw [Memory.fill_bitmap]; exact hbits x (.inl hx)) fun x hx => by
      rw [m₅.fill_ne _ (held_ne hfn hx), hphys]
  have hgbit : (m₅.fill f image).bitmap g = true := by
    rw [Memory.fill_bitmap]
    exact hbits g (.inr rfl)
  generalize m₅.fill f image = m₆ at *
  -- beside the frame buffer there is a table
  have hlink : ∀ {mapped : Nat → Prop} {pending own' m'},
      Building R own dirs pending m P mapped own' m' → (∀ v, kernelPage M P v → mapped v) →
      ∀ i, R.device i → present (m'.phys P i) = true := by
    intro mapped pending own' m' hb hsub i hi
    obtain ⟨v, hv, -, he⟩ := (hdev i).mp hi
    rw [← he]
    exact hb.links v (hsub v (.inr hv))
  obtain ⟨own₇, h₇, hnews⟩ := h₆.mapUser hfn (Nat.le_refl userFuncPage)
    (hlink h₆ (fun _ hv => hv) _) (by decide) hk (mapPage_served hm)
  generalize mapPage P userFuncPage f pageFlagUser m₆ = m₇ at *
  have hgn₇ : own₇ g = none := by rw [hnews g hgbit hgf, hgn]
  obtain ⟨own₈, h₈, -⟩ := h₇.mapUser hgn₇ (by decide) (hlink h₇ (fun _ => .inl) _)
    (by decide) hk hm
  exact ⟨hlt, hn, own₈, h₈⟩

end Build

/-! ### The two address spaces -/

structure BootSpace (M : Machine) (m : Memory) (P : Nat) : Prop where
  frame : P < numFrames
  pages : ∀ v, userFuncPage ≤ v → (present (m.lookup P v) = true ↔ bootPage M P v)
  links : ∀ v, bootPage M P v → present (m.phys P (v / 1024)) = true
  only : ∀ i, present (m.phys P i) = true → ∃ v, bootPage M P v ∧ v / 1024 = i

structure Booted (M : Machine) (R : Regime) (own : Owners) : Prop where
  owned : Owned R own [(mainSpace M).1, (idleSpace M).1] [] (mainSpace M).2
  apart : (mainSpace M).1 ≠ (idleSpace M).1
  main : BootSpace M (mainSpace M).2 (mainSpace M).1
  idle : BootSpace M (mainSpace M).2 (idleSpace M).1

theorem createPageDirectory_served {m : Memory} (h : (createPageDirectory m).2.exhausted = false) :
    m.exhausted = false := by
  unfold createPageDirectory at h
  have hs := mapPage_served h
  rw [Memory.fill_exhausted] at hs
  exact allocateFrame_served hs

theorem createKernelPageDirectory_served {M : Machine} {image : Nat → Nat} {m : Memory}
    (h : (createKernelPageDirectory M image m).2.exhausted = false) : m.exhausted = false := by
  unfold createKernelPageDirectory at h
  have hg := mapPage_served (mapPage_served h)
  rw [Memory.fill_exhausted] at hg
  have hl := loop_served (fun _ _ => mapPage_served) (allocateFrame_served (allocateFrame_served hg))
  exact createPageDirectory_served (loop_served (fun _ _ => mapPage_served) hl)

theorem mainSpace_eq (M : Machine) :
    mainSpace M = createKernelPageDirectory M M.mainImage (idleSpace M).2 := (rfl)

theorem idleSpace_eq (M : Machine) :
    idleSpace M = createKernelPageDirectory M M.idleImage (reserveKernel M) := (rfl)

theorem bootKernel_memory (M : Machine) : (bootKernel M).memory = (mainSpace M).2 := by
  rw [bootKernel]

theorem boot_booted {M : Machine} {R : Regime} (hk : ∀ f, R.kept f)
    (hdev : ∀ i, R.device i ↔ deviceIndex M i)
    (hm : (bootKernel M).memory.exhausted = false) : ∃ own, Booted M R own := by
  rw [bootKernel_memory, mainSpace_eq] at hm
  have hidle := @createKernelPageDirectory_served M M.mainImage (idleSpace M).2 hm
  rw [idleSpace_eq] at hidle
  obtain ⟨hI, -, own₁, h₁⟩ := (reserveKernel_owned M R hk).built hk hdev M.idleImage hidle
  rw [← idleSpace_eq] at hI h₁
  obtain ⟨hD, hn, own₂, h₂⟩ := h₁.owned.built hk hdev M.mainImage hm
  rw [← mainSpace_eq] at hD h₂
  have hmem : (idleSpace M).1 ∈ [(idleSpace M).1] := List.mem_singleton_self _
  have helse := h₂.elsewhere _ hmem
  have hothers := h₂.others _ hmem
  refine ⟨own₂, h₂.owned, fun he => h₂.apart (List.mem_singleton.mpr he),
    ⟨hD, h₂.pages, h₂.links, h₂.only⟩, ⟨hI, fun v hv => ?_, fun v hv => ?_, fun i hp => ?_⟩⟩
  · rw [hothers v hv]
    exact h₁.pages v hv
  · rw [helse]
    exact h₁.links v hv
  · rw [helse] at hp
    exact h₁.only i hp

end AdamOS.Paging
