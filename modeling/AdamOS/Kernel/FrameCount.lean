import AdamOS.Kernel.Handout
import AdamOS.Kernel.SpaceRun
import Mathlib.Algebra.GroupWithZero.Nat
import Mathlib.Data.Nat.Count

/-! How many frames the operations take. What they do to the bitmap is a number of allocations, so
a bound on the frames in use before gives one on those in use after, and tells whether the frames
last. -/
namespace AdamOS.Paging
open AdamOS.Process AdamOS.Word AdamOS.Loop

/- As to the bitmap and the record of failures, m' comes from m by between lo and hi allocations. -/
def Draws (lo hi : Nat) (m m' : Memory) : Prop :=
  ∃ n, lo ≤ n ∧ n ≤ hi ∧ m'.bitmap = (allocateFrames n m).bitmap ∧
    m'.exhausted = (allocateFrames n m).exhausted

section Draws
variable {m m' m'' : Memory} {lo hi lo' hi' n pd page f flags : Nat}

theorem allocateFrames_exhausted (hb : m'.bitmap = m.bitmap) (he : m'.exhausted = m.exhausted) :
    (allocateFrames n m').exhausted = (allocateFrames n m).exhausted := by
  have hone : ∀ {r r' : Memory}, r'.bitmap = r.bitmap → r'.exhausted = r.exhausted →
      (allocateFrame r').2.exhausted = (allocateFrame r).2.exhausted := by
    intro r r' hb he
    have hfirst : firstFree r' = firstFree r := by rw [firstFree, firstFree, hb]
    unfold allocateFrame
    rw [hfirst]
    cases firstFree r with
    | none => rfl
    | some f => exact he
  induction n with
  | zero => exact he
  | succ n ih => exact hone (allocateFrames_congr hb n) ih

theorem allocateFrames_add (a b : Nat) (m : Memory) :
    allocateFrames (a + b) m = allocateFrames b (allocateFrames a m) := loop_add a b _ m

theorem Draws.none (hb : m'.bitmap = m.bitmap) (he : m'.exhausted = m.exhausted) : Draws 0 0 m m' :=
  ⟨0, Nat.le_refl 0, Nat.le_refl 0, hb, he⟩

theorem Draws.trans (h : Draws lo hi m m') (h' : Draws lo' hi' m' m'') :
    Draws (lo + lo') (hi + hi') m m'' := by
  obtain ⟨a, hl, hh, hb, he⟩ := h
  obtain ⟨b, hl', hh', hb', he'⟩ := h'
  refine ⟨a + b, by omega, by omega, ?_, ?_⟩
  · rw [allocateFrames_add, hb', allocateFrames_congr hb]
  · rw [allocateFrames_add, he', allocateFrames_exhausted hb he]

theorem Draws.weaken (h : Draws lo hi m m') (hl : lo' ≤ lo) (hh : hi ≤ hi') : Draws lo' hi' m m' := by
  obtain ⟨a, hla, hha, hb⟩ := h
  exact ⟨a, by omega, by omega, hb⟩

theorem draws_loop {n : Nat} {body : Nat → Memory → Memory}
    (h : ∀ i b, Draws lo hi b (body i b)) : Draws (n * lo) (n * hi) m (loop n body m) := by
  induction n with
  | zero =>
    rw [Nat.zero_mul, Nat.zero_mul]
    exact .none rfl rfl
  | succ n ih =>
    rw [Nat.succ_mul, Nat.succ_mul, loop_succ]
    exact ih.trans (h n _)

theorem draws_allocateFrame (m : Memory) : Draws 1 1 m (allocateFrame m).2 :=
  ⟨1, Nat.le_refl 1, Nat.le_refl 1, rfl, rfl⟩

theorem draws_mapPage (pd page f flags : Nat) (m : Memory) :
    Draws 0 1 m (mapPage pd page f flags m) := by
  cases hp : present (m.phys pd (page / 1024)) with
  | true =>
    rw [mapPage_found hp]
    exact (Draws.none (Memory.put_bitmap ..) (Memory.put_exhausted ..)).weaken (Nat.le_refl 0) (by omega)
  | false =>
    rw [mapPage_made hp]
    refine ((draws_allocateFrame m).trans (.none ?_ ?_)).weaken (Nat.zero_le _) (Nat.le_refl 1)
    · rw [Memory.put_bitmap, identityMapIn_bitmap, Memory.put_bitmap, Memory.fill_bitmap]
    · rw [Memory.put_exhausted, identityMapIn_exhausted, Memory.put_exhausted, Memory.fill_exhausted]

theorem draws_loadPage (pd page : Nat) (w : Nat → Nat) (m : Memory) :
    Draws 1 2 m (loadPage pd page w m) := by
  unfold loadPage
  dsimp only
  exact ((draws_allocateFrame m).trans (draws_mapPage pd page _ pageFlagUser _)).trans
    (.none (Memory.fill_bitmap ..) (Memory.fill_exhausted ..))

theorem draws_createPageDirectory (m : Memory) : Draws 1 2 m (createPageDirectory m).2 := by
  unfold createPageDirectory
  dsimp only
  exact ((draws_allocateFrame m).trans (.none (Memory.fill_bitmap ..) (Memory.fill_exhausted ..))).trans
    (draws_mapPage _ _ _ pageFlagKernel _)

theorem draws_createKernelPageDirectory (M : Machine) (image : Nat → Nat) (m : Memory) :
    Draws 3 (1030 + fbPages M) m (createKernelPageDirectory M image m).2 := by
  unfold createKernelPageDirectory
  dsimp only
  generalize (createPageDirectory m).1 = P
  have hd := draws_createPageDirectory m
  have hlow : Draws (1024 * 0) (1024 * 1) (createPageDirectory m).2
      (loop 1024 (fun i => mapPage P i i pageFlagKernel) (createPageDirectory m).2) :=
    draws_loop fun i b => draws_mapPage P i i pageFlagKernel b
  generalize loop 1024 (fun i => mapPage P i i pageFlagKernel) (createPageDirectory m).2 = m₁ at *
  have hfb : Draws (fbPages M * 0) (fbPages M * 1) m₁
      (loop (fbPages M) (fun i => mapPage P (fbPage M + i) (fbPage M + i) pageFlagKernel) m₁) :=
    draws_loop fun i b => draws_mapPage P _ _ pageFlagKernel b
  generalize loop (fbPages M) (fun i => mapPage P (fbPage M + i) (fbPage M + i) pageFlagKernel) m₁ =
    m₂ at *
  have hf := draws_allocateFrame m₂
  generalize (allocateFrame m₂).1 = f at *
  generalize (allocateFrame m₂).2 = m₃ at *
  have hg := draws_allocateFrame m₃
  generalize (allocateFrame m₃).1 = g at *
  generalize (allocateFrame m₃).2 = m₄ at *
  have hfill : Draws 0 0 m₄ (m₄.fill f image) :=
    .none (Memory.fill_bitmap ..) (Memory.fill_exhausted ..)
  have hcode := draws_mapPage P userFuncPage f pageFlagUser (m₄.fill f image)
  have hstack := draws_mapPage P userStackPage g pageFlagUser
    (mapPage P userFuncPage f pageFlagUser (m₄.fill f image))
  have hall := ((((((hd.trans hlow).trans hfb).trans hf).trans hg).trans hfill).trans hcode).trans hstack
  exact hall.weaken (by omega) (by omega)

/-- The pages of an image and its stack take two frames each at most. -/
theorem draws_updatePageDirectory (pd : Nat) (p : Program) (m : Memory) :
    Draws 0 1602 m (updatePageDirectory pd p m) := by
  have hn : codePages p + bssPages ≤ 800 := Nat.add_le_add_right (codePages_le p) bssPages
  unfold updatePageDirectory
  dsimp only
  have hpages : Draws ((codePages p + bssPages) * 1) ((codePages p + bssPages) * 2) m
      (loop (codePages p + bssPages) (fun i => loadPage pd (userFuncPage + i) (p.words i)) m) :=
    draws_loop fun i b => draws_loadPage pd _ _ b
  exact ((hpages.trans (draws_allocateFrame _)).trans
    (draws_mapPage pd _ _ pageFlagUser _)).weaken (Nat.zero_le _) (by omega)

theorem draws_execDirectory (pd : Nat) (p : Program) (m : Memory) :
    Draws 0 1602 (clearPageDirectory pd m) (execDirectory pd p m) := by
  have hupdate := draws_updatePageDirectory pd p (clearPageDirectory pd m)
  unfold execDirectory
  dsimp only
  by_cases ha : p.argLen = 0
  · rw [if_pos ha]
    exact hupdate
  · rw [if_neg ha]
    exact hupdate.trans (.none (Memory.fill_bitmap ..) (Memory.fill_exhausted ..))

/-- Copying a page takes a frame, copying a table one for the table and one for each page. -/
theorem copyPage_draws {source S t j : Nat} (hp : present (m.phys S j) = true) :
    Draws 1 1 m (copyPage source S t j m) := by
  rw [copyPage_present hp]
  dsimp only
  refine (draws_allocateFrame m).trans (.none ?_ ?_)
  · rw [Memory.put_bitmap, Memory.fill_bitmap, identityMapIn_bitmap, identityMapIn_bitmap]
  · rw [Memory.put_exhausted, Memory.fill_exhausted, identityMapIn_exhausted, identityMapIn_exhausted]

theorem draws_copyPage (source S t j : Nat) (m : Memory) : Draws 0 1 m (copyPage source S t j m) := by
  cases hp : present (m.phys S j) with
  | false =>
    rw [copyPage_absent hp]
    exact (Draws.none rfl rfl).weaken (Nat.le_refl 0) (by omega)
  | true => exact (copyPage_draws hp).weaken (Nat.zero_le 1) (Nat.le_refl 1)

theorem draws_tableStart (source : Nat) (m : Memory) : Draws 1 1 m (tableStart source m) := by
  unfold tableStart
  refine (draws_allocateFrame m).trans (.none ?_ ?_)
  · rw [Memory.fill_bitmap, identityMapIn_bitmap]
  · rw [Memory.fill_exhausted, identityMapIn_exhausted]

theorem draws_copyEntry (dest source i : Nat) (m : Memory) :
    Draws 0 1025 m (copyEntry dest source i m) := by
  have hno : ∀ {m'}, m'.bitmap = m.bitmap → m'.exhausted = m.exhausted → Draws 0 1025 m m' :=
    fun hb he => (Draws.none hb he).weaken (Nat.le_refl 0) (by omega)
  cases hp : present (m.phys source i) with
  | false =>
    rw [copyEntry_absent hp]
    exact hno rfl rfl
  | true =>
    by_cases hi : i < userIndex
    · rw [copyEntry_low hp hi]
      exact hno (Memory.put_bitmap ..) (Memory.put_exhausted ..)
    rw [copyEntry_table hp (Nat.le_of_not_lt hi)]
    dsimp only
    have htable := draws_tableStart source m
    generalize tableStart source m = m₁ at *
    generalize (allocateFrame m).1 = t at *
    have hpages : Draws (1024 * 0) (1024 * 1) m₁
        (loop 1024 (copyPage source (frameOf (m.phys source i)) t) m₁) :=
      draws_loop fun j b => draws_copyPage source _ t j b
    exact ((htable.trans hpages).trans (.none (Memory.put_bitmap ..) (Memory.put_exhausted ..))).weaken
      (Nat.zero_le _) (by omega)

theorem draws_copyPageDirectory (dest source : Nat) (m : Memory) :
    Draws 0 1049600 m (copyPageDirectory dest source m) := by
  unfold copyPageDirectory
  have h : Draws (1024 * 0) (1024 * 1025) m (loop 1024 (copyEntry dest source) m) :=
    draws_loop fun i b => draws_copyEntry dest source i b
  exact h.weaken (Nat.zero_le _) (by omega)

end Draws

/-! ### The lowest frames are taken first -/

def Takes (lo hi : Nat) (m m' : Memory) : Prop :=
  ∀ n, Filled m n → n + hi ≤ numFrames → ∃ n', n + lo ≤ n' ∧ n' ≤ n + hi ∧ Filled m' n' ∧
    m'.exhausted = m.exhausted

theorem Filled.congr {m m' : Memory} {n : Nat} (h : Filled m n) (hb : m'.bitmap = m.bitmap) :
    Filled m' n := ⟨h.pos, fun f => by rw [hb, h.bits f]⟩

theorem Filled.allocateFrames {m : Memory} {n k : Nat} (h : Filled m n) (hfit : n + k ≤ numFrames) :
    Filled (Paging.allocateFrames k m) (n + k) ∧
      (Paging.allocateFrames k m).exhausted = m.exhausted := by
  induction k with
  | zero => exact ⟨h, rfl⟩
  | succ k ih =>
    obtain ⟨hf, he⟩ := ih (by omega)
    obtain ⟨ha, hf'⟩ := hf.allocate (by omega)
    have hstep : Paging.allocateFrames (k + 1) m = (Paging.allocateFrames k m).mark (n + k) true :=
      congrArg Prod.snd ha
    rw [hstep]
    exact ⟨hf', he⟩

theorem Draws.takes {lo hi : Nat} {m m' : Memory} (h : Draws lo hi m m') : Takes lo hi m m' := by
  obtain ⟨k, hl, hh, hb, he⟩ := h
  intro n hn hfit
  obtain ⟨hf, hx⟩ := hn.allocateFrames (k := k) (by omega)
  exact ⟨n + k, by omega, by omega, hf.congr hb, he.trans hx⟩

/-! ### Where frames were given back -/

structure Below (m : Memory) (n : Nat) : Prop where
  pos : 0 < n
  free : ∀ f, n ≤ f → m.bitmap f = false

theorem Filled.below {m : Memory} {n : Nat} (h : Filled m n) : Below m n :=
  ⟨h.pos, fun f hf => by rw [h.bits f, decide_eq_false (Nat.not_lt.mpr hf)]⟩

theorem Below.congr {m m' : Memory} {n : Nat} (h : Below m n) (hb : m'.bitmap = m.bitmap) :
    Below m' n := ⟨h.pos, fun f hf => by rw [hb, h.free f hf]⟩

theorem Below.mono {m : Memory} {n n' : Nat} (h : Below m n) (hn : n ≤ n') : Below m n' := by
  have hpos := h.pos
  exact ⟨by omega, fun f hf => h.free f (by omega)⟩

theorem Below.allocate {m : Memory} {n : Nat} (h : Below m n) (hn : n < numFrames) :
    Below (allocateFrame m).2 (n + 1) ∧ (allocateFrame m).2.exhausted = m.exhausted := by
  have hfree := h.free n (Nat.le_refl n)
  unfold allocateFrame
  cases hf : firstFree m with
  | none =>
    rw [firstFree_none hf h.pos hn] at hfree
    cases hfree
  | some f =>
    have hle := firstFree_le hf h.pos hfree
    refine ⟨⟨Nat.succ_pos n, fun g hg => ?_⟩, rfl⟩
    rw [m.mark_of_ne true (by omega)]
    exact h.free g (by omega)

theorem Below.allocateFrames {m : Memory} {n k : Nat} (h : Below m n) (hfit : n + k ≤ numFrames) :
    Below (Paging.allocateFrames k m) (n + k) ∧
      (Paging.allocateFrames k m).exhausted = m.exhausted := by
  induction k with
  | zero => exact ⟨h, rfl⟩
  | succ k ih =>
    obtain ⟨hb, he⟩ := ih (by omega)
    obtain ⟨hb', he'⟩ := hb.allocate (by omega)
    exact ⟨hb', he'.trans he⟩

/- Every allocation is met, and none goes more than `hi` frames further. -/
def Extends (hi : Nat) (m m' : Memory) : Prop :=
  ∀ n, Below m n → n + hi ≤ numFrames → Below m' (n + hi) ∧ m'.exhausted = m.exhausted

section Extends
variable {m m' m'' : Memory} {lo hi hi' pd page f flags : Nat}

theorem Draws.extends (h : Draws lo hi m m') : Extends hi m m' := by
  obtain ⟨k, -, hh, hb, he⟩ := h
  intro n hn hfit
  obtain ⟨hf, hx⟩ := hn.allocateFrames (k := k) (by omega)
  exact ⟨(hf.congr hb).mono (by omega), he.trans hx⟩

theorem Extends.trans (h : Extends hi m m') (h' : Extends hi' m' m'') : Extends (hi + hi') m m'' := by
  intro n hn hfit
  obtain ⟨hb, he⟩ := h n hn (by omega)
  obtain ⟨hb', he'⟩ := h' _ hb (by omega)
  exact ⟨by rw [← Nat.add_assoc]; exact hb', he'.trans he⟩

theorem freeFrame_free {g : Nat} (h : m.bitmap g = false) : (freeFrame f m).bitmap g = false := by
  unfold freeFrame
  by_cases h0 : f = 0
  · rw [if_pos h0]
    exact h
  · rw [if_neg h0]
    by_cases hg : g = f
    · rw [hg, Memory.mark_self]
    · rw [m.mark_of_ne false hg, h]

theorem clearEntry_free {i g : Nat} (h : m.bitmap g = false) : (clearEntry pd i m).bitmap g = false := by
  have hpages : ∀ t, (loop 1024 (clearPage t) m).bitmap g = false := by
    intro t
    refine loop_keeps (fun r : Memory => r.bitmap g = false) h fun j _ r hr => ?_
    unfold clearPage
    by_cases hc : present (r.phys t j) && user (r.phys t j)
    · simp only [hc, if_true]
      exact freeFrame_free hr
    · simp only [hc, if_false, Bool.false_eq_true]
      exact hr
  unfold clearEntry
  by_cases hc : present (m.phys pd i) && decide (userIndex ≤ i) && user (m.phys pd i)
  · simp only [hc, if_true, Memory.put_bitmap]
    exact freeFrame_free (hpages _)
  · simp only [hc, if_false, Bool.false_eq_true]
    exact h

theorem clearPageDirectory_free {g : Nat} (h : m.bitmap g = false) :
    (clearPageDirectory pd m).bitmap g = false := by
  rw [clearPageDirectory_eq]
  exact loop_keeps (fun r : Memory => r.bitmap g = false) h fun i _ r hr => clearEntry_free hr

theorem extends_clear (pd : Nat) (m : Memory) : Extends 0 m (clearPageDirectory pd m) :=
  fun _ hn _ => ⟨⟨hn.pos, fun g hg => clearPageDirectory_free (hn.free g hg)⟩,
    clearPageDirectory_exhausted⟩

/-- The image of a program takes two frames a page at most. -/
theorem extends_execDirectory (pd : Nat) (p : Program) (m : Memory) :
    Extends 1602 m (execDirectory pd p m) := by
  have h := (extends_clear pd m).trans (draws_execDirectory pd p m).extends
  rwa [Nat.zero_add] at h

end Extends

theorem boot_filled {M : Machine} (hfit : 1025 + 2 * (1030 + fbPages M) ≤ numFrames) :
    ∃ n, 1031 ≤ n ∧ n ≤ 1025 + 2 * (1030 + fbPages M) ∧ Filled (bootKernel M).memory n ∧
      (bootKernel M).memory.exhausted = false := by
  have hr := reserveKernel_reserved M
  obtain ⟨n₁, hl₁, hu₁, h₁, he₁⟩ :=
    (draws_createKernelPageDirectory M M.idleImage (reserveKernel M)).takes 1025 hr.filled (by omega)
  rw [← idleSpace_eq] at h₁ he₁
  obtain ⟨n₂, hl₂, hu₂, h₂, he₂⟩ :=
    (draws_createKernelPageDirectory M M.mainImage (idleSpace M).2).takes n₁ h₁ (by omega)
  rw [← mainSpace_eq, ← bootKernel_memory] at h₂ he₂
  exact ⟨n₂, by omega, by omega, h₂, he₂.trans (he₁.trans hr.exhausted)⟩

def OneTable (M : Machine) : Prop := ∀ i < fbPages M, (fbPage M + i) / 1024 = fbPage M / 1024

section FewTables
variable {M : Machine} {R : Regime} {own own' : Owners} {dirs pending : List Nat} {m m' : Memory}
  {P n first : Nat} {mapped : Nat → Prop}

/-- Pages of one table take the frame of the table at most. -/
theorem Building.mapKernels_draws (h : Building R own dirs pending m P mapped own' m')
    (hk : ∀ t, R.kept t)
    (hpage : ∀ i < n, first + i < userFuncPage ∨
      R.device ((first + i) / 1024) ∧ ¬mapped (first + i))
    (hone : ∀ i < n, (first + i) / 1024 = first / 1024)
    (hm : (loop n (fun i => mapPage P (first + i) (first + i) pageFlagKernel) m').exhausted = false) :
    Draws 0 1 m' (loop n (fun i => mapPage P (first + i) (first + i) pageFlagKernel) m') := by
  induction n with
  | zero => exact (Draws.none rfl rfl).weaken (Nat.le_refl 0) (by omega)
  | succ n ih =>
    rw [loop_succ] at hm ⊢
    cases n with
    | zero => exact draws_mapPage P _ _ pageFlagKernel m'
    | succ n =>
      have hmr := mapPage_served hm
      have hpage' : ∀ i < n + 1, first + i < userFuncPage ∨
          R.device ((first + i) / 1024) ∧ ¬mapped (first + i) := fun i hi => hpage i (by omega)
      have hprev := ih hpage' (fun i hi => hone i (by omega)) hmr
      obtain ⟨own'', hr⟩ := h.mapKernels hk hpage' hmr
      -- the first page made the table
      have hlink := hr.links first (.inr ⟨Nat.le_refl first, by omega⟩)
      rw [← hone (n + 1) (by omega)] at hlink
      rw [mapPage_found hlink]
      exact hprev.trans (.none (Memory.put_bitmap ..) (Memory.put_exhausted ..))

theorem Owned.built_draws (h : Owned R own dirs [] m) (hk : ∀ t, R.kept t)
    (hdev : ∀ i, R.device i ↔ deviceIndex M i) (hone : OneTable M) (image : Nat → Nat)
    (hm : (createKernelPageDirectory M image m).2.exhausted = false) :
    Draws 3 8 m (createKernelPageDirectory M image m).2 := by
  unfold createKernelPageDirectory at hm ⊢
  dsimp only at hm ⊢
  have hg := mapPage_served (mapPage_served hm)
  rw [Memory.fill_exhausted] at hg
  have hfb := allocateFrame_served (allocateFrame_served hg)
  have hlow := loop_served (fun _ _ => mapPage_served) hfb
  obtain ⟨hlt, -, ⟨own₁, h₁⟩, own₂, h₂⟩ := h.builtLow hk hlow
  have hd := draws_createPageDirectory m
  generalize (createPageDirectory m).1 = Q at *
  generalize (createPageDirectory m).2 = m₁ at *
  have hQlow := Nat.lt_trans hlt (by decide : numFrames < userFuncPage)
  have hdraws₃ := h₂.mapKernels_draws hk (fbPage_new hdev hQlow) hone hfb
  have hdraws₂ : Draws 0 1 m₁ (loop 1024 (fun i => mapPage Q i i pageFlagKernel) m₁) := by
    rw [mapLow_eq] at hlow ⊢
    exact h₁.mapKernels_draws hk (fun i hi => .inl (lowPage_new i hi))
      (fun i hi => by omega) hlow
  generalize loop 1024 (fun i => mapPage Q i i pageFlagKernel) m₁ = m₂ at *
  generalize loop (fbPages M) (fun i => mapPage Q (fbPage M + i) (fbPage M + i) pageFlagKernel) m₂ =
    m₃ at *
  have hf := draws_allocateFrame m₃
  generalize (allocateFrame m₃).1 = f at *
  generalize (allocateFrame m₃).2 = m₄ at *
  have hg := draws_allocateFrame m₄
  generalize (allocateFrame m₄).1 = g at *
  generalize (allocateFrame m₄).2 = m₅ at *
  have hfill : Draws 0 0 m₅ (m₅.fill f image) :=
    .none (Memory.fill_bitmap ..) (Memory.fill_exhausted ..)
  have hcode := draws_mapPage Q userFuncPage f pageFlagUser (m₅.fill f image)
  have hstack := draws_mapPage Q userStackPage g pageFlagUser
    (mapPage Q userFuncPage f pageFlagUser (m₅.fill f image))
  exact (((((((hd.trans hdraws₂).trans hdraws₃).trans hf).trans hg).trans hfill).trans hcode).trans
    hstack).weaken (by omega) (by omega)

/-- Such a machine starts with 16 frames more than the kernel reserves at most. -/
theorem boot_few (hone : OneTable M) (hx : (bootKernel M).memory.exhausted = false) :
    ∃ n, 1031 ≤ n ∧ n ≤ 1041 ∧ Filled (bootKernel M).memory n := by
  have hk : ∀ t, (anyRun M).kept t := fun _ => trivial
  have hdev : ∀ i, (anyRun M).device i ↔ deviceIndex M i := fun _ => Iff.rfl
  have hr := reserveKernel_reserved M
  rw [bootKernel_memory, mainSpace_eq] at hx ⊢
  have hi := @createKernelPageDirectory_served M M.mainImage (idleSpace M).2 hx
  rw [idleSpace_eq] at hi
  have hidle := reserveKernel_owned M (anyRun M) hk
  obtain ⟨-, -, own₁, h₁⟩ := hidle.built hk hdev M.idleImage hi
  obtain ⟨n₁, hl₁, hu₁, hf₁, -⟩ :=
    (hidle.built_draws hk hdev hone M.idleImage hi).takes 1025 hr.filled (by decide)
  rw [← idleSpace_eq] at h₁ hf₁
  have hfit : 1041 ≤ numFrames := by decide
  obtain ⟨n₂, hl₂, hu₂, hf₂, -⟩ :=
    (h₁.owned.built_draws hk hdev hone M.mainImage hx).takes n₁ hf₁ (by omega)
  exact ⟨n₂, by omega, by omega, hf₂⟩

end FewTables

/-! ### The cost of a fork -/

def tablePages (m : Memory) (S : Nat) : Nat := Nat.count (fun j => present (m.phys S j) = true) 1024

def indexCost (m : Memory) (P i : Nat) : Nat :=
  if present (m.phys P i) = true ∧ userIndex ≤ i then 1 + tablePages m (frameOf (m.phys P i)) else 0

def spaceCost (m : Memory) (P : Nat) : Nat → Nat
  | 0 => 0
  | n+1 => spaceCost m P n + indexCost m P n

theorem spaceCost_le {m : Memory} {P : Nat} {cost : Nat → Nat} (h : ∀ i, indexCost m P i ≤ cost i)
    (n : Nat) : spaceCost m P n ≤ ((List.range n).map cost).sum := by
  induction n with
  | zero => exact Nat.zero_le _
  | succ n ih =>
    rw [spaceCost, List.range_succ, List.map_append, List.sum_append, List.map_singleton,
      List.sum_singleton]
    exact Nat.add_le_add ih (h n)

/-- The pages of a table that is present are among those its entries are looked up for. -/
theorem tablePages_le {m : Memory} {P i : Nat} {page : Nat → Prop} [DecidablePred page]
    (hp : present (m.phys P i) = true)
    (h : ∀ j < 1024, present (m.lookup P (i * 1024 + j)) = true → page j) :
    tablePages m (frameOf (m.phys P i)) ≤ Nat.count page 1024 := by
  refine Nat.count_mono_left fun j hj hpj => h j hj ?_
  have hi : (i * 1024 + j) / 1024 = i := by omega
  have hm : (i * 1024 + j) % 1024 = j := by omega
  rw [Memory.lookup, Memory.pte, hi, hm, if_pos hp]
  exact hpj

theorem tablePages_first {m : Memory} {P i : Nat} (hp : present (m.phys P i) = true)
    (h : ∀ j < 1024, present (m.lookup P (i * 1024 + j)) = true → j = 0) :
    tablePages m (frameOf (m.phys P i)) ≤ 1 := by
  have hfirst : Nat.count (fun j => j = 0) 1024 = 1 := by decide +kernel
  exact hfirst ▸ tablePages_le hp h

theorem indexCost_shrinks {m m' : Memory} {P i : Nat}
    (hd : userIndex ≤ i → present (m'.phys P i) = true → present (m.phys P i) = true)
    (ht : ∀ v, userFuncPage ≤ v → v / 1024 = i → present (m'.lookup P v) = true →
      present (m.lookup P v) = true) : indexCost m' P i ≤ indexCost m P i := by
  rw [indexCost, indexCost]
  by_cases hc : present (m'.phys P i) = true ∧ userIndex ≤ i
  swap
  · rw [if_neg hc]
    exact Nat.zero_le _
  have hp := hd hc.2 hc.1
  rw [if_pos hc, if_pos ⟨hp, hc.2⟩]
  refine Nat.add_le_add_left (tablePages_le hc.1 fun j hj hpj => ?_) 1
  have hi : (i * 1024 + j) / 1024 = i := by omega
  have hv : userFuncPage ≤ i * 1024 + j := by
    have := hc.2
    simp only [userIndex, userFuncPage] at *
    omega
  have hpm := ht _ hv hi hpj
  rwa [Memory.lookup, Memory.pte, hi, if_pos hp, show (i * 1024 + j) % 1024 = j by omega] at hpm

theorem spaceCost_shrinks {m m' : Memory} {P n : Nat}
    (hd : ∀ i, userIndex ≤ i → present (m'.phys P i) = true →
      present (m.phys P i) = true)
    (ht : ∀ v, userFuncPage ≤ v → present (m'.lookup P v) = true → present (m.lookup P v) = true) :
    spaceCost m' P n ≤ spaceCost m P n := by
  induction n with
  | zero => exact Nat.le_refl _
  | succ n ih => exact Nat.add_le_add ih (indexCost_shrinks (hd n) fun v hv _ => ht v hv)

section Fork
variable {R : Regime} {own own₀ : Owners} {dirs pending : List Nat} {m m₀ : Memory}
  {source dest S t i n : Nat}

theorem copyPages_filled (hs : TableSource R own₀ dirs pending source S t dest i m₀)
    (hn : Filled m₀ n) (he : m₀.exhausted = false) {k : Nat} (hk : k ≤ 1024)
    (hfit : n + Nat.count (fun j => present (m₀.phys S j) = true) k ≤ numFrames) :
    Filled (loop k (copyPage source S t) m₀)
        (n + Nat.count (fun j => present (m₀.phys S j) = true) k) ∧
      (loop k (copyPage source S t) m₀).exhausted = false := by
  induction k with
  | zero => exact ⟨hn, he⟩
  | succ k ih =>
    rw [Nat.count_succ] at hfit ⊢
    obtain ⟨hf, hr⟩ := ih (by omega) (by omega)
    obtain ⟨own, h⟩ := copyPages hs (by omega : k ≤ 1024) hr
    rw [loop_succ]
    generalize loop k (copyPage source S t) m₀ = r at *
    have hSr : r.phys S k = m₀.phys S k := congrFun (h.kept S (held_table hs.old) hs.tables) k
    cases hp : present (m₀.phys S k) with
    | false =>
      rw [copyPage_absent (hSr ▸ hp)]
      exact ⟨hf, hr⟩
    | true =>
      rw [hp, if_pos rfl, ← Nat.add_assoc] at hfit
      rw [← hSr] at hp
      obtain ⟨n', hl, hu, hf', hr'⟩ := (copyPage_draws hp).takes _ hf hfit
      rw [if_pos rfl, ← Nat.add_assoc, Nat.le_antisymm hl hu]
      exact ⟨hf', hr'.trans hr⟩

theorem tablePages_congr {m' : Memory} (h : m'.phys S = m.phys S) : tablePages m' S = tablePages m S := by
  rw [tablePages, tablePages, h]

theorem copyEntry_filled (hs : SpaceSource R own₀ dirs pending source dest m₀)
    (h : SpaceCopied R own₀ dirs pending source dest m₀ i own m) (hn : Filled m n)
    (he : m.exhausted = false) (hfit : n + indexCost m₀ source i ≤ numFrames) :
    Filled (copyEntry dest source i m) (n + indexCost m₀ source i) ∧
      (copyEntry dest source i m).exhausted = false := by
  have hsd := hs.owned.directory source hs.listed
  have hsrc : m.phys source = m₀.phys source := h.kept source (held_directory hsd) hs.apart
  rw [indexCost] at hfit ⊢
  cases hp : present (m₀.phys source i) with
  | false =>
    rw [copyEntry_absent (by rw [hsrc, hp]), if_neg (by simp)]
    exact ⟨hn, he⟩
  | true =>
    have hpm : present (m.phys source i) = true := by rw [hsrc, hp]
    by_cases hi : i < userIndex
    · rw [copyEntry_low hpm hi, if_neg (by omega)]
      exact ⟨hn.congr (Memory.put_bitmap ..), by rw [Memory.put_exhausted, he]⟩
    have hi : userIndex ≤ i := Nat.le_of_not_lt hi
    rw [hp, if_pos ⟨rfl, hi⟩] at hfit
    rw [copyEntry_table hpm hi, if_pos ⟨rfl, hi⟩]
    dsimp only
    obtain ⟨n', hl, hu, hf, hx⟩ := (draws_tableStart source m).takes n hn (by omega)
    rw [Nat.le_antisymm hu hl] at hf
    rw [he] at hx
    have hmet := tableStart_served hx
    have hts := h.tableSource hs hpm hi hmet
    obtain ⟨-, -, -, -, -, hkeep⟩ := h.owned.newTable dest hs.listed hpm hi hmet
    generalize (allocateFrame m).1 = t at *
    generalize tableStart source m = m₂ at *
    have hSm := h.owned.table source hs.listed i hi hpm
    have hS₀ := hs.owned.table source hs.listed i hi hp
    have hcount : tablePages m₂ (frameOf (m.phys source i)) =
        tablePages m₀ (frameOf (m₀.phys source i)) := by
      rw [tablePages_congr (hkeep _ (held_table hSm)), hsrc]
      exact tablePages_congr (h.kept _ (held_table hS₀)
        (owner_ne hS₀ (hs.owned.directory dest hs.target) (by simp)))
    obtain ⟨hf₃, hx₃⟩ := copyPages_filled hts hf hx (Nat.le_refl 1024) (by rw [← tablePages, hcount]; omega)
    rw [← tablePages, hcount] at hf₃
    refine ⟨?_, by rw [Memory.put_exhausted, hx₃]⟩
    rw [← Nat.add_assoc]
    exact hf₃.congr (Memory.put_bitmap ..)

theorem SpaceSource.filled (hs : SpaceSource R own₀ dirs pending source dest m₀) (hn : Filled m₀ n)
    (he : m₀.exhausted = false) {k : Nat} (hfit : n + spaceCost m₀ source k ≤ numFrames) :
    Filled (loop k (copyEntry dest source) m₀) (n + spaceCost m₀ source k) ∧
      (loop k (copyEntry dest source) m₀).exhausted = false := by
  induction k with
  | zero =>
    rw [loop_zero, spaceCost, Nat.add_zero]
    exact ⟨hn, he⟩
  | succ k ih =>
    rw [spaceCost, ← Nat.add_assoc] at hfit ⊢
    obtain ⟨hf, hr⟩ := ih (by omega)
    obtain ⟨own, h⟩ := hs.copyEntries hr
    rw [loop_succ]
    exact copyEntry_filled hs h hf hr hfit

theorem spaceCost_congr {m' : Memory} {P k : Nat} (hd : m'.phys P = m.phys P)
    (ht : ∀ i, userIndex ≤ i → present (m.phys P i) = true →
      m'.phys (frameOf (m.phys P i)) = m.phys (frameOf (m.phys P i))) :
    spaceCost m' P k = spaceCost m P k := by
  induction k with
  | zero => rfl
  | succ k ih =>
    rw [spaceCost, spaceCost, ih, indexCost, indexCost, hd]
    by_cases hc : present (m.phys P k) = true ∧ userIndex ≤ k
    · rw [if_pos hc, if_pos hc, tablePages_congr (ht k hc.2 hc.1)]
    · rw [if_neg hc, if_neg hc]

/-- A fork takes a frame for the directory and one for each user table and each page in it. -/
theorem Owned.forkDirectory_filled (h : Owned R own dirs [] m) (hs : source ∈ dirs) (hn : Filled m n)
    (he : m.exhausted = false) (hfit : n + 1 + spaceCost m source 1024 ≤ numFrames) :
    Filled (forkDirectory source m).2 (n + 1 + spaceCost m source 1024) ∧
      (forkDirectory source m).2.exhausted = false := by
  obtain ⟨ha, hf⟩ := hn.allocate (by omega)
  have hmet : (allocateFrame m).2.exhausted = false := by rw [ha, Memory.mark_exhausted, he]
  obtain ⟨-, hsource, hkeep, -, -⟩ := h.forkSource hs hmet
  rw [← show (allocateFrame m).2 = m.mark n true by rw [ha]] at hf
  have hbits : (forkStart source m).bitmap = (allocateFrame m).2.bitmap := by
    rw [forkStart, Memory.fill_bitmap, Memory.put_bitmap]
  have hx : (forkStart source m).exhausted = false := by
    rw [forkStart, Memory.fill_exhausted, Memory.put_exhausted, hmet]
  rw [forkDirectory_eq, copyPageDirectory_eq]
  dsimp only
  have hcost : spaceCost (forkStart source m) source 1024 = spaceCost m source 1024 :=
    spaceCost_congr (hkeep source (held_directory (h.directory source hs))) fun i hi hp =>
      hkeep _ (held_table (h.table source hs i hi hp))
  have hall := hsource.filled (hf.congr hbits) hx (k := 1024) (by rw [hcost]; exact hfit)
  rw [hcost] at hall
  exact hall

end Fork

/-! ### The sample machine -/

theorem sample_fbPages : fbPages sampleMachine = 118 := by decide

theorem sample_fbPage : fbPage sampleMachine = 0xFD000 := by decide

/-- The sample machine boots, with few of its frames in use. -/
theorem sample_filled : ∃ n, 1031 ≤ n ∧ n ≤ 1041 ∧ Filled (bootKernel sampleMachine).memory n ∧
    (bootKernel sampleMachine).memory.exhausted = false := by
  obtain ⟨-, -, -, -, hx⟩ := boot_filled (M := sampleMachine) (by rw [sample_fbPages]; decide)
  have hone : OneTable sampleMachine := by
    intro i hi
    rw [sample_fbPages] at hi
    rw [sample_fbPage]
    omega
  obtain ⟨n, hl, hu, hf⟩ := boot_few hone hx
  exact ⟨n, hl, hu, hf, hx⟩

section Sample
variable {m : Memory} {P i : Nat}

/-- The pages from USER_FUNC_VADDR on: the code, the stack and the frame buffer. -/
theorem sample_page {v : Nat} (h : BootSpace sampleMachine m P) (hv : userFuncPage ≤ v)
    (hp : bootPage sampleMachine P v) :
    v = userFuncPage ∨ v = userStackPage ∨ 0xFD000 ≤ v ∧ v < 0xFD000 + 118 := by
  have hfr := h.frame
  simp only [bootPage, kernelPage, devicePage, sample_fbPage, sample_fbPages, userFuncPage,
    userStackPage, numFrames] at *
  omega

theorem sample_tables (h : BootSpace sampleMachine m P) (hp : present (m.phys P i) = true)
    (hi : userIndex ≤ i) : i = 256 ∨ i = 320 ∨ i = 1012 := by
  obtain ⟨v, hv, rfl⟩ := h.only i hp
  have hpage : userFuncPage ≤ v := by
    simp only [userIndex, userFuncPage] at hi ⊢
    omega
  have hv := sample_page h hpage hv
  simp only [userFuncPage, userStackPage] at hv
  omega

def sampleCost (i : Nat) : Nat := if i = 256 ∨ i = 320 then 2 else if i = 1012 then 119 else 0

theorem sample_indexCost (h : BootSpace sampleMachine m P) (i : Nat) :
    indexCost m P i ≤ sampleCost i := by
  rw [indexCost]
  by_cases hc : present (m.phys P i) = true ∧ userIndex ≤ i
  swap
  · rw [if_neg hc]
    exact Nat.zero_le _
  rw [if_pos hc]
  have hpage : ∀ j, present (m.lookup P (i * 1024 + j)) = true →
      i * 1024 + j = userFuncPage ∨ i * 1024 + j = userStackPage ∨
        0xFD000 ≤ i * 1024 + j ∧ i * 1024 + j < 0xFD000 + 118 := by
    intro j hj
    have hv : userFuncPage ≤ i * 1024 + j := by
      have hi := hc.2
      simp only [userIndex, userFuncPage] at hi ⊢
      omega
    exact sample_page h hv ((h.pages _ hv).mp hj)
  simp only [userFuncPage, userStackPage] at hpage
  have hfb : Nat.count (fun j => j < 118) 1024 = 118 := by decide +kernel
  have hdevice : (∀ j < 1024, present (m.lookup P (i * 1024 + j)) = true → j < 118) →
      tablePages m (frameOf (m.phys P i)) ≤ 118 := fun hj => hfb ▸ tablePages_le hc.1 hj
  rcases sample_tables h hc.1 hc.2 with rfl | rfl | rfl
  · exact Nat.add_le_add_left (tablePages_first hc.1 fun j hj hp => by have := hpage j hp; omega) 1
  · exact Nat.add_le_add_left (tablePages_first hc.1 fun j hj hp => by have := hpage j hp; omega) 1
  · exact Nat.add_le_add_left (hdevice fun j hj hp => by have := hpage j hp; omega) 1

theorem sample_spaceCost (h : BootSpace sampleMachine m P) : spaceCost m P 1024 ≤ 123 := by
  have hsum : ((List.range 1024).map sampleCost).sum = 123 := by decide +kernel
  exact hsum ▸ spaceCost_le (sample_indexCost h) 1024

end Sample

theorem sample_fork_filled : ∃ n, n ≤ 1165 ∧ Filled (forkDirectory (mainSpace sampleMachine).1
      (bootKernel sampleMachine).memory).2 n ∧
    (forkDirectory (mainSpace sampleMachine).1 (bootKernel sampleMachine).memory).2.exhausted =
      false := by
  obtain ⟨n, -, hu, hf, hx⟩ := sample_filled
  obtain ⟨own, hb⟩ := boot_booted (R := anyRun sampleMachine) (fun _ => trivial) (fun _ => Iff.rfl) hx
  have hcost := sample_spaceCost hb.main
  rw [bootKernel_memory] at hf hx ⊢
  have hfit : 1165 ≤ numFrames := by decide
  obtain ⟨hf', hx'⟩ := hb.owned.forkDirectory_filled List.mem_cons_self hf hx (by omega)
  exact ⟨_, by omega, hf', hx'⟩

theorem sample_fork_served : (forkDirectory (mainSpace sampleMachine).1
    (bootKernel sampleMachine).memory).2.exhausted = false := by
  obtain ⟨-, -, -, hx⟩ := sample_fork_filled
  exact hx

theorem sample_exec_served (p : Program) : (execDirectory (mainSpace sampleMachine).1 p
    (bootKernel sampleMachine).memory).exhausted = false := by
  obtain ⟨n, -, hu, hf, hx⟩ := sample_filled
  have hfit : 1041 + 1602 ≤ numFrames := by decide
  exact (extends_execDirectory _ p _ n hf.below (by omega)).2.trans hx

end AdamOS.Paging
