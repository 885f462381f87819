import AdamOS.Kernel.Copying

/-! The owner map across exec and sbrk: an address space is cleared, and pages are loaded one after
the other. -/
namespace AdamOS.Paging
open AdamOS.Process AdamOS.Lifecycle AdamOS.Word AdamOS.Loop

section Spaces
variable {R : Regime} {own own' : Owners} {dirs : List Nat} {m m' : Memory} {P : Nat}

/-! ### clear_page_directory -/

def Owner.userOf (P : Nat) : Owner → Prop
  | .table Q _ => Q = P
  | .page Q i _ => Q = P ∧ userIndex ≤ i
  | _ => False

/- P gives back its user tables and pages; nobody else loses anything. -/
structure SpaceCleared (R : Regime) (own : Owners) (dirs : List Nat) (m : Memory) (P : Nat)
    (own' : Owners) (m' : Memory) : Prop where
  owned : Owned R own' dirs [] m'
  owners : ∀ f o, own f = some o → ¬o.userOf P → own' f = some o
  old : ∀ f o, own' f = some o → own f = some o

theorem Owned.clearSpace (h : Owned R own dirs [] m) (hP : P ∈ dirs) :
    ∃ own', SpaceCleared R own dirs m P own' (clearPageDirectory P m) := by
  rw [clearPageDirectory_eq]
  refine loop_invariant (fun _ r => ∃ own', SpaceCleared R own dirs m P own' r)
    ⟨own, h, fun _ _ ho _ => ho, fun _ _ ho => ho⟩ ?_
  rintro i - r ⟨own₁, h₁⟩
  by_cases hc : clears i (r.phys P i)
  · refine ⟨_, h₁.owned.cleared hP hc (clearEntry_cleared hc), fun f o ho hu => ?_, fun f o ho => ?_⟩
    · have hi := (clears_iff.mp hc).2.1
      refine revoke_of (h₁.owners f o ho hu) ?_ ?_
      · rintro rfl
        exact hu rfl
      · rintro j rfl
        exact hu ⟨rfl, hi⟩
    · exact h₁.old f o (of_revoke ho).1
  · rw [clearEntry_of_not hc]
    exact ⟨own₁, h₁⟩

/-- Cleared are the pages that are not beside the frame buffer. -/
theorem Owned.lookup_cleared (h : Owned R own dirs [] m) (hP : P ∈ dirs) {v : Nat}
    (hv : userFuncPage ≤ v) (hlt : v < 1048576) : (R.device (v / 1024) →
      (clearPageDirectory P m).lookup P v = m.lookup P v) ∧
      (¬R.device (v / 1024) → (clearPageDirectory P m).lookup P v = 0) := by
  have hi := page_index hv
  have hentry := clearPageDirectory_entry m P (i := v / 1024) (by omega)
  have hkeep : present (m.phys P (v / 1024)) = true →
      (clearPageDirectory P m).phys (frameOf (m.phys P (v / 1024))) =
        m.phys (frameOf (m.phys P (v / 1024))) := fun hp =>
    clearPageDirectory_other m (owner_ne (h.table P hP _ hi hp) (h.directory P hP) (by simp))
  cases hp : present (m.phys P (v / 1024)) with
  | false =>
    have hc : ¬clears (v / 1024) (m.phys P (v / 1024)) = true := fun hc => by
      rw [(clears_iff.mp hc).1] at hp
      cases hp
    rw [if_neg hc] at hentry
    have hold : m.lookup P v = 0 := by rw [Memory.lookup, hp]; rfl
    have hnew : (clearPageDirectory P m).lookup P v = 0 := by
      rw [Memory.lookup, hentry, hp]
      rfl
    exact ⟨fun _ => hnew.trans hold.symm, fun _ => hnew⟩
  | true =>
    have hu := h.userEntry P hP _ hi hp
    refine ⟨fun hd => ?_, fun hd => ?_⟩
    · have hc : ¬clears (v / 1024) (m.phys P (v / 1024)) = true :=
        fun hc => hu.mp (clears_iff.mp hc).2.2 hd
      rw [if_neg hc] at hentry
      exact lookup_congr hentry fun _ => congrFun (hkeep hp) _
    · have hc : clears (v / 1024) (m.phys P (v / 1024)) = true :=
        clears_iff.mpr ⟨hp, hi, hu.mpr hd⟩
      rw [if_pos hc] at hentry
      rw [Memory.lookup, hentry]
      rfl

theorem Owned.lookup_cleared_other (h : Owned R own dirs [] m) (hP : P ∈ dirs) {Q v : Nat}
    (hQ : Q ∈ dirs) (hne : Q ≠ P) (hv : userFuncPage ≤ v) :
    (clearPageDirectory P m).lookup Q v = m.lookup Q v := by
  refine lookup_congr (congrFun (clearPageDirectory_other m hne) _) fun hp => congrFun ?_ _
  exact clearPageDirectory_other m (owner_ne (h.table Q hQ _ (page_index hv) hp)
    (h.directory P hP) (by simp))

/-- The entries below USER_FUNC_VADDR and those of the frame buffer stay. -/
theorem Owned.entry_cleared (h : Owned R own dirs [] m) (hP : P ∈ dirs) {Q i : Nat} (hlt : i < 1024)
    (hi : i < userIndex ∨ R.device i) : (clearPageDirectory P m).phys Q i = m.phys Q i := by
  by_cases hQ : Q = P
  · subst hQ
    rw [clearPageDirectory_entry m Q hlt, if_neg]
    intro hc
    obtain ⟨hp, hui, hu⟩ := clears_iff.mp hc
    exact (h.userEntry Q hP i hui hp).mp hu (hi.resolve_left (Nat.not_lt.mpr hui))
  · rw [clearPageDirectory_other m hQ]

/-! ### Consecutive pages -/

def Furnished (R : Regime) (P : Nat) (m : Memory) : Prop :=
  ∀ i, R.device i → present (m.phys P i) = true

theorem Furnished.grows {m' : Memory} (h : Furnished R P m) (hg : Grows own own' m m')
    (hP : own P = some .directory) : Furnished R P m' := by
  intro i hi
  rw [hg.entries P i hP (h i hi)]
  exact h i hi

structure Loadable (R : Regime) (P page n : Nat) (m : Memory) : Prop where
  furnished : Furnished R P m
  low : ∀ i < n, page + i < userFuncPage → ¬R.tight
  bound : R.tight → ∀ i < n, (page + i) / 1024 < 1024
  sealed : R.sealed → ∀ i < n, page + i < userFuncPage →
    present (m.phys P ((page + i) / 1024)) = true
  free : R.tight → ∀ i < n, present (m.lookup P (page + i)) = true →
    numFrames ≤ frameOf (m.lookup P (page + i)) ∨ R.kept (frameOf (m.lookup P (page + i)))

/- n pages of P from `page` on are new, each in a frame of its own that was free. -/
structure PagesLoaded (R : Regime) (own : Owners) (dirs : List Nat) (m : Memory) (P page : Nat)
    (w : Nat → Nat → Nat) (n : Nat) (own' : Owners) (m' : Memory) : Prop where
  owned : Owned R own' dirs [] m'
  grows : Grows own own' m m'
  frames : ∀ i < n, userFuncPage ≤ page + i → ∃ f, m.bitmap f = false ∧
    own' f = some (.page P ((page + i) / 1024) ((page + i) % 1024)) ∧
    m'.lookup P (page + i) = entry f pageFlagUser ∧ m'.phys f = w i
  others : ∀ Q ∈ dirs, ∀ v, userFuncPage ≤ v → (Q ≠ P ∨ ∀ i < n, v ≠ page + i) →
    m'.lookup Q v = m.lookup Q v

theorem PagesLoaded.zero (h : Owned R own dirs [] m) (page : Nat) (w : Nat → Nat → Nat) :
    PagesLoaded R own dirs m P page w 0 own m :=
  ⟨h, .refl own m, fun i hi => absurd hi (Nat.not_lt_zero i), fun _ _ _ _ _ => rfl⟩

theorem PagesLoaded.succ {page n : Nat} {w : Nat → Nat → Nat} {own'' : Owners} {m'' : Memory}
    (h : PagesLoaded R own dirs m P page w n own' m') (hP : P ∈ dirs)
    (hl : PageLoaded R own' dirs m' P (page + n) (w n) own'' m'') :
    PagesLoaded R own dirs m P page w (n + 1) own'' m'' where
  owned := hl.owned
  grows := h.grows.trans hl.grows
  frames := by
    intro i hi hv
    by_cases hin : i = n
    · subst hin
      obtain ⟨f, hb, ho, hp, hw⟩ := hl.frame
      refine ⟨f, ?_, ho, ?_, hw⟩
      · cases hbf : m.bitmap f with
        | false => rfl
        | true => rw [h.grows.bits f hbf] at hb; cases hb
      · rw [Memory.lookup, if_pos hl.link, hp]
    · obtain ⟨f, hb, ho, hp, hw⟩ := h.frames i (by omega) hv
      refine ⟨f, hb, hl.grows.owners f _ ho, ?_, ?_⟩
      · rw [hl.others P hP _ hv (.inr (by omega)), hp]
      · rw [hl.grows.pages f P _ _ ho, hw]
  others := by
    intro Q hQ v hv hne
    have hnext : Q ≠ P ∨ v ≠ page + n := hne.imp id fun hall => hall n (Nat.lt_succ_self n)
    rw [hl.others Q hQ v hv hnext]
    exact h.others Q hQ v hv (hne.imp id fun hall i hi => hall i (Nat.lt_succ_of_lt hi))

theorem Loadable.mappable {page n i : Nat} {w : Nat → Nat → Nat} (hl : Loadable R P page n m)
    (h : PagesLoaded R own dirs m P page w i own' m') (hdir : own P = some .directory)
    (hP : P ∈ dirs) (hi : i < n) : Mappable R P (page + i) m' := by
  refine ⟨hl.low i hi, fun hR => hl.bound hR i hi, fun hs hlow => ?_,
    fun hd => hl.furnished.grows h.grows hdir _ hd, fun hR => ?_⟩
  · rw [h.grows.entries P _ hdir (hl.sealed hs i hi hlow)]
    exact hl.sealed hs i hi hlow
  · have hv : userFuncPage ≤ page + i := by
      by_contra hlt
      exact hl.low i hi (Nat.lt_of_not_le hlt) hR
    rw [h.others P hP _ hv (.inr fun k hk => by omega)]
    exact hl.free hR i hi

/-- The loops of update_page_directory and sbrk. -/
theorem Owned.pagesLoaded {page n : Nat} {w : Nat → Nat → Nat} (h : Owned R own dirs [] m)
    (hP : P ∈ dirs) (hl : Loadable R P page n m)
    (hm : (loop n (fun i => loadPage P (page + i) (w i)) m).exhausted = false) :
    ∃ own', PagesLoaded R own dirs m P page w n own'
      (loop n (fun i => loadPage P (page + i) (w i)) m) := by
  refine loop_met (fun i r => ∃ own', PagesLoaded R own dirs m P page w i own' r)
    (fun _ _ => loadPage_served) hm ⟨own, .zero h page w⟩ ?_
  rintro i hi r ⟨own₁, h₁⟩ hr
  have hmap := hl.mappable h₁ (h.directory P hP) hP hi
  obtain ⟨own₂, h₂⟩ := h₁.owned.pageLoaded hP hmap hr
  exact ⟨own₂, h₁.succ hP h₂⟩

theorem Loadable.mono {n' : Nat} (h : Loadable R P page n m) (hn : n' ≤ n) :
    Loadable R P page n' m where
  furnished := h.furnished
  low := fun i hi => h.low i (by omega)
  bound := fun hR i hi => h.bound hR i (by omega)
  sealed := fun hs i hi => h.sealed hs i (by omega)
  free := fun hR i hi => h.free hR i (by omega)

/-- Of the directory entries only those of the pages' indices may change. -/
theorem Owned.loadPages_elsewhere {page n k : Nat} {w : Nat → Nat → Nat} (h : Owned R own dirs [] m)
    (hP : P ∈ dirs) (hl : Loadable R P page n m) (hk : ∀ i < n, k ≠ (page + i) / 1024)
    (hm : (loop n (fun i => loadPage P (page + i) (w i)) m).exhausted = false) :
    (loop n (fun i => loadPage P (page + i) (w i)) m).phys P k = m.phys P k := by
  induction n with
  | zero => rfl
  | succ n ih =>
    rw [loop_succ] at hm ⊢
    have hmr := loadPage_served hm
    obtain ⟨own', hr⟩ := h.pagesLoaded hP (hl.mono (Nat.le_succ n)) hmr
    have hmap := hl.mappable hr (h.directory P hP) hP (Nat.lt_succ_self n)
    obtain ⟨own'', hlast⟩ := hr.owned.pageLoaded hP hmap hm
    rw [hlast.elsewhere P hP k (.inr (hk n (Nat.lt_succ_self n))),
      ih (hl.mono (Nat.le_succ n)) (fun i hi => hk i (by omega)) hmr]

/-! ### sbrk -/

def sbrkPages (heapBreak offset : Nat) : Nat :=
  if offset = 0 then 0 else pagesBelow (newBreak heapBreak offset) (firstPage heapBreak)

structure Sbrked (pd heapBreak offset : Nat) (m : Memory) (eax brk : Nat) (m' : Memory) : Prop where
  eax : eax = oldBreak heapBreak
  brk : brk = if offset = 0 then oldBreak heapBreak else newBreak heapBreak offset
  bound : offset ≠ 0 → newBreak heapBreak offset ≤ 1048575 * pageSize
  memory : m' = loop (sbrkPages heapBreak offset)
    (fun i => loadPage pd (firstPage heapBreak + i) fun _ => 0) m

theorem firstPage_lt (heapBreak : Nat) : firstPage heapBreak < 1048576 := by
  have := wrap_lt (oldBreak heapBreak + pageSize - 1)
  simp only [firstPage, pageSize] at *
  omega

theorem sbrk_returned {pd heapBreak offset eax brk : Nat}
    (h : sbrk pd heapBreak offset m = some (eax, brk, m')) :
    Sbrked pd heapBreak offset m eax brk m' := by
  unfold sbrk at h
  by_cases h0 : offset = 0
  · rw [if_pos h0] at h
    cases h
    exact ⟨rfl, (if_pos h0).symm, fun hn => absurd h0 hn, by rw [sbrkPages, if_pos h0, loop_zero]⟩
  rw [if_neg h0] at h
  obtain ⟨m₁, hgrow, he⟩ := Option.map_eq_some_iff.mp h
  cases he
  have hb : newBreak heapBreak offset ≤ 1048575 * pageSize := by
    by_contra hlt
    rw [growHeap_diverges (Nat.lt_of_not_le hlt) _ (firstPage_lt heapBreak)] at hgrow
    cases hgrow
  have hfuel : pagesBelow (newBreak heapBreak offset) (firstPage heapBreak) < 1048577 := by
    simp only [pagesBelow, pageSize] at *
    omega
  rw [growHeap_loop hb hfuel] at hgrow
  cases hgrow
  exact ⟨rfl, (if_neg h0).symm, fun _ => hb, by rw [sbrkPages, if_neg h0]⟩

theorem sbrk_ran {heapBreak offset : Nat} (pd : Nat) (h0 : offset ≠ 0)
    (hb : newBreak heapBreak offset ≤ 1048575 * pageSize) (m : Memory) :
    sbrk pd heapBreak offset m = some (oldBreak heapBreak, newBreak heapBreak offset,
      loop (sbrkPages heapBreak offset) (fun i => loadPage pd (firstPage heapBreak + i) fun _ => 0)
        m) := by
  have hfuel : pagesBelow (newBreak heapBreak offset) (firstPage heapBreak) < 1048577 := by
    simp only [pagesBelow, pageSize] at *
    omega
  rw [sbrk, if_neg h0, growHeap_loop hb hfuel, Option.map_some, sbrkPages, if_neg h0]

/-! ### exec -/

theorem codePages_le (p : Program) : codePages p ≤ 768 := by
  have := p.loads
  simp only [codePages, pageSize]
  omega

/- P holds a new image; its old user pages are given back, and the others' are untouched. -/
structure Execed (R : Regime) (own : Owners) (dirs : List Nat) (m : Memory) (P : Nat)
    (own' : Owners) (m' : Memory) : Prop where
  owned : Owned R own' dirs [] m'
  owners : ∀ f o, own f = some o → ¬o.userOf P → own' f = some o
  pages : ∀ f Q i j, own f = some (.page Q i j) → ¬(Owner.page Q i j).userOf P →
    m'.phys f = m.phys f
  entries : ∀ Q, own Q = some .directory → ∀ i < 1024, i < userIndex ∨ R.device i →
    present (m.phys Q i) = true → m'.phys Q i = m.phys Q i
  others : ∀ Q ∈ dirs, Q ≠ P → ∀ v, userFuncPage ≤ v → m'.lookup Q v = m.lookup Q v
  heap : ∀ v, userHeapPage ≤ v → v < userStackPage → ¬R.device (v / 1024) → m'.lookup P v = 0

def Plain (R : Regime) : Prop :=
  R.tight → ¬R.device (userFuncPage / 1024) ∧ ¬R.device (userStackPage / 1024)

structure Updated (R : Regime) (own : Owners) (dirs : List Nat) (m : Memory) (P : Nat)
    (own' : Owners) (m' : Memory) : Prop where
  owned : Owned R own' dirs [] m'
  grows : Grows own own' m m'
  stack : ∃ f i j, own f = none ∧ own' f = some (.page P i j) ∧ frameOf (m'.pte P userStackPage) = f
  others : ∀ Q ∈ dirs, ∀ v, userFuncPage ≤ v → (Q ≠ P ∨ userHeapPage ≤ v ∧ v ≠ userStackPage) →
    m'.lookup Q v = m.lookup Q v

theorem Owned.updated (h : Owned R own dirs [] m) (hP : P ∈ dirs) (p : Program)
    (hpl : Plain R) (hfur : Furnished R P m)
    (hfree : ∀ v, userFuncPage ≤ v → v < 1048576 → ¬R.device (v / 1024) → m.lookup P v = 0)
    (hm : (updatePageDirectory P p m).exhausted = false) :
    ∃ own', Updated R own dirs m P own' (updatePageDirectory P p m) := by
  unfold updatePageDirectory at hm ⊢
  dsimp only at hm ⊢
  have hn : codePages p + bssPages ≤ 800 := Nat.add_le_add_right (codePages_le p) bssPages
  have hindex : ∀ i < codePages p + bssPages, (userFuncPage + i) / 1024 = userFuncPage / 1024 := by
    intro i hi
    simp only [userFuncPage]
    omega
  have hload : Loadable R P userFuncPage (codePages p + bssPages) m := by
    refine ⟨hfur, fun i _ hlt => absurd hlt (by omega), fun _ i hi => by rw [hindex i hi]; decide,
      fun _ i _ hlt => absurd hlt (by omega), fun hR i hi hp => ?_⟩
    have hlt : userFuncPage + i < 1048576 := by
      simp only [userFuncPage]
      omega
    rw [hfree _ (Nat.le_add_right ..) hlt (by rw [hindex i hi]; exact (hpl hR).1), present_zero] at hp
    cases hp
  obtain ⟨own₁, h₁⟩ := h.pagesLoaded hP hload (allocateFrame_served (mapPage_served hm))
  generalize loop (codePages p + bssPages) (fun i => loadPage P (userFuncPage + i) (p.words i)) m = r
    at *
  have hbeyond : ∀ Q ∈ dirs, ∀ v, userHeapPage ≤ v → r.lookup Q v = m.lookup Q v := by
    intro Q hQ v hv
    have hv' : userFuncPage ≤ v := Nat.le_trans (by decide) hv
    refine h₁.others Q hQ v hv' (.inr fun i hi => ?_)
    simp only [userHeapPage, userFuncPage] at *
    omega
  have hstack : Mappable R P userStackPage r := by
    refine ⟨fun hlt => absurd hlt (by decide), fun _ => by decide,
      fun _ hlt => absurd hlt (by decide), fun hd => ?_, fun hR hp => ?_⟩
    · exact hfur.grows h₁.grows (h.directory P hP) _ hd
    · rw [hbeyond P hP _ (by decide), hfree _ (by decide) (by decide) (hpl hR).2, present_zero] at hp
      cases hp
  obtain ⟨-, hfn, own₂, hu⟩ := h₁.owned.pageMapped hP hstack hm
  have hfn' : own (allocateFrame r).1 = none := by
    cases ho : own (allocateFrame r).1 with
    | none => rfl
    | some o => rw [h₁.grows.owners _ o ho] at hfn; cases hfn
  refine ⟨own₂, hu.owned, h₁.grows.trans hu.grows, ⟨_, _, _, hfn', hu.owner, ?_⟩,
    fun Q hQ v hv hne => ?_⟩
  · rw [hu.mapped, frameOf_entry (by decide)]
  · rw [hu.others Q hQ v hv (hne.imp id And.right)]
    cases hne with
    | inl hne => exact h₁.others Q hQ v hv (.inl hne)
    | inr hne => exact hbeyond Q hQ v hne.1

theorem Owned.execed (h : Owned R own dirs [] m) (hP : P ∈ dirs) (p : Program)
    (hpl : Plain R) (hfur : Furnished R P m)
    (hm : (execDirectory P p m).exhausted = false) :
    ∃ own', Execed R own dirs m P own' (execDirectory P p m) := by
  unfold execDirectory at hm ⊢
  dsimp only at hm ⊢
  obtain ⟨own₁, h₁⟩ := h.clearSpace hP
  have hfur₁ : Furnished R P (clearPageDirectory P m) := by
    intro i hi
    rw [h.entry_cleared hP (R.bounded i hi).2 (.inr hi)]
    exact hfur i hi
  have hother₁ : ∀ Q ∈ dirs, Q ≠ P → ∀ v, userFuncPage ≤ v →
      (clearPageDirectory P m).lookup Q v = m.lookup Q v :=
    fun Q hQ hne v hv => h.lookup_cleared_other hP hQ hne hv
  have hclear : ∀ v, userFuncPage ≤ v → v < 1048576 → ¬R.device (v / 1024) →
      (clearPageDirectory P m).lookup P v = 0 := fun v hv hlt => (h.lookup_cleared hP hv hlt).2
  have hentry₁ : ∀ Q, ∀ i < 1024, i < userIndex ∨ R.device i →
      (clearPageDirectory P m).phys Q i = m.phys Q i :=
    fun Q i hlt hi => h.entry_cleared hP hlt hi
  have hpage₁ : ∀ f, f ≠ P → (clearPageDirectory P m).phys f = m.phys f :=
    fun f hf => clearPageDirectory_other m hf
  generalize clearPageDirectory P m = m₁ at *
  have hmet : (updatePageDirectory P p m₁).exhausted = false := by
    by_cases ha : p.argLen = 0
    · rw [if_pos ha] at hm
      exact hm
    · rw [if_neg ha, writePage_exhausted] at hm
      exact hm
  obtain ⟨own₂, h₂⟩ := h₁.owned.updated hP p hpl hfur₁ hclear hmet
  generalize updatePageDirectory P p m₁ = m₂ at *
  have hspace : Execed R own dirs m P own₂ m₂ := by
    refine ⟨h₂.owned, fun f o ho hu => h₂.grows.owners f o (h₁.owners f o ho hu),
      fun f Q i j ho hu => ?_, fun Q hQ i hlt hi hp => ?_, fun Q hQ hne v hv => ?_,
      fun v hv hlt hd => ?_⟩
    · rw [h₂.grows.pages f Q i j (h₁.owners f _ ho hu),
        hpage₁ f (owner_ne ho (h.directory P hP) (by simp))]
    · have he := hentry₁ Q i hlt hi
      rw [h₂.grows.entries Q i (h₁.owners Q _ hQ id) (by rw [he]; exact hp), he]
    · rw [h₂.others Q hQ v hv (.inl hne), hother₁ Q hQ hne v hv]
    · have hv' : userFuncPage ≤ v := Nat.le_trans (by decide) hv
      have hlt' : v < 1048576 := Nat.lt_of_lt_of_le hlt (by decide)
      rw [h₂.others P hP v hv' (.inr ⟨hv, Nat.ne_of_lt hlt⟩), hclear v hv' hlt' hd]
  by_cases ha : p.argLen = 0
  · rw [if_pos ha]
    exact ⟨own₂, hspace⟩
  · rw [if_neg ha, writePage]
    -- the argument is written to the new stack page
    obtain ⟨f, i, j, hfn, hf, he⟩ := h₂.stack
    rw [he]
    obtain ⟨h₃, hkeep⟩ := h₂.owned.fill_page p.stack hf
    refine ⟨own₂, h₃, hspace.owners, fun g Q k l ho hu => ?_, fun Q hQ k hlt hk hp => ?_,
      fun Q hQ hne v hv => ?_, fun v hv hlt hd => ?_⟩
    · have hgf : g ≠ f := by
        rintro rfl
        rw [h₁.owners g _ ho hu] at hfn
        cases hfn
      rw [hkeep g hgf, hspace.pages g Q k l ho hu]
    · rw [hkeep Q (owner_ne (hspace.owners Q _ hQ id) hf (by simp)), hspace.entries Q hQ k hlt hk hp]
    · rw [h₂.owned.lookup_fill _ hf hQ hv, hspace.others Q hQ hne v hv]
    · rw [h₂.owned.lookup_fill _ hf hP (Nat.le_trans (by decide) hv), hspace.heap v hv hlt hd]

end Spaces

end AdamOS.Paging
