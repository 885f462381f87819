import AdamOS.Kernel.Mapping

/-! copy_page_directory and the directory part of fork. Below USER_FUNC_VADDR the tables are shared;
from there on every table and every page in it is copied to a frame that was free. -/
namespace AdamOS.Paging
open AdamOS.Process AdamOS.Word AdamOS.Loop

section Copying
variable {R : Regime} {own own' own₀ : Owners} {dirs pending : List Nat} {m m' m₀ : Memory}
  {source dest S t i : Nat}

structure PageCopied (own : Owners) (m₀ : Memory) (S t dest i : Nat) (m : Memory) (k : Nat) :
    Prop where
  absent : present (m₀.phys S k) = false → m.phys t k = 0
  copied : present (m₀.phys S k) = true → ∃ d, m.phys t k = entry d (flagsOf (m₀.phys S k)) ∧
    own d = some (.page dest i k) ∧ m₀.bitmap d = false ∧
    (user (m₀.phys S k) = true → m.phys d = m₀.phys (frameOf (m₀.phys S k)))

theorem PageCopied.keep {k : Nat} (h : PageCopied own m₀ S t dest i m k)
    (hown : ∀ f o, own f = some o → own' f = some o) (ht : m'.phys t k = m.phys t k)
    (hd : ∀ d, own d = some (.page dest i k) → m'.phys d = m.phys d) :
    PageCopied own' m₀ S t dest i m' k where
  absent := fun hp => by rw [ht, h.absent hp]
  copied := by
    intro hp
    obtain ⟨d, he, ho, hb, hw⟩ := h.copied hp
    exact ⟨d, by rw [ht, he], hown d _ ho, hb, fun hu => by rw [hd d ho, hw hu]⟩

/-- The memory a copy is compared with may be an earlier one. -/
theorem PageCopied.base {k : Nat} {m₁ : Memory} (h : PageCopied own m₁ S t dest i m k)
    (hS : m₁.phys S k = m₀.phys S k) (hb : ∀ g, m₀.bitmap g = true → m₁.bitmap g = true)
    (hw : user (m₀.phys S k) = true → present (m₀.phys S k) = true →
      m₁.phys (frameOf (m₀.phys S k)) = m₀.phys (frameOf (m₀.phys S k))) :
    PageCopied own m₀ S t dest i m k where
  absent := fun hp => h.absent (by rw [hS, hp])
  copied := by
    intro hp
    obtain ⟨d, he, ho, hd, hc⟩ := h.copied (by rw [hS, hp])
    rw [hS] at he hc
    refine ⟨d, he, ho, ?_, fun hu => (hc hu).trans (hw hu hp)⟩
    cases hbd : m₀.bitmap d with
    | false => rfl
    | true => rw [hb d hbd] at hd; cases hd

/- The inner loop for index i: the entries of table t below j are copied from S. -/
structure TableCopied (R : Regime) (own₀ : Owners) (dirs pending : List Nat) (S t dest i : Nat)
    (m₀ : Memory) (j : Nat) (own : Owners) (m : Memory) : Prop where
  owned : Owned R own dirs (t :: pending) m
  owners : ∀ f o, own₀ f = some o → own f = some o
  bits : ∀ g, m₀.bitmap g = true → m.bitmap g = true
  kept : ∀ g, held own₀ g → g ≠ t → m.phys g = m₀.phys g
  low : LowKept own₀ m₀ m
  copied : ∀ k < j, PageCopied own m₀ S t dest i m k
  rest : ∀ k, j ≤ k → m.phys t k = 0

structure TableSource (R : Regime) (own₀ : Owners) (dirs pending : List Nat)
    (source S t dest i : Nat) (m₀ : Memory) : Prop where
  owned : Owned R own₀ dirs (t :: pending) m₀
  listed : source ∈ dirs
  apart : source ≠ dest
  link : frameOf (m₀.phys source i) = S
  old : own₀ S = some (.table source i)
  new : own₀ t = some (.table dest i)
  empty : m₀.phys t = fun _ => 0

theorem TableSource.tables (hs : TableSource R own₀ dirs pending source S t dest i m₀) : S ≠ t := by
  intro he
  have ho := hs.old
  rw [he, hs.new] at ho
  cases ho
  exact hs.apart rfl

theorem copyPage_absent {j : Nat} (hp : present (m.phys S j) = false) :
    copyPage source S t j m = m := by
  unfold copyPage
  simp only [hp, if_false, Bool.false_eq_true]

theorem copyPage_present {j : Nat} (hp : present (m.phys S j) = true) :
    copyPage source S t j m =
      let d := (allocateFrame m).1
      let m' := identityMapIn source (frameOf (m.phys S j)) (identityMapIn source d (allocateFrame m).2)
      (m'.fill d (m'.phys (frameOf (m.phys S j)))).put t j
        (entry d (flagsOf ((m'.fill d (m'.phys (frameOf (m.phys S j)))).phys S j))) := by
  unfold copyPage
  simp only [hp, if_true]

/-- The two identity mappings of a round touch nothing in use but low tables. -/
theorem Owned.identityMaps {d : Nat} (h : Owned R own dirs pending m) (hP : source ∈ dirs)
    (hd : d < numFrames) (hS : own S = some (.table source i))
    (hlink : frameOf (m.phys source i) = S) {j : Nat} (hj : j < 1024)
    (hp : present (m.phys S j) = true) :
    let m' := identityMapIn source (frameOf (m.phys S j)) (identityMapIn source d m)
    Owned R own dirs pending m' ∧ ∀ g, held own g → m'.phys g = m.phys g := by
  obtain ⟨h₁, hk₁⟩ := h.identityMap hP (.inl (frame_index hd))
  have hS₁ := hk₁ S (held_table hS)
  have hdir := hk₁ source (held_directory (h.directory source hP))
  have hharm : Harmless source (frameOf (m.phys S j)) (identityMapIn source d m) := by
    refine (h.entry_target hS hp).imp id fun he => ?_
    have hfr : frameOf (m.phys S j) = i * 1024 + j := by rw [he, frameOf_entry (by decide)]
    have hdiv : (i * 1024 + j) / 1024 = i := by omega
    have hmod : (i * 1024 + j) % 1024 = j := by omega
    rw [hfr, hdiv, hmod, hdir, hlink, hS₁, he]
  obtain ⟨h₂, hk₂⟩ := h₁.identityMap hP hharm
  exact ⟨h₂, fun g hg => (hk₂ g hg).trans (hk₁ g hg)⟩

theorem TableCopied.skip {j : Nat} (h : TableCopied R own₀ dirs pending S t dest i m₀ j own m)
    (hp : present (m₀.phys S j) = false) :
    TableCopied R own₀ dirs pending S t dest i m₀ (j + 1) own m := by
  refine ⟨h.owned, h.owners, h.bits, h.kept, h.low, fun k hk => ?_, fun k hk => h.rest k (by omega)⟩
  by_cases hkj : k = j
  · subst hkj
    refine ⟨fun _ => h.rest k (Nat.le_refl k), fun hp' => ?_⟩
    rw [hp] at hp'
    cases hp'
  · exact h.copied k (by omega)

theorem copyPage_step {j : Nat} (hs : TableSource R own₀ dirs pending source S t dest i m₀)
    (hj : j < 1024) (h : TableCopied R own₀ dirs pending S t dest i m₀ j own m)
    (hm : (copyPage source S t j m).exhausted = false) :
    ∃ own', TableCopied R own₀ dirs pending S t dest i m₀ (j + 1) own' (copyPage source S t j m) := by
  have hSm : m.phys S = m₀.phys S := h.kept S (held_table hs.old) hs.tables
  cases hp : present (m.phys S j) with
  | false =>
    rw [copyPage_absent hp]
    exact ⟨own, h.skip (hSm ▸ hp)⟩
  | true =>
    rw [copyPage_present hp] at hm ⊢
    dsimp only at hm ⊢
    simp only [Memory.put_exhausted, Memory.fill_exhausted, identityMapIn_exhausted] at hm
    have hspec := allocateFrame_spec hm
    obtain ⟨hdn, h₁⟩ := h.owned.allocate hm
    generalize (allocateFrame m).1 = d at *
    generalize (allocateFrame m).2 = m₁ at *
    have hphys : m₁.phys = m.phys := by rw [show m₁ = _ from hspec.eq, Memory.mark_phys]
    have hST := h.owners S _ hs.old
    have htT := h.owners t _ hs.new
    have hdir := hs.owned.directory source hs.listed
    have hlink : frameOf (m₁.phys source i) = S := by
      rw [hphys, h.kept source (held_directory hdir) (owner_ne hdir hs.new (by simp)), hs.link]
    obtain ⟨h₂, hkeep⟩ := h₁.identityMaps hs.listed hspec.lt hST hlink hj (by rw [hphys]; exact hp)
    rw [hphys] at h₂ hkeep
    have hbits : ∀ g, m.bitmap g = true →
        (identityMapIn source (frameOf (m.phys S j)) (identityMapIn source d m₁)).bitmap g = true := by
      intro g hg
      rw [identityMapIn_bitmap, identityMapIn_bitmap, show m₁ = _ from hspec.eq]
      by_cases hgd : g = d
      · rw [hgd, Memory.mark_self]
      · rw [m.mark_of_ne true hgd, hg]
    have hlow : LowKept own₀ m₁
        (identityMapIn source (frameOf (m.phys S j)) (identityMapIn source d m₁)) :=
      (identityMapIn_low source d m₁).trans (identityMapIn_low source _ _)
    generalize identityMapIn source (frameOf (m.phys S j)) (identityMapIn source d m₁) = m₂ at *
    -- what is in use is as before, except the frame d
    have hfill : ∀ g, held own g →
        (m₂.fill d (m₂.phys (frameOf (m.phys S j)))).phys g = m.phys g :=
      fun g hg => by rw [m₂.fill_ne _ (held_ne hdn hg), hkeep g hg]
    have h₃ := h₂.fill_plain (w := m₂.phys (frameOf (m.phys S j))) (.inl hdn)
    rw [hfill S (held_table hST)]
    have hsome : ∀ f o, own f = some o → assign own d (.page dest i j) f = some o :=
      fun _ _ => assign_of_some hdn
    have hatt := h₃.attachPage (j := j) (flagsOf (m.phys S j)) hdn htT hj (flagsOf_lt _)
      ((flagsOf_present _).mpr hp)
      (fun hd => (flagsOf_user _).mpr (h.owned.userTable S source i j hST hd hp)) fun _ hp' => by
        rw [hfill t (held_table htT), h.rest j (Nat.le_refl j), present_zero] at hp'
        cases hp'
    have hdt : d ≠ t := Owned.ne_of_none' hdn htT
    generalize hcopy : m₂.fill d (m₂.phys (frameOf (m.phys S j))) = m₃ at *
    have hold : ∀ k < j, PageCopied (assign own d (.page dest i j)) m₀ S t dest i
        (m₃.put t j (entry d (flagsOf (m.phys S j)))) k := by
      intro k hk
      refine (h.copied k hk).keep hsome ?_ fun g hg => ?_
      · rw [m₃.put_word_ne t _ (by omega), hfill t (held_table htT)]
      · rw [m₃.put_frame_ne _ _ (owner_ne hg htT (by simp)), hfill g (held_page hg)]
    have hwritten : ∀ T, own₀ T = some .low →
        (m₃.put t j (entry d (flagsOf (m.phys S j)))).phys T = m₂.phys T := by
      intro T hT
      have hT' := h.owners T _ hT
      rw [m₃.put_frame_ne _ _ (owner_ne hT' htT (by simp)), ← hcopy,
        m₂.fill_ne _ (Owned.ne_of_none hdn hT')]
    rw [LowKept, hphys, ← LowKept] at hlow
    refine ⟨_, hatt, fun f o ho => hsome f o (h.owners f o ho), fun g hg => ?_, fun g hg hgt => ?_,
      (h.low.trans hlow).trans (.of_phys hwritten), fun k hk => ?_, fun k hk => ?_⟩
    · rw [Memory.put_bitmap, ← hcopy, Memory.fill_bitmap]
      exact hbits g (h.bits g hg)
    · rw [m₃.put_frame_ne _ _ hgt, hfill g (held_mono h.owners hg), h.kept g hg hgt]
    · by_cases hkj : k = j
      swap
      · exact hold k (by omega)
      subst hkj
      refine ⟨fun ha => ?_, fun _ => ⟨d, ?_, assign_self, ?_, fun hu => ?_⟩⟩
      · rw [← hSm, hp] at ha
        cases ha
      · rw [Memory.put_self, hSm]
      · cases hb : m₀.bitmap d with
        | false => rfl
        | true =>
          have hfree := hspec.free
          rw [h.bits d hb] at hfree
          cases hfree
      · -- the page copied belongs to the source
        rw [← hSm] at hu ⊢
        have hpage := hs.owned.page S source i k hs.old (hSm ▸ hp) (hSm ▸ hu)
        rw [← hSm] at hpage
        rw [m₃.put_frame_ne _ _ hdt, ← hcopy, Memory.fill_self,
          hkeep _ (held_page (h.owners _ _ hpage)),
          h.kept _ (held_page hpage) (owner_ne hpage hs.new (by simp))]
    · rw [m₃.put_word_ne t _ (by omega), hfill t (held_table htT), h.rest k (by omega)]

/-- The inner loop copies entry after entry. -/
theorem copyPages (hs : TableSource R own₀ dirs pending source S t dest i m₀) {n : Nat}
    (hn : n ≤ 1024) (hm : (loop n (copyPage source S t) m₀).exhausted = false) :
    ∃ own, TableCopied R own₀ dirs pending S t dest i m₀ n own (loop n (copyPage source S t) m₀) := by
  have hstart : TableCopied R own₀ dirs pending S t dest i m₀ 0 own₀ m₀ :=
    ⟨hs.owned, fun _ _ ho => ho, fun _ hg => hg, fun _ _ _ => rfl, .refl own₀ m₀,
      fun k hk => absurd hk (by omega), fun k _ => congrFun hs.empty k⟩
  refine loop_met (fun j r => ∃ own, TableCopied R own₀ dirs pending S t dest i m₀ j own r)
    (fun _ _ => copyPage_served) hm ⟨own₀, hstart⟩ ?_
  rintro j hj r ⟨own, h⟩ hr
  exact copyPage_step hs (by omega) h hr

/-! ### The outer loop -/

structure EntryCopied (own : Owners) (m₀ : Memory) (source dest : Nat) (m : Memory) (i : Nat) :
    Prop where
  absent : present (m₀.phys source i) = false → m.phys dest i = 0
  low : i < userIndex → present (m₀.phys source i) = true → m.phys dest i = m₀.phys source i
  table : userIndex ≤ i → present (m₀.phys source i) = true → ∃ t,
    m.phys dest i = entry t (flagsOf (m₀.phys source i)) ∧ own t = some (.table dest i) ∧
      ∀ k < 1024, PageCopied own m₀ (frameOf (m₀.phys source i)) t dest i m k

theorem EntryCopied.keep {k : Nat} (h : EntryCopied own m₀ source dest m k)
    (hown : ∀ f o, own f = some o → own' f = some o) (hd : m'.phys dest k = m.phys dest k)
    (hk : ∀ g, held own g → g ≠ dest → m'.phys g = m.phys g)
    (hdest : own dest = some .directory) : EntryCopied own' m₀ source dest m' k where
  absent := fun hp => by rw [hd, h.absent hp]
  low := fun hi hp => by rw [hd, h.low hi hp]
  table := by
    intro hi hp
    obtain ⟨t, he, ht, hc⟩ := h.table hi hp
    refine ⟨t, by rw [hd, he], hown t _ ht, fun j hj => (hc j hj).keep hown ?_ fun g hg => ?_⟩
    · rw [hk t (held_table ht) (owner_ne ht hdest (by simp))]
    · exact hk g (held_page hg) (owner_ne hg hdest (by simp))

/- The indices of `dest` below i are copied from `source`. -/
structure SpaceCopied (R : Regime) (own₀ : Owners) (dirs pending : List Nat) (source dest : Nat)
    (m₀ : Memory) (i : Nat) (own : Owners) (m : Memory) : Prop where
  owned : Owned R own dirs pending m
  owners : ∀ f o, own₀ f = some o → own f = some o
  bits : ∀ g, m₀.bitmap g = true → m.bitmap g = true
  kept : ∀ g, held own₀ g → g ≠ dest → m.phys g = m₀.phys g
  low : LowKept own₀ m₀ m
  copied : ∀ k < i, EntryCopied own m₀ source dest m k
  rest : ∀ k, i ≤ k → m.phys dest k = 0

structure SpaceSource (R : Regime) (own₀ : Owners) (dirs pending : List Nat) (source dest : Nat)
    (m₀ : Memory) : Prop where
  owned : Owned R own₀ dirs pending m₀
  listed : source ∈ dirs
  target : dest ∈ dirs
  apart : source ≠ dest
  empty : m₀.phys dest = fun _ => 0

theorem copyEntry_absent (hp : present (m.phys source i) = false) :
    copyEntry dest source i m = m := by
  unfold copyEntry
  simp only [hp, if_false, Bool.false_eq_true]

theorem copyEntry_low (hp : present (m.phys source i) = true) (hi : i < userIndex) :
    copyEntry dest source i m = m.put dest i (m.phys source i) := by
  unfold copyEntry
  simp only [hp, hi, if_true]

def tableStart (source : Nat) (m : Memory) : Memory :=
  (identityMapIn source (allocateFrame m).1 (allocateFrame m).2).fill (allocateFrame m).1 fun _ => 0

theorem tableStart_eq (source : Nat) (m : Memory) : tableStart source m =
    (identityMapIn source (allocateFrame m).1 (allocateFrame m).2).fill (allocateFrame m).1
      fun _ => 0 := (rfl)

theorem copyEntry_table (hp : present (m.phys source i) = true) (hi : userIndex ≤ i) :
    copyEntry dest source i m =
      let t := (allocateFrame m).1
      let m₃ := loop 1024 (copyPage source (frameOf (m.phys source i)) t) (tableStart source m)
      m₃.put dest i (entry t (flagsOf (m₃.phys source i))) := by
  rw [tableStart_eq]
  unfold copyEntry
  simp only [hp, Nat.not_lt.mpr hi, if_true, if_false]

/-- The table made for one index, before its pages are copied. -/
theorem Owned.newTable (h : Owned R own dirs pending m) (dest : Nat) (hs : source ∈ dirs)
    (hp : present (m.phys source i) = true) (hi : userIndex ≤ i)
    (hm : (allocateFrame m).2.exhausted = false) :
    let t := (allocateFrame m).1
    let m' := tableStart source m
    own t = none ∧ Owned R (assign own t (.table dest i)) dirs (t :: pending) m' ∧
      (m'.phys t = fun _ => 0) ∧ (∀ g, m.bitmap g = true → m'.bitmap g = true) ∧
      LowKept own m m' ∧ ∀ g, held own g → m'.phys g = m.phys g := by
  unfold tableStart
  have hspec := allocateFrame_spec hm
  obtain ⟨htn, h₁⟩ := h.allocate hm
  generalize (allocateFrame m).1 = t at *
  generalize (allocateFrame m).2 = m₁ at *
  have hphys : m₁.phys = m.phys := by rw [show m₁ = _ from hspec.eq, Memory.mark_phys]
  obtain ⟨h₂, hk⟩ := h₁.identityMap hs (.inl (frame_index hspec.lt))
  have h₃ := h₂.fill_plain (w := fun _ => 0) (.inl htn)
  have hlow : LowKept own m₁ (identityMapIn source t m₁) := identityMapIn_low source t m₁
  rw [LowKept, hphys, ← LowKept] at hlow
  have hlt : R.tight → i < 1024 := fun hR =>
    ((h.tight hR).linked _ source i (h.table source hs i hi hp)).1.2
  refine ⟨htn, h₃.makeTable htn (Memory.fill_self ..) hi hlt, Memory.fill_self .., fun g hg => ?_,
    hlow.trans (.of_phys fun T hT => Memory.fill_ne _ _ (Owned.ne_of_none htn hT)), fun g hg => ?_⟩
  · rw [Memory.fill_bitmap, identityMapIn_bitmap, show m₁ = _ from hspec.eq]
    by_cases hgt : g = t
    · rw [hgt, Memory.mark_self]
    · rw [m.mark_of_ne true hgt, hg]
  · rw [Memory.fill_ne _ _ (held_ne htn hg), hk g hg, hphys]

theorem tableStart_served (h : (tableStart source m).exhausted = false) :
    (allocateFrame m).2.exhausted = false := by
  rwa [tableStart, Memory.fill_exhausted, identityMapIn_exhausted] at h

theorem SpaceCopied.tableSource (hs : SpaceSource R own₀ dirs pending source dest m₀)
    (h : SpaceCopied R own₀ dirs pending source dest m₀ i own m)
    (hp : present (m.phys source i) = true) (hi : userIndex ≤ i)
    (hm : (allocateFrame m).2.exhausted = false) :
    let t := (allocateFrame m).1
    TableSource R (assign own t (.table dest i)) dirs pending source (frameOf (m.phys source i)) t
      dest i (tableStart source m) := by
  obtain ⟨htn, h₂, hzero, -, -, hkeep⟩ := h.owned.newTable dest hs.listed hp hi hm
  have hsd := held_directory (h.owners source _ (hs.owned.directory source hs.listed))
  exact ⟨h₂, hs.listed, hs.apart, by rw [hkeep source hsd],
    assign_of_some htn (h.owned.table source hs.listed i hi hp), assign_self, hzero⟩

theorem SpaceCopied.skip (h : SpaceCopied R own₀ dirs pending source dest m₀ i own m)
    (hp : present (m₀.phys source i) = false) :
    SpaceCopied R own₀ dirs pending source dest m₀ (i + 1) own m := by
  refine ⟨h.owned, h.owners, h.bits, h.kept, h.low, fun k hk => ?_, fun k hk => h.rest k (by omega)⟩
  by_cases hki : k = i
  · subst hki
    refine ⟨fun _ => h.rest k (Nat.le_refl k), fun _ hp' => ?_, fun _ hp' => ?_⟩
    · rw [hp] at hp'
      cases hp'
    · rw [hp] at hp'
      cases hp'
  · exact h.copied k (by omega)

/-- Below USER_FUNC_VADDR the copy shares the table. -/
theorem SpaceCopied.share (h : SpaceCopied R own₀ dirs pending source dest m₀ i own m)
    (hs : SpaceSource R own₀ dirs pending source dest m₀) (hi : i < userIndex)
    (hp : present (m.phys source i) = true) :
    SpaceCopied R own₀ dirs pending source dest m₀ (i + 1) own (m.put dest i (m.phys source i)) := by
  have hdd := hs.owned.directory dest hs.target
  have hsrc : m.phys source = m₀.phys source :=
    h.kept source (held_directory (hs.owned.directory source hs.listed)) hs.apart
  obtain ⟨hlow, hu⟩ := h.owned.low source hs.listed i hi hp
  have hkept : ∀ T, own₀ T = some .low → (m.put dest i (m.phys source i)).phys T = m.phys T :=
    fun T hT => m.put_frame_ne i _ (owner_ne hT hdd (by simp))
  refine ⟨h.owned.put_low hs.target hi hp hlow hu, h.owners, h.bits, fun g hg hgd => ?_,
    h.low.trans (.of_phys hkept), fun k hk => ?_, fun k hk => ?_⟩
  · rw [m.put_frame_ne i _ hgd, h.kept g hg hgd]
  · by_cases hki : k = i
    · subst hki
      refine ⟨fun ha => ?_, fun _ _ => by rw [Memory.put_self, hsrc], fun hk' => absurd hi (by omega)⟩
      rw [← hsrc, hp] at ha
      cases ha
    · exact (h.copied k (by omega)).keep (fun _ _ ho => ho) (m.put_word_ne dest _ hki)
        (fun g _ hgd => m.put_frame_ne i _ hgd) (h.owners dest _ hdd)
  · rw [m.put_word_ne dest _ (by omega), h.rest k (by omega)]

theorem copyEntry_step (hs : SpaceSource R own₀ dirs pending source dest m₀)
    (h : SpaceCopied R own₀ dirs pending source dest m₀ i own m)
    (hm : (copyEntry dest source i m).exhausted = false) :
    ∃ own', SpaceCopied R own₀ dirs pending source dest m₀ (i + 1) own'
      (copyEntry dest source i m) := by
  have hsd := hs.owned.directory source hs.listed
  have hdd := hs.owned.directory dest hs.target
  have hsrc : m.phys source = m₀.phys source := h.kept source (held_directory hsd) hs.apart
  cases hp : present (m.phys source i) with
  | false =>
    rw [copyEntry_absent hp]
    exact ⟨own, h.skip (hsrc ▸ hp)⟩
  | true =>
    have hpre : present (m₀.phys source i) = true := hsrc ▸ hp
    by_cases hi : i < userIndex
    · rw [copyEntry_low hp hi]
      exact ⟨own, h.share hs hi hp⟩
    · have hi : userIndex ≤ i := Nat.le_of_not_lt hi
      rw [copyEntry_table hp hi] at hm ⊢
      dsimp only at hm ⊢
      rw [Memory.put_exhausted] at hm
      have hmet := tableStart_served (loop_served (fun _ _ => copyPage_served) hm)
      have hts := h.tableSource hs hp hi hmet
      obtain ⟨htn, -, -, hbits₂, hlow₂, hkeep₂⟩ := h.owned.newTable dest hs.listed hp hi hmet
      generalize (allocateFrame m).1 = t at *
      generalize tableStart source m = m₂ at *
      have hext : ∀ f o, own f = some o → assign own t (.table dest i) f = some o :=
        fun _ _ => assign_of_some htn
      have hsd₂ := h.owners source _ hsd
      have hsrc₂ : m₂.phys source = m.phys source := hkeep₂ source (held_directory hsd₂)
      obtain ⟨own', hc⟩ := copyPages hts (Nat.le_refl 1024) hm
      generalize loop 1024 (copyPage source (frameOf (m.phys source i)) t) m₂ = m₃ at *
      have hdd' := hc.owners dest _ (hext _ _ (h.owners dest _ hdd))
      -- what was in use before this index is as it was
      have hkeep : ∀ g, held own g → m₃.phys g = m.phys g := by
        intro g hg
        rw [hc.kept g (held_mono hext hg) (held_ne htn hg), hkeep₂ g hg]
      have hsrc₃ : m₃.phys source = m₀.phys source :=
        (hkeep source (held_directory hsd₂)).trans hsrc
      have hdest₃ : m₃.phys dest = m.phys dest :=
        hkeep dest (held_directory (h.owners dest _ hdd))
      have howners : ∀ f o, own f = some o → own' f = some o :=
        fun f o ho => hc.owners f o (hext f o ho)
      rw [hsrc₃]
      have hlinked := hc.owned.linkTable (flagsOf (m₀.phys source i)) (hc.owners t _ assign_self)
        hs.target hi (flagsOf_lt _) ((flagsOf_present _).mpr hpre)
        ((flagsOf_user _).trans (hs.owned.userEntry source hs.listed i hi hpre)) fun _ => by
          rw [hdest₃, h.rest i (Nat.le_refl i), present_zero]
      have hlow : LowKept own₀ m₀ (m₃.put dest i (entry t (flagsOf (m₀.phys source i)))) := by
        have hlow₂ : LowKept own₀ m m₂ := fun T j hT => hlow₂ T j (h.owners T _ hT)
        have hlow₃ : LowKept own₀ m₂ m₃ := fun T j hT => hc.low T j (hext T _ (h.owners T _ hT))
        refine ((h.low.trans hlow₂).trans hlow₃).trans (.of_phys fun T hT => ?_)
        exact m₃.put_frame_ne i _ (owner_ne hT hdd (by simp))
      refine ⟨own', hlinked, fun f o ho => howners f o (h.owners f o ho), fun g hg => ?_,
        fun g hg hgd => ?_, hlow, fun k hk => ?_, fun k hk => ?_⟩
      · rw [Memory.put_bitmap]
        exact hc.bits g (hbits₂ g (h.bits g hg))
      · rw [m₃.put_frame_ne i _ hgd, hkeep g (held_mono h.owners hg), h.kept g hg hgd]
      · by_cases hki : k = i
        swap
        · refine (h.copied k (by omega)).keep howners ?_ (fun g hg hgd => ?_) (h.owners dest _ hdd)
          · rw [m₃.put_word_ne dest _ hki, hdest₃]
          · rw [m₃.put_frame_ne i _ hgd, hkeep g hg]
        subst hki
        refine ⟨fun ha => ?_, fun hk' => absurd hi (by omega), fun _ _ => ?_⟩
        · rw [hpre] at ha
          cases ha
        · have htt := hc.owners t _ assign_self
          refine ⟨t, Memory.put_self .., htt, fun j hj => ?_⟩
          have hS₀ := hs.owned.table source hs.listed k hi hpre
          have hSm₀ : m.phys (frameOf (m.phys source k)) = m₀.phys (frameOf (m₀.phys source k)) := by
            rw [hsrc, h.kept _ (held_table hS₀) (owner_ne hS₀ hdd (by simp))]
          have hcj := hc.copied j hj
          rw [hsrc] at hcj hSm₀
          refine (hcj.base ?_ (fun g hg => hbits₂ g (h.bits g hg)) fun hu hpj => ?_).keep
            (fun _ _ ho => ho) ?_ fun g hg => ?_
          · rw [hkeep₂ _ (held_table (h.owners _ _ hS₀)), hSm₀]
          · have hpage := hs.owned.page _ source k j hS₀ hpj hu
            rw [hkeep₂ _ (held_page (h.owners _ _ hpage)),
              h.kept _ (held_page hpage) (owner_ne hpage hdd (by simp))]
          · rw [m₃.put_frame_ne k _ (owner_ne htt hdd' (by simp))]
          · rw [m₃.put_frame_ne k _ (owner_ne hg hdd' (by simp))]
      · rw [m₃.put_word_ne dest _ (by omega), hdest₃, h.rest k (by omega)]

/-- A directory is copied into an empty one index after index. -/
theorem SpaceSource.copyEntries (hs : SpaceSource R own₀ dirs pending source dest m₀) {n : Nat}
    (hm : (loop n (copyEntry dest source) m₀).exhausted = false) :
    ∃ own, SpaceCopied R own₀ dirs pending source dest m₀ n own
      (loop n (copyEntry dest source) m₀) := by
  have hstart : SpaceCopied R own₀ dirs pending source dest m₀ 0 own₀ m₀ :=
    ⟨hs.owned, fun _ _ ho => ho, fun _ hg => hg, fun _ _ _ => rfl, .refl own₀ m₀,
      fun k hk => absurd hk (by omega), fun k _ => congrFun hs.empty k⟩
  refine loop_met (fun i r => ∃ own, SpaceCopied R own₀ dirs pending source dest m₀ i own r)
    (fun _ _ => copyEntry_served) hm ⟨own₀, hstart⟩ ?_
  rintro i - r ⟨own, h⟩ hr
  exact copyEntry_step hs h hr

theorem copyPageDirectory_eq (dest source : Nat) (m : Memory) :
    copyPageDirectory dest source m = loop 1024 (copyEntry dest source) m := (rfl)

/-! ### fork -/

/- The directory part of fork: the space of `child` is a copy of that of `source` in m₀, and
   everything in use before is as it was. -/
structure Forked (R : Regime) (own₀ : Owners) (dirs : List Nat) (source child : Nat) (m₀ : Memory)
    (own : Owners) (m : Memory) : Prop where
  owned : Owned R own (child :: dirs) [] m
  owners : ∀ f o, own₀ f = some o → own f = some o
  bits : ∀ g, m₀.bitmap g = true → m.bitmap g = true
  kept : ∀ g, held own₀ g → m.phys g = m₀.phys g
  low : LowKept own₀ m₀ m
  fresh : own₀ child = none ∧ m₀.bitmap child = false
  copied : ∀ i < 1024, EntryCopied own m₀ source child m i

def forkStart (source : Nat) (m : Memory) : Memory :=
  let r := allocateFrame m
  (r.2.put (frameOf (r.2.phys source (r.1 / 1024))) (r.1 % 1024) (entry r.1 pageFlagKernel)).fill r.1
    fun _ => 0

theorem forkDirectory_eq (source : Nat) (m : Memory) : forkDirectory source m =
    ((allocateFrame m).1, copyPageDirectory (allocateFrame m).1 source (forkStart source m)) := by
  rw [forkDirectory, forkStart]

/-- The new directory and the source are ready to be copied, and nothing in use has changed. -/
theorem Owned.forkSource (h : Owned R own dirs [] m) (hs : source ∈ dirs)
    (hm : (allocateFrame m).2.exhausted = false) :
    let d := (allocateFrame m).1
    own d = none ∧ SpaceSource R (assign own d .directory) (d :: dirs) [] source d
        (forkStart source m) ∧
      (∀ g, held own g → (forkStart source m).phys g = m.phys g) ∧
      (∀ g, m.bitmap g = true → (forkStart source m).bitmap g = true) ∧
      LowKept own m (forkStart source m) := by
  unfold forkStart
  dsimp only
  have hspec := allocateFrame_spec hm
  obtain ⟨hn, h₁⟩ := h.allocate hm
  generalize (allocateFrame m).1 = d at *
  generalize (allocateFrame m).2 = m₁ at *
  have hphys : m₁.phys = m.phys := by rw [show m₁ = _ from hspec.eq, Memory.mark_phys]
  -- the inline mapping of the new frame writes what identity_map_in would
  obtain ⟨hmap, hkeep⟩ := h₁.identityMap hs (f := d) (.inl (frame_index hspec.lt))
  have hput : (m₁.put (frameOf (m₁.phys source (d / 1024))) (d % 1024)
      (entry d pageFlagKernel)).phys = (identityMapIn source d m₁).phys :=
    (identityMapIn_phys source d m₁).symm
  have h₂ := hmap.of_eq (by rw [Memory.put_bitmap, identityMapIn_bitmap]) hput
  rw [← hput] at hkeep
  have hlow : LowKept own m (m₁.put (frameOf (m₁.phys source (d / 1024))) (d % 1024)
      (entry d pageFlagKernel)) := by
    intro T j hT
    rw [hput, ← hphys]
    exact identityMapIn_low source d m₁ T j hT
  have hbits : ∀ g, m.bitmap g = true → m₁.bitmap g = true := by
    intro g hg
    rw [show m₁ = _ from hspec.eq]
    by_cases hgd : g = d
    · rw [hgd, Memory.mark_self]
    · rw [m.mark_of_ne true hgd, hg]
  have h₃ := (h₂.fill_plain (w := fun _ => 0) (.inl hn)).makeDirectory hn (Memory.fill_self ..)
  refine ⟨hn, ⟨h₃, List.mem_cons_of_mem d hs, List.mem_cons_self,
    Owned.ne_of_none hn (h.directory source hs), Memory.fill_self ..⟩, fun g hg => ?_, hbits,
    hlow.trans (.of_phys fun T hT => ?_)⟩
  · rw [Memory.fill_ne _ _ (held_ne hn hg), hkeep g hg, hphys]
  · exact Memory.fill_ne _ _ (Owned.ne_of_none hn hT)

theorem forkDirectory_met (hm : (forkDirectory source m).2.exhausted = false) :
    (allocateFrame m).2.exhausted = false := by
  rw [forkDirectory_eq] at hm
  dsimp only at hm
  have hl := copyPageDirectory_served hm
  rwa [forkStart, Memory.fill_exhausted, Memory.put_exhausted] at hl

theorem Owned.forked (h : Owned R own dirs [] m) (hs : source ∈ dirs)
    (hm : (forkDirectory source m).2.exhausted = false) :
    ∃ own', Forked R own dirs source (forkDirectory source m).1 m own'
      (forkDirectory source m).2 := by
  have hmet := forkDirectory_met hm
  have hspec := allocateFrame_spec hmet
  obtain ⟨hn, hsource, hstart, hbits, hlow⟩ := h.forkSource hs hmet
  rw [forkDirectory_eq, copyPageDirectory_eq] at hm ⊢
  dsimp only at hm ⊢
  generalize (allocateFrame m).1 = d at *
  obtain ⟨own', hc⟩ := hsource.copyEntries hm
  generalize loop 1024 (copyEntry d source) (forkStart source m) = m' at *
  generalize forkStart source m = m₁ at *
  have hsome : ∀ f o, own f = some o → assign own d .directory f = some o := fun _ _ => assign_of_some hn
  have hkept : ∀ g, held own g → m'.phys g = m.phys g := by
    intro g hg
    rw [hc.kept g (held_mono hsome hg) (held_ne hn hg), hstart g hg]
  have hlow' : LowKept own m m' := hlow.trans fun T j hT => hc.low T j (hsome T _ hT)
  refine ⟨own', hc.owned, fun f o ho => hc.owners f o (hsome f o ho),
    fun g hg => hc.bits g (hbits g hg), hkept, hlow', ⟨hn, hspec.free⟩, fun i hi => ?_⟩
  have he := hc.copied i hi
  have hsrc := hstart source (held_directory (h.directory source hs))
  refine ⟨fun ha => he.absent (by rw [hsrc, ha]), fun hl hp => ?_, fun hl hp => ?_⟩
  · rw [he.low hl (by rw [hsrc]; exact hp), hsrc]
  · obtain ⟨t, hte, hto, hpages⟩ := he.table hl (by rw [hsrc]; exact hp)
    rw [hsrc] at hte hpages
    have hS := h.table source hs i hl hp
    refine ⟨t, hte, hto, fun k hk => (hpages k hk).base ?_ hbits fun hu hpk => ?_⟩
    · rw [hstart _ (held_table hS)]
    · exact hstart _ (held_page (h.page _ source i k hS hpk hu))

end Copying

end AdamOS.Paging
