import AdamOS.Files.Descriptors

/-! Reads of any length. handle_syscall_read takes its minimum of two unsigned numbers through
`int min(int, int)`. -/
namespace AdamOS.Files
open AdamOS.Fat16 AdamOS.Process AdamOS.Word

def ReadsExact (data : List UInt8) (i : Nat) : List Nat → Nat → FileState → Prop
  | [], _, _ => True
  | len :: lens, offset, s => ∃ r, readFd i len s = some r ∧ ReadExact data i len offset r ∧
      ReadsExact data i lens (offset + r.eax) r.state

def readBytes (i : Nat) : List Nat → FileState → Option (List UInt8)
  | [], _ => some []
  | len :: lens, s => (readFd i len s).bind fun r => (readBytes i lens r.state).map (r.bytes ++ ·)

/- Each length is an int exactly if the number of bytes left is one, until none is left. -/
def SameSign (size : Nat) : List Nat → Nat → Prop
  | [], _ => True
  | len :: lens, offset =>
    (size ≤ offset ∨ (len < 2147483648 ↔ size - offset < 2147483648)) ∧
      SameSign size lens (offset + min len (size - offset))

instance sameSignDecidable (size : Nat) : ∀ lens offset, Decidable (SameSign size lens offset)
  | [], _ => .isTrue trivial
  | len :: lens, offset =>
    have := sameSignDecidable size lens (offset + min len (size - offset))
    inferInstanceAs (Decidable (_ ∧ _))

/- Every read is exact, and together they return a prefix of what is left of the data. -/
structure ReadsInBounds (data : List UInt8) (i : Nat) (lens : List Nat) (offset : Nat) (s : FileState) :
    Prop where
  each : ReadsExact data i lens offset s
  together : ∃ out, readBytes i lens s = some out ∧ out <+: data.drop offset

theorem min32_eq_iff {x y : Nat} (hx : x < 4294967296) (hy : y < 4294967296) :
    min32 x y = min x y ↔ (x < 2147483648 ↔ y < 2147483648) := by
  unfold min32 toInt32
  rw [wrap_eq hx, wrap_eq hy]
  split <;> split <;> split <;> omega

section reads
variable {s : FileState} {i offset len : Nat} {lens : List Nat} {data : List UInt8} {r : ReadResult}

theorem ReadsFrom.read_exact (h : ReadsFrom s i data offset) (hle : offset ≤ data.length)
    (hlen : len < 4294967296)
    (hsign : data.length ≤ offset ∨ (len < 2147483648 ↔ data.length - offset < 2147483648)) :
    ∃ r, readFd i len s = some r ∧ ReadExact data i len offset r ∧
      ReadsFrom r.state i data (offset + r.eax) := by
  by_cases hend : data.length ≤ offset
  · have hzero : data.length - offset = 0 := Nat.sub_eq_zero_of_le hend
    refine ⟨_, h.read_end hend len, ⟨by rw [hzero, Nat.min_zero], rfl, h.position, hle⟩, h⟩
  · have hword := h.word
    refine h.read_more (Nat.lt_of_not_le hend) ?_
    exact (min32_eq_iff hlen (by omega)).mpr (hsign.resolve_left hend)

theorem ReadsFrom.sign_of_exact (h : ReadsFrom s i data offset) (hlen : len < 4294967296)
    (hr : readFd i len s = some r) (he : ReadExact data i len offset r) :
    data.length ≤ offset ∨ (len < 2147483648 ↔ data.length - offset < 2147483648) := by
  by_cases hend : data.length ≤ offset
  · exact .inl hend
  · have hword := h.word
    rw [h.read_eq (Nat.lt_of_not_le hend)] at hr
    split at hr
    · obtain rfl := Option.some.inj hr
      exact .inr ((min32_eq_iff hlen (by omega)).mp he.count)
    · cases hr

/-- What exact reads return one after the other is the data from the offset on. -/
theorem ReadsExact.bytes_prefix (h : ReadsExact data i lens offset s) :
    ∃ out, readBytes i lens s = some out ∧ out <+: data.drop offset := by
  induction lens generalizing s offset with
  | nil => exact ⟨[], rfl, List.nil_prefix⟩
  | cons len lens ih =>
    obtain ⟨r, hr, he, hrest⟩ := h
    obtain ⟨out, hout, hpre⟩ := ih hrest
    refine ⟨r.bytes ++ out, ?_, ?_⟩
    · rw [readBytes, hr, Option.bind_some, hout]
      rfl
    · obtain ⟨rest, hrest⟩ := hpre
      refine ⟨rest, ?_⟩
      rw [he.bytes, List.append_assoc, hrest, ← List.drop_drop, List.take_append_drop]

theorem ReadsFrom.exact_iff (h : ReadsFrom s i data offset) (hle : offset ≤ data.length)
    (hlens : ∀ len ∈ lens, len < 4294967296) :
    ReadsExact data i lens offset s ↔ SameSign data.length lens offset := by
  induction lens generalizing s offset with
  | nil => exact iff_of_true trivial trivial
  | cons len lens ih =>
    have hlen := hlens len List.mem_cons_self
    have hrest := fun l hl => hlens l (List.mem_cons_of_mem _ hl)
    constructor
    · rintro ⟨r, hr, he, hexact⟩
      have hsign := h.sign_of_exact hlen hr he
      obtain ⟨r', hr', he', hfrom⟩ := h.read_exact hle hlen hsign
      obtain rfl := Option.some.inj (hr'.symm.trans hr)
      rw [ih hfrom he.inside hrest, he.count] at hexact
      exact ⟨hsign, hexact⟩
    · rintro ⟨hsign, hrest'⟩
      obtain ⟨r, hr, he, hfrom⟩ := h.read_exact hle hlen hsign
      rw [← he.count] at hrest'
      exact ⟨r, hr, he, (ih hfrom he.inside hrest).mpr hrest'⟩

/-- The reads respect their bounds exactly if no length changes sign against the bytes left. -/
theorem reads_in_bounds_iff (h : ReadsFrom s i data offset) (hle : offset ≤ data.length)
    (hlens : ∀ len ∈ lens, len < 4294967296) :
    ReadsInBounds data i lens offset s ↔ SameSign data.length lens offset := by
  rw [← h.exact_iff hle hlens]
  exact ⟨fun hb => hb.each, fun he => ⟨he, he.bytes_prefix⟩⟩

end reads

def threeBytes : FileState where
  disk := fun _ _ => 0
  fds := initialFds.set 2 ⟨.file, 0x10000C, 0, true⟩
  files := fun _ => ⟨[65, 66, 67], 3, 0, 2⟩
  fds_length := rfl

theorem threeBytes_open : ReadsFrom threeBytes 2 [65, 66, 67] 0 :=
  ⟨by decide, rfl, rfl, rfl, rfl, by decide⟩

theorem threeBytes_in_bounds : ReadsInBounds [65, 66, 67] 2 [2, 2, 0x80000000] 0 threeBytes :=
  (reads_in_bounds_iff threeBytes_open (by decide) (by decide)).mpr (by decide)

/-- A length of 2^31 is negative for min: memcpy is asked for 2^31 bytes of the three. -/
theorem threeBytes_out_of_bounds : ¬∀ s i data offset lens, ReadsFrom s i data offset →
    offset ≤ data.length → (∀ len ∈ lens, len < 4294967296) → ReadsInBounds data i lens offset s := by
  intro h
  obtain ⟨r, hr, -⟩ := (h threeBytes 2 [65, 66, 67] 0 [0x80000000] threeBytes_open (by decide)
    (by decide)).each
  have hnone : readFd 2 0x80000000 threeBytes = none := by
    rw [threeBytes_open.read_eq (by decide)]
    exact if_neg (by decide)
  rw [hnone] at hr
  cases hr

end AdamOS.Files
