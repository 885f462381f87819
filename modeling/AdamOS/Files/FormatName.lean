import AdamOS.Files.Directory
import AdamOS.Lib.Loop
import Mathlib.Data.List.TakeWhile

/-! fat16_format_name with its local arrays: strcpy and strtok write to them without a limit. -/
namespace AdamOS.Fat16
open AdamOS.Loop

/- An array on the stack; bytes are counted from its start, also those beyond it. -/
structure Local where
  size : Nat
  bytes : Nat → UInt8
  /- one more than the largest index that was written -/
  extent : Nat

def Local.store (i : Nat) (c : UInt8) (b : Local) : Local :=
  { b with bytes := fun j => if j = i then c else b.bytes j, extent := max b.extent (i + 1) }

def Local.clear (b : Local) : Local :=
  { b with bytes := fun j => if j < b.size then 0 else b.bytes j, extent := max b.extent b.size }

/- The bytes of a string and its NUL, from dest[i] on. -/
def strcpy : List UInt8 → Nat → Local → Local
  | [], i, dest => dest.store i 0
  | c :: cs, i, dest => strcpy cs (i + 1) (dest.store i c)

def stringAt (bytes : Nat → UInt8) : Nat → Nat → List UInt8
  | 0, _ => []
  | n+1, i => if bytes i = 0 then [] else bytes i :: stringAt bytes n (i + 1)

/- The loop of strtok that fills dest: i, string_token and dest after it. -/
def strtokCopy (delim : UInt8) : List UInt8 → Nat → Local → Nat × List UInt8 × Local
  | [], i, dest => (i, [], dest)
  | c :: cs, i, dest =>
    if c = delim then (i, c :: cs, dest) else strtokCopy delim cs (i + 1) (dest.store i c)

/- string_token is the rest of its string. -/
def strtokInto (delim : UInt8) (dest : Local) (token : List UInt8) : Local × List UInt8 :=
  if token = [] then (dest.store 0 0, [])
  else
    let r := strtokCopy delim (token.dropWhile (· == delim)) 0 dest
    (r.2.2.store r.1 0, r.2.1.tail)

/- The loops at the end, with name_ended and ext_ended. -/
def padInto (n : Nat) (component out : Local) : Local :=
  (loop n (fun i r =>
    if !r.1 && component.bytes i != 0 then (false, r.2.store i (toUpper (component.bytes i)))
    else (true, r.2.store i space)) (false, out)).2

structure FormatFrame where
  temp : Local
  name : Local
  ext : Local
  nameOut : Local
  extOut : Local

def FormatFrame.arrays (f : FormatFrame) : List Local := [f.temp, f.name, f.ext, f.nameOut, f.extOut]

/- `stack` is what the arrays held before. -/
def formatNameFrame (stack : Nat → Nat → UInt8) (input : CString) : FormatFrame :=
  let temp := strcpy input.chars 0 ⟨64, stack 0, 0⟩
  let string := stringAt temp.bytes (input.chars.length + 1) 0
  let name := strtokInto dot (Local.clear ⟨9, stack 1, 0⟩) string
  let ext := strtokInto dot (Local.clear ⟨4, stack 2, 0⟩) name.2
  { temp := temp
    name := name.1
    ext := ext.1
    nameOut := padInto 8 name.1 ⟨8, stack 3, 0⟩
    extOut := padInto 3 ext.1 ⟨3, stack 4, 0⟩ }

/-! ### Tokens -/

def tokens (delim : UInt8) (s : List UInt8) : List (List UInt8) :=
  (s.splitOn delim).filter fun c => !c.isEmpty

section Tokens
variable {delim : UInt8} {s : List UInt8}

theorem tokens_nil : tokens delim [] = [] := rfl

theorem tokens_delim (s : List UInt8) : tokens delim (delim :: s) = tokens delim s := by
  rw [tokens, List.splitOn_cons_eq_if_modifyHead, if_pos (beq_self_eq_true delim)]
  rfl

theorem tokens_dropWhile (s : List UInt8) : tokens delim (s.dropWhile (· == delim)) = tokens delim s := by
  induction s with
  | nil => rfl
  | cons c cs ih =>
    rw [List.dropWhile_cons]
    split
    · rename_i hdelim
      rw [eq_of_beq hdelim, tokens_delim, ih]
    · rfl

theorem tokens_strtok (delim : UInt8) (s : List UInt8) : tokens delim s =
    if (strtok delim s).1 = [] then [] else (strtok delim s).1 :: tokens delim (strtok delim s).2 := by
  rw [← tokens_dropWhile, strtok]
  dsimp only
  have hfirst : ∀ c ∈ (s.dropWhile (· == delim)).head?, c ≠ delim := by
    intro c hc he
    have hnot := List.head?_dropWhile_not (· == delim) s
    rw [Option.mem_def.mp hc, he] at hnot
    simp at hnot
  generalize s.dropWhile (· == delim) = t at *
  have hsplit := @List.takeWhile_append_dropWhile _ (· != delim) t
  have hno : delim ∉ t.takeWhile (· != delim) := fun hmem => by
    have hkept := List.mem_takeWhile_imp hmem
    simp at hkept
  generalize hw : t.takeWhile (· != delim) = word at *
  generalize hr : t.dropWhile (· != delim) = rest at *
  by_cases hempty : word = []
  · rw [if_pos hempty]
    cases t with
    | nil => rfl
    | cons c cs =>
      have hc : c ≠ delim := hfirst c rfl
      rw [List.takeWhile_cons_of_pos (by simpa using hc)] at hw
      rw [hempty] at hw
      cases hw
  · rw [if_neg hempty, ← hsplit]
    have hkeep : (!word.isEmpty) = true := by
      cases word with
      | nil => exact absurd rfl hempty
      | cons => rfl
    cases rest with
    | nil =>
      rw [List.append_nil, tokens, List.splitOn_eq_singleton hno]
      simp [hkeep, tokens_nil]
    | cons c cs =>
      have hc : c = delim := by
        have hnot := List.head?_dropWhile_not (· != delim) t
        rw [hr] at hnot
        simpa using hnot
      rw [hc, tokens, List.splitOn_append_cons_self_of_not_mem hno, List.filter_cons, if_pos hkeep]
      rfl

theorem strtok_empty (h : (strtok delim s).1 = []) : tokens delim s = [] ∧ (strtok delim s).2 = [] := by
  refine ⟨by rw [tokens_strtok, if_pos h], ?_⟩
  unfold strtok at h ⊢
  dsimp only at h ⊢
  have hnot := List.head?_dropWhile_not (· == delim) s
  cases ht : s.dropWhile (· == delim) with
  | nil => rfl
  | cons c cs =>
    rw [ht] at h hnot
    have hc : c ≠ delim := by simpa using hnot
    rw [List.takeWhile_cons_of_pos (by simpa using hc)] at h
    cases h

end Tokens

/-! ### Components -/

def components (s : List UInt8) : List (List UInt8) := (s.splitOn dot).filter fun c => !c.isEmpty

def component (k : Nat) (s : List UInt8) : List UInt8 := (components s).getD k []

/- Nothing is written outside an array, and the outputs are the components, cut and padded. -/
def FormatExact (f : FormatFrame) (input : CString) : Prop :=
  (∀ b ∈ f.arrays, b.extent ≤ b.size) ∧
    (∀ i < 8, f.nameOut.bytes i = padField (component 0 input.chars) i) ∧
    ∀ i < 3, f.extOut.bytes i = padField (component 1 input.chars) i

/- The string fits temp, its components name and ext. -/
def FitsArrays (input : CString) : Prop :=
  input.chars.length < 64 ∧ (component 0 input.chars).length ≤ 8 ∧
    (component 1 input.chars).length ≤ 3

instance (input : CString) : Decidable (FitsArrays input) := inferInstanceAs (Decidable (_ ∧ _ ∧ _))

theorem component_tokens (k : Nat) (s : List UInt8) : component k s = (tokens dot s).getD k [] := rfl

theorem component_strtok (s : List UInt8) : component 0 s = (strtok dot s).1 ∧
    component 1 s = (strtok dot (strtok dot s).2).1 := by
  rw [component_tokens, component_tokens]
  by_cases hfirst : (strtok dot s).1 = []
  · obtain ⟨hnone, hrest⟩ := strtok_empty hfirst
    rw [hnone, hfirst, hrest]
    exact ⟨rfl, rfl⟩
  · rw [tokens_strtok, if_neg hfirst]
    refine ⟨rfl, ?_⟩
    rw [List.getD_cons_succ, tokens_strtok]
    by_cases hsecond : (strtok dot (strtok dot s).2).1 = []
    · rw [if_pos hsecond, hsecond]
      rfl
    · rw [if_neg hsecond]
      rfl

/-- The format of a name is defined where its string fits the arrays. -/
theorem fat16FormatName_eq (input : CString) : fat16FormatName input =
    if FitsArrays input then
      some ⟨padField (component 0 input.chars), padField (component 1 input.chars)⟩
    else none := by
  obtain ⟨hname, hext⟩ := component_strtok input.chars
  rw [hname, hext]
  refine if_congr ?_ rfl rfl
  unfold FitsArrays
  rw [hname, hext]
  exact and_congr Iff.rfl (and_congr Nat.lt_succ_iff Nat.lt_succ_iff)

/-! ### Writes -/

section Writes
variable {s : List UInt8} {dest b : Local} {i j n : Nat}

theorem strcpy_writes (s : List UInt8) (i : Nat) (dest : Local) :
    (strcpy s i dest).size = dest.size ∧ (strcpy s i dest).extent = max dest.extent (i + s.length + 1) ∧
      (∀ j < i, (strcpy s i dest).bytes j = dest.bytes j) ∧
      (∀ j c, s[j]? = some c → (strcpy s i dest).bytes (i + j) = c) ∧
      (strcpy s i dest).bytes (i + s.length) = 0 := by
  induction s generalizing i dest with
  | nil =>
    refine ⟨rfl, rfl, fun j hj => if_neg (Nat.ne_of_lt hj), fun j c h => ?_, if_pos rfl⟩
    cases h
  | cons c cs ih =>
    obtain ⟨hsize, hextent, hbefore, hchars, hnul⟩ := ih (i + 1) (dest.store i c)
    have hend : i + (c :: cs).length = i + 1 + cs.length := by
      rw [List.length_cons]
      omega
    rw [strcpy, hend]
    refine ⟨hsize, ?_, fun j hj => ?_, fun j d hd => ?_, hnul⟩
    · rw [hextent]
      change max (max dest.extent (i + 1)) _ = _
      omega
    · rw [hbefore j (by omega)]
      exact if_neg (Nat.ne_of_lt hj)
    · cases j with
      | zero =>
        cases hd
        exact (hbefore i (Nat.lt_succ_self i)).trans (if_pos rfl)
      | succ j =>
        rw [Nat.add_comm j 1, ← Nat.add_assoc]
        exact hchars j d hd

theorem stringAt_eq {bytes : Nat → UInt8} (hs : ∀ c ∈ s, c ≠ 0) (hn : s.length < n)
    (hchars : ∀ j c, s[j]? = some c → bytes (i + j) = c) (hnul : bytes (i + s.length) = 0) :
    stringAt bytes n i = s := by
  induction n generalizing i s with
  | zero => cases hn
  | succ n ih =>
    cases s with
    | nil => exact if_pos hnul
    | cons c cs =>
      have hfirst : bytes i = c := hchars 0 c rfl
      have hc : c ≠ 0 := hs c List.mem_cons_self
      have hrest := @ih cs (i + 1) (fun d hd => hs d (List.mem_cons_of_mem c hd)) (by
        rw [List.length_cons] at hn
        omega) (fun j d hd => by
        rw [Nat.add_assoc, Nat.add_comm 1]
        exact hchars (j + 1) d hd) (by
        rw [Nat.add_assoc, Nat.add_comm 1]
        exact hnul)
      rw [stringAt, hfirst, if_neg hc, hrest]

theorem strtokCopy_eq (delim : UInt8) (s : List UInt8) (i : Nat) (dest : Local) :
    ((strtokCopy delim s i dest).2.2.store (strtokCopy delim s i dest).1 0, (strtokCopy delim s i dest).2.1) =
      (strcpy (s.takeWhile (· != delim)) i dest, s.dropWhile (· != delim)) := by
  induction s generalizing i dest with
  | nil => rfl
  | cons c cs ih =>
    by_cases hc : c = delim
    · have hstop : ¬(c != delim) = true := by simpa using hc
      rw [strtokCopy, if_pos hc, List.takeWhile_cons, if_neg hstop, List.dropWhile_cons, if_neg hstop]
      rfl
    · have hgo : (c != delim) = true := by simpa using hc
      rw [strtokCopy, if_neg hc, List.takeWhile_cons, if_pos hgo, List.dropWhile_cons, if_pos hgo]
      exact ih (i + 1) (dest.store i c)

/-- strtok copies a token as strcpy would. -/
theorem strtokInto_eq (delim : UInt8) (dest : Local) (token : List UInt8) :
    strtokInto delim dest token = (strcpy (strtok delim token).1 0 dest, (strtok delim token).2) := by
  have hcopy := strtokCopy_eq delim (token.dropWhile (· == delim)) 0 dest
  rw [Prod.mk.injEq] at hcopy
  unfold strtokInto
  by_cases hempty : token = []
  · rw [if_pos hempty, hempty]
    rfl
  · rw [if_neg hempty]
    dsimp only
    rw [hcopy.1, hcopy.2]
    rfl

theorem padField_past {i : Nat} (h : s.length ≤ i) : padField s i = space := by
  rw [padField, List.getElem?_eq_none h]

/-- The loops at the end write the field, and nothing beyond it. -/
theorem padInto_eq (hs : ∀ c ∈ s, c ≠ 0) (hchars : ∀ j c, s[j]? = some c → b.bytes j = c)
    (hnul : b.bytes s.length = 0) (n : Nat) (out : Local) :
    (padInto n b out).size = out.size ∧ (padInto n b out).extent ≤ max out.extent n ∧
      ∀ i < n, (padInto n b out).bytes i = padField s i := by
  let inv (k : Nat) (r : Bool × Local) : Prop := r.1 = decide (s.length < k) ∧ r.2.size = out.size ∧
    r.2.extent ≤ max out.extent k ∧ ∀ i < k, r.2.bytes i = padField s i
  have hstart : inv 0 (false, out) := ⟨rfl, rfl, Nat.le_max_left _ _, fun i hi => absurd hi (Nat.not_lt_zero i)⟩
  refine (loop_invariant inv hstart fun k hk r hr => ?_).2
  obtain ⟨hended, hsize, hextent, hbytes⟩ := hr
  -- whatever the branch, one byte is stored at k
  have hstore : ∀ c, c = padField s k → (r.2.store k c).size = out.size ∧
      (r.2.store k c).extent ≤ max out.extent (k + 1) ∧
      ∀ i < k + 1, (r.2.store k c).bytes i = padField s i := by
    intro c hc
    refine ⟨hsize, ?_, fun i hi => ?_⟩
    · change max r.2.extent (k + 1) ≤ _
      omega
    · by_cases he : i = k
      · rw [he, ← hc]
        exact if_pos rfl
      · rw [← hbytes i (by omega)]
        exact if_neg he
  rcases Nat.lt_trichotomy k s.length with hlt | heq | hgt
  · obtain ⟨c, hc⟩ : ∃ c, s[k]? = some c := ⟨_, List.getElem?_eq_getElem hlt⟩
    have hbyte : b.bytes k = c := hchars k c hc
    have hne : c ≠ 0 := hs c (List.mem_of_getElem? hc)
    have hgo : (!r.1 && b.bytes k != 0) = true := by
      rw [hended, hbyte, decide_eq_false (by omega)]
      simpa using hne
    rw [if_pos hgo]
    refine ⟨(decide_eq_false (by omega)).symm, hstore _ ?_⟩
    rw [padField, hc, hbyte]
  · have hstop : ¬(!r.1 && b.bytes k != 0) = true := by
      rw [heq, hnul]
      simp
    rw [if_neg hstop]
    exact ⟨(decide_eq_true (by omega)).symm, hstore _ (padField_past (Nat.le_of_eq heq.symm)).symm⟩
  · have hstop : ¬(!r.1 && b.bytes k != 0) = true := by
      rw [hended, decide_eq_true hgt]
      simp
    rw [if_neg hstop]
    exact ⟨(decide_eq_true (by omega)).symm, hstore _ (padField_past (Nat.le_of_lt hgt)).symm⟩

theorem formatNameFrame_eq (stack : Nat → Nat → UInt8) (input : CString) :
    formatNameFrame stack input =
      let temp := strcpy input.chars 0 ⟨64, stack 0, 0⟩
      let name := strcpy (component 0 input.chars) 0 (Local.clear ⟨9, stack 1, 0⟩)
      let ext := strcpy (component 1 input.chars) 0 (Local.clear ⟨4, stack 2, 0⟩)
      ⟨temp, name, ext, padInto 8 name ⟨8, stack 3, 0⟩, padInto 3 ext ⟨3, stack 4, 0⟩⟩ := by
  obtain ⟨_, _, _, hchars, hnul⟩ := strcpy_writes input.chars 0 ⟨64, stack 0, 0⟩
  have hstring := stringAt_eq input.noNul (Nat.lt_succ_self _) hchars hnul
  obtain ⟨hname, hext⟩ := component_strtok input.chars
  unfold formatNameFrame
  dsimp only
  rw [hstring, strtokInto_eq, strtokInto_eq, hname, hext]

theorem component_chars {s : List UInt8} (hs : ∀ c ∈ s, c ≠ 0) :
    (∀ c ∈ component 0 s, c ≠ 0) ∧ ∀ c ∈ component 1 s, c ≠ 0 := by
  rw [(component_strtok s).1, (component_strtok s).2]
  exact ⟨(strtok_chars hs).1, (strtok_chars (strtok_chars hs).2).1⟩

/-- A component in an array of one byte more than its field, and the field made from it. -/
theorem array_field (hs : ∀ c ∈ s, c ≠ 0) (bytes out : Nat → UInt8) (n : Nat) :
    let array := strcpy s 0 (Local.clear ⟨n + 1, bytes, 0⟩)
    (array.extent ≤ array.size ↔ s.length ≤ n) ∧
      (padInto n array ⟨n, out, 0⟩).extent ≤ (padInto n array ⟨n, out, 0⟩).size ∧
      ∀ i < n, (padInto n array ⟨n, out, 0⟩).bytes i = padField s i := by
  obtain ⟨hsize, hextent, _, hchars, hnul⟩ := strcpy_writes s 0 (Local.clear ⟨n + 1, bytes, 0⟩)
  rw [Nat.zero_add] at hnul
  obtain ⟨hout, hend, hfield⟩ := padInto_eq hs (fun j c hc => (Nat.zero_add j) ▸ hchars j c hc) hnul n
    ⟨n, out, 0⟩
  refine ⟨?_, ?_, hfield⟩
  · rw [hsize, hextent]
    change max (max 0 (n + 1)) (0 + s.length + 1) ≤ n + 1 ↔ _
    omega
  · rw [hout]
    exact Nat.le_trans hend (Nat.max_le.mpr ⟨Nat.zero_le n, Nat.le_refl n⟩)

end Writes

/-- Whatever is on the stack, fat16_format_name writes only inside its arrays and gives the first two
components, cut and padded, if and only if the string fits temp and the components fit name and ext. -/
theorem formatName_exact_iff (stack : Nat → Nat → UInt8) (input : CString) :
    FormatExact (formatNameFrame stack input) input ↔ FitsArrays input := by
  obtain ⟨hname, hext⟩ := component_chars input.noNul
  obtain ⟨hsize, hextent, _⟩ := strcpy_writes input.chars 0 ⟨64, stack 0, 0⟩
  obtain ⟨hnameFits, hnameOut, hnameField⟩ := array_field hname (stack 1) (stack 3) 8
  obtain ⟨hextFits, hextOut, hextField⟩ := array_field hext (stack 2) (stack 4) 3
  have htemp : (strcpy input.chars 0 ⟨64, stack 0, 0⟩).extent ≤
      (strcpy input.chars 0 ⟨64, stack 0, 0⟩).size ↔ input.chars.length < 64 := by
    rw [hsize, hextent]
    change max 0 (0 + input.chars.length + 1) ≤ 64 ↔ _
    omega
  rw [formatNameFrame_eq, FormatExact, FitsArrays, ← htemp, ← hnameFits, ← hextFits]
  constructor
  · rintro ⟨hin, _⟩
    exact ⟨hin _ (by simp [FormatFrame.arrays]), hin _ (by simp [FormatFrame.arrays]),
      hin _ (by simp [FormatFrame.arrays])⟩
  · rintro ⟨ht, hn, he⟩
    refine ⟨fun b hb => ?_, hnameField, hextField⟩
    simp only [FormatFrame.arrays, List.mem_cons, List.not_mem_nil, or_false] at hb
    rcases hb with rfl | rfl | rfl | rfl | rfl
    · exact ht
    · exact hn
    · exact he
    · exact hnameOut
    · exact hextOut

/- "obj_viewer", which the shell passes on. -/
def objViewer : CString := ⟨[111, 98, 106, 95, 118, 105, 101, 119, 101, 114], noNul_of_all rfl⟩

/-- The ten characters and the NUL of "obj_viewer" do not fit name. -/
theorem objViewer_overruns : ¬ ∀ (stack : Nat → Nat → UInt8) (input : CString),
    FormatExact (formatNameFrame stack input) input := by
  intro hall
  have hname := (hall (fun _ _ => 0) objViewer).1 (formatNameFrame (fun _ _ => 0) objViewer).name
    (by simp [FormatFrame.arrays])
  revert hname
  decide

end AdamOS.Fat16
