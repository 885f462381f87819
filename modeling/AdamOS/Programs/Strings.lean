import AdamOS.Display.AnsiEscape
import AdamOS.Files.FormatName

/-! string.c on arrays: strrev, strcat, itos and stoi read and write a string in place. The number that itos
writes is the one stoi reads, but for the least int, which has no negation. -/
namespace AdamOS.Strings
open AdamOS.Ansi (isDigit digitValue decimalValue charMinus itosLoop_nat itosLoop_noNul)
open AdamOS.Fat16 (Local stringAt strcpy strcpy_writes stringAt_eq)
open AdamOS.Loop AdamOS.Word

/- No string is longer than the memory. -/
@[irreducible] def memorySize : Nat := 4294967296

def strlen (bytes : Nat → UInt8) : Nat := (stringAt bytes memorySize 0).length

def strcat (dest : Local) (src : Nat → UInt8) : Local :=
  strcpy (stringAt src memorySize 0) (strlen dest.bytes) dest

def strrev (str : Local) : Local :=
  let len := strlen str.bytes
  loop (len / 2) (fun i str =>
    let tmp := str.bytes i
    (str.store i (str.bytes (len - 1 - i))).store (len - 1 - i) tmp) str

/- The do-while loop of itos with i, n and result; an int has at most ten digits. -/
def itosWrite : Nat → Int → Nat → Local → Nat × Local
  | 0, _, i, result => (i, result)
  | k+1, n, i, result =>
    let result := result.store i (UInt8.ofNat (48 + n.tmod 10).toNat)
    if n.tdiv 10 > 0 then itosWrite k (n.tdiv 10) (i + 1) result else (i + 1, result)

def itos (result : Local) (n : Int) : Local :=
  let r := itosWrite 10 (if n < 0 then int32 (-n) else n) 0 result
  let r := if n < 0 then (r.1 + 1, r.2.store r.1 charMinus) else r
  strrev (r.2.store r.1 0)

def stoiFrom (str : Nat → UInt8) : Nat → Nat → Int → Int
  | 0, _, result => result
  | k+1, i, result =>
    if isDigit (str i) then stoiFrom str k (i + 1) (int32 (int32 (result * 10) + ((str i).toNat - 48)))
    else result

def stoi (str : Nat → UInt8) : Int :=
  let i := if str 0 = charMinus then 1 else 0
  let sign : Int := if str 0 = charMinus then -1 else 1
  int32 (stoiFrom str memorySize i 0 * sign)

/-! ### Strings in arrays -/

structure Holds (bytes : Nat → UInt8) (s : List UInt8) : Prop where
  chars : ∀ j c, s[j]? = some c → bytes j = c
  nul : bytes s.length = 0
  noNul : ∀ c ∈ s, c ≠ 0

section
variable {bytes : Nat → UInt8} {s t : List UInt8} {str dest : Local}

theorem holds_strcpy (hs : ∀ c ∈ s, c ≠ 0) (dest : Local) : Holds (strcpy s 0 dest).bytes s := by
  obtain ⟨-, -, -, hchars, hnul⟩ := strcpy_writes s 0 dest
  exact ⟨fun j c h => by rw [← hchars j c h, Nat.zero_add], by rw [← hnul, Nat.zero_add], hs⟩

/-- A string in memory is what stands before the first NUL. -/
theorem Holds.unique (h : Holds bytes s) (h' : Holds bytes t) : s = t := by
  have hle : ∀ {s t : List UInt8}, Holds bytes s → Holds bytes t → s.length ≤ t.length := by
    intro s t h h'
    by_contra hlong
    have hlt : t.length < s.length := Nat.lt_of_not_le hlong
    have hchar := h.chars t.length _ (List.getElem?_eq_getElem hlt)
    exact h.noNul _ (List.getElem_mem hlt) (hchar.symm.trans h'.nul)
  refine List.ext_getElem (Nat.le_antisymm (hle h h') (hle h' h)) fun j hj hj' => ?_
  rw [← h.chars j _ (List.getElem?_eq_getElem hj), ← h'.chars j _ (List.getElem?_eq_getElem hj')]

theorem Holds.cut (h : Holds dest.bytes (s ++ t)) : Holds (dest.store s.length 0).bytes s where
  chars j c hc := by
    obtain ⟨hj, -⟩ := List.getElem?_eq_some_iff.mp hc
    refine (if_neg (Nat.ne_of_lt hj)).trans (h.chars j c ?_)
    rwa [List.getElem?_append_left hj]
  nul := if_pos rfl
  noNul c hc := h.noNul c (List.mem_append_left t hc)

theorem Holds.nil (h : bytes 0 = 0) : Holds bytes [] where
  chars _ _ hc := by cases hc
  nul := h
  noNul _ hc := absurd hc List.not_mem_nil

theorem holds_getD (hs : ∀ c ∈ s, c ≠ 0) : Holds (s.getD · 0) s where
  chars j c hc := by rw [List.getD_eq_getElem?_getD, hc, Option.getD_some]
  nul := by rw [List.getD_eq_getElem?_getD, List.getElem?_eq_none (Nat.le_refl _), Option.getD_none]
  noNul := hs

theorem Holds.stringAt (h : Holds bytes s) (hlen : s.length < memorySize) :
    stringAt bytes memorySize 0 = s :=
  stringAt_eq h.noNul hlen (fun j c hc => by rw [Nat.zero_add]; exact h.chars j c hc)
    (by rw [Nat.zero_add]; exact h.nul)

theorem Holds.strlen (h : Holds bytes s) (hlen : s.length < memorySize) : strlen bytes = s.length :=
  congrArg List.length (h.stringAt hlen)

/-- What is copied to the end of a string is appended to it. -/
theorem Holds.strcpy (h : Holds dest.bytes s) (ht : ∀ c ∈ t, c ≠ 0) :
    Holds (strcpy t s.length dest).bytes (s ++ t) := by
  obtain ⟨-, -, hbefore, hchars, hnul⟩ := strcpy_writes t s.length dest
  refine ⟨fun j c hc => ?_, by rw [List.length_append]; exact hnul, fun c hc => ?_⟩
  · rcases Nat.lt_or_ge j s.length with hj | hj
    · rw [List.getElem?_append_left hj] at hc
      rw [hbefore j hj]
      exact h.chars j c hc
    · rw [List.getElem?_append_right hj] at hc
      rw [← hchars _ c hc, Nat.add_sub_cancel' hj]
  · rcases List.mem_append.mp hc with hc | hc
    · exact h.noNul c hc
    · exact ht c hc

/-- strcat appends, and writes no further than the NUL. -/
theorem Holds.strcat {src : Nat → UInt8} (h : Holds dest.bytes s) (ht : Holds src t)
    (hlen : s.length < memorySize) (hlen' : t.length < memorySize) :
    Holds (strcat dest src).bytes (s ++ t) ∧ (strcat dest src).size = dest.size ∧
      (strcat dest src).extent = max dest.extent (s.length + t.length + 1) := by
  obtain ⟨hsize, hextent, -⟩ := strcpy_writes t s.length dest
  rw [Strings.strcat, h.strlen hlen, ht.stringAt hlen']
  exact ⟨h.strcpy ht.noNul, hsize, hextent⟩

/-- After k rounds of strrev the k outermost characters at each end are exchanged. -/
theorem strrev_swaps (str : Local) (len : Nat) {k : Nat} (hk : k ≤ len / 2) :
    let r := loop k (fun i str =>
      (str.store i (str.bytes (len - 1 - i))).store (len - 1 - i) (str.bytes i)) str
    (r.size = str.size ∧ r.extent ≤ max str.extent len) ∧ ∀ j, r.bytes j =
      if j < k ∨ (len - k ≤ j ∧ j < len) then str.bytes (len - 1 - j) else str.bytes j := by
  induction k with
  | zero => exact ⟨⟨rfl, Nat.le_max_left ..⟩, fun j => (if_neg (by omega)).symm⟩
  | succ k ih =>
    obtain ⟨⟨hsize, hextent⟩, hbytes⟩ := ih (Nat.le_of_succ_le hk)
    rw [loop_succ]
    generalize loop k _ str = r at *
    refine ⟨⟨hsize, ?_⟩, fun j => ?_⟩
    · change max (max r.extent (k + 1)) (len - 1 - k + 1) ≤ _
      omega
    · change (if j = len - 1 - k then r.bytes k else if j = k then r.bytes (len - 1 - k) else r.bytes j) = _
      have hfirst : r.bytes k = str.bytes k := (hbytes k).trans (if_neg (by omega))
      have hlast : r.bytes (len - 1 - k) = str.bytes (len - 1 - k) := (hbytes _).trans (if_neg (by omega))
      rw [hfirst, hlast, hbytes j]
      by_cases hright : j = len - 1 - k
      · rw [if_pos hright, if_pos (by omega), show len - 1 - j = k by omega]
      · rw [if_neg hright]
        by_cases hleft : j = k
        · rw [if_pos hleft, if_pos (by omega), hleft]
        · rw [if_neg hleft]
          exact if_congr (by omega) rfl rfl

theorem Holds.strrev (h : Holds str.bytes s) (hlen : s.length < memorySize) :
    Holds (strrev str).bytes s.reverse ∧ (strrev str).size = str.size ∧
      (strrev str).extent ≤ max str.extent s.length := by
  rw [Strings.strrev, h.strlen hlen]
  obtain ⟨⟨hsize, hextent⟩, hbytes⟩ := strrev_swaps str s.length (Nat.le_refl _)
  refine ⟨⟨fun j c hc => ?_, ?_, fun c hc => h.noNul c (List.mem_reverse.mp hc)⟩, hsize, hextent⟩
  · obtain ⟨hj, -⟩ := List.getElem?_eq_some_iff.mp hc
    rw [List.length_reverse] at hj
    rw [List.getElem?_reverse hj] at hc
    have hmirror := h.chars _ c hc
    refine (hbytes j).trans ?_
    split
    · exact hmirror
    · rw [← hmirror]
      congr 1
      omega
  · rw [List.length_reverse]
    refine (hbytes s.length).trans ?_
    rw [if_neg (by omega)]
    exact h.nul

end

/-! ### The text of a number -/

section
variable {n : Nat} {k : Nat}

/-- The loop of itos writes the digits of the list, the last first. -/
theorem itosWrite_strcpy (k : Nat) (n : Int) (i : Nat) (result : Local) (rest : List UInt8) :
    strcpy rest (itosWrite k n i result).1 (itosWrite k n i result).2 =
      strcpy (Ansi.itosLoop k n ++ rest) i result := by
  induction k generalizing n i result with
  | zero => rfl
  | succ k ih =>
    rw [itosWrite, Ansi.itosLoop]
    split
    · exact ih ..
    · rfl

/-- itos leaves the text of its number, and writes no more than it and a NUL. -/
theorem itos_holds (result : Local) (n : Int) : Holds (itos result n).bytes (Ansi.itos n) ∧
    (itos result n).size = result.size ∧
    (itos result n).extent ≤ max result.extent ((Ansi.itos n).length + 1) := by
  have hwrite : ∀ s, (∀ c ∈ s, c ≠ 0) → s.length ≤ 11 →
      Holds (strrev (strcpy s 0 result)).bytes s.reverse ∧
        (strrev (strcpy s 0 result)).size = result.size ∧
        (strrev (strcpy s 0 result)).extent ≤ max result.extent (s.reverse.length + 1) := by
    intro s hs hlen
    obtain ⟨hsize, hextent, -⟩ := strcpy_writes s 0 result
    obtain ⟨hholds, hsize', hextent'⟩ := (holds_strcpy hs result).strrev (by unfold memorySize; omega)
    refine ⟨hholds, hsize'.trans hsize, ?_⟩
    rw [List.length_reverse]
    omega
  have hdigits := fun m => Ansi.itosLoop_le 10 m
  unfold itos Ansi.itos
  split
  · have hlast := itosWrite_strcpy 10 (int32 (-n)) 0 result [charMinus]
    rw [strcpy, strcpy] at hlast
    dsimp only
    rw [hlast]
    refine hwrite _ (fun c hc => ?_) ?_
    · rcases List.mem_append.mp hc with hc | hc
      · exact itosLoop_noNul _ _ c hc
      · rw [List.mem_singleton.mp hc]
        decide
    · have := hdigits (int32 (-n))
      rw [List.length_append, List.length_singleton]
      omega
  · have hlast := itosWrite_strcpy 10 n 0 result []
    rw [strcpy, List.append_nil] at hlast
    dsimp only
    rw [hlast]
    exact hwrite _ (itosLoop_noNul 10 n) (Nat.le_succ_of_le (hdigits n))

/- Decimal digits, with a zero in front only where it is the number. -/
structure IsNumeral (s : List UInt8) : Prop where
  digits : ∀ c ∈ s, isDigit c = true
  nonempty : s ≠ []
  noZero : s.head? = some 48 → s = [48]

theorem isDigit_ofNat {d : Nat} (h : d < 10) : isDigit (UInt8.ofNat (48 + d)) = true ∧
    digitValue (UInt8.ofNat (48 + d)) = d ∧ (UInt8.ofNat (48 + d) = 48 ↔ d = 0) := by
  revert d
  decide

theorem numeral_digit {d : Nat} (h : d < 10) : IsNumeral [UInt8.ofNat (48 + d)] ∧
    decimalValue [UInt8.ofNat (48 + d)] = d := by
  obtain ⟨hdigit, hvalue, -⟩ := isDigit_ofNat h
  refine ⟨⟨fun c hc => List.mem_singleton.mp hc ▸ hdigit, List.cons_ne_nil _ _, fun hzero => ?_⟩, ?_⟩
  · rw [Option.some.inj hzero]
  · rw [decimalValue, List.foldl_cons, List.foldl_nil, hvalue, Nat.zero_mul, Nat.zero_add]

theorem IsNumeral.append {s : List UInt8} {c : UInt8} (h : IsNumeral s) (hpos : 0 < decimalValue s)
    (hc : isDigit c = true) : IsNumeral (s ++ [c]) := by
  refine ⟨fun d hd => ?_, by simp, fun hzero => ?_⟩
  · rcases List.mem_append.mp hd with hd | hd
    · exact h.digits d hd
    · exact List.mem_singleton.mp hd ▸ hc
  · rw [List.head?_append_of_ne_nil _ h.nonempty] at hzero
    rw [h.noZero hzero] at hpos
    exact absurd hpos (by decide)

/-- The digits of a number of at most k + 1 digits, the first first. -/
theorem itosLoop_numeral (hk : n < 10 ^ (k + 1)) : IsNumeral (Ansi.itosLoop (k + 1) n).reverse ∧
    decimalValue (Ansi.itosLoop (k + 1) n).reverse = n := by
  have hlast := isDigit_ofNat (Nat.mod_lt n (by decide : 10 > 0))
  induction k generalizing n with
  | zero =>
    have hlt : n < 10 := hk
    rw [itosLoop_nat, Nat.div_eq_of_lt hlt, Nat.mod_eq_of_lt hlt]
    exact numeral_digit hlt
  | succ k ih =>
    rw [itosLoop_nat]
    by_cases hpos : 0 < n / 10
    · have hlt : n / 10 < 10 ^ (k + 1) := by
        rw [Nat.pow_succ] at hk
        omega
      obtain ⟨hnum, hvalue⟩ := ih hlt (isDigit_ofNat (Nat.mod_lt _ (by decide)))
      rw [if_pos hpos, List.reverse_cons]
      refine ⟨hnum.append (hvalue.symm ▸ hpos) hlast.1, ?_⟩
      rw [Ansi.decimalValue_append, hvalue, hlast.2.1]
      omega
    · rw [if_neg hpos, show n % 10 = n by omega]
      exact numeral_digit (by omega)

/-! ### Reading a number -/

variable {bytes : Nat → UInt8} {s : List UInt8}

theorem toInt32_digit {c : UInt8} (hc : isDigit c = true) (m : Nat) :
    int32 (int32 (toInt32 m * 10) + (c.toNat - 48)) = toInt32 (m * 10 + digitValue c) := by
  have hdigit : (c.toNat : Int) - 48 = digitValue c := by
    simp only [isDigit, Bool.and_eq_true, decide_eq_true_iff, UInt8.le_iff_toNat_le] at hc
    have hlow : 48 ≤ c.toNat := hc.1
    unfold digitValue
    omega
  rw [hdigit, int32_add_int32]
  unfold int32 toInt32 ofInt32 wrap
  omega

/-- The loop of stoi takes the digits up to the first other character. -/
theorem stoiFrom_digits {i fuel : Nat} (hs : ∀ c ∈ s, isDigit c = true)
    (hchars : ∀ j c, s[j]? = some c → bytes (i + j) = c) (hend : isDigit (bytes (i + s.length)) = false)
    (hfuel : s.length < fuel) (m : Nat) : stoiFrom bytes fuel i (toInt32 m) =
      toInt32 (s.foldl (fun n c => n * 10 + digitValue c) m) := by
  induction s generalizing i fuel m with
  | nil =>
    obtain ⟨fuel, rfl⟩ := Nat.exists_eq_add_of_lt hfuel
    have hstop : isDigit (bytes i) = false := hend
    rw [List.length_nil, Nat.zero_add, stoiFrom, if_neg (by rw [hstop]; exact Bool.false_ne_true)]
    rfl
  | cons c cs ih =>
    cases fuel with
    | zero => cases hfuel
    | succ fuel =>
      have hc := hs c List.mem_cons_self
      have hfirst : bytes i = c := hchars 0 c rfl
      rw [stoiFrom, hfirst, if_pos hc, toInt32_digit hc, List.foldl_cons]
      refine ih (fun d hd => hs d (List.mem_cons_of_mem _ hd)) (fun j d hd => ?_) ?_
        (Nat.lt_of_succ_lt_succ hfuel) _
      · rw [Nat.add_assoc, Nat.add_comm 1]
        exact hchars (j + 1) d hd
      · rw [Nat.add_assoc, Nat.add_comm 1]
        exact hend

theorem stoiFrom_value {i fuel : Nat} (hs : ∀ c ∈ s, isDigit c = true)
    (hchars : ∀ j c, s[j]? = some c → bytes (i + j) = c) (hend : isDigit (bytes (i + s.length)) = false)
    (hfuel : s.length < fuel) : stoiFrom bytes fuel i 0 = toInt32 (decimalValue s) := by
  have hzero : toInt32 0 = 0 := rfl
  have hrun := stoiFrom_digits hs hchars hend hfuel 0
  rw [hzero] at hrun
  exact hrun

/-- stoi takes a number with its sign at its value modulo 2^32. -/
theorem Holds.stoi {sign : List UInt8} (hsign : sign = [] ∨ sign = [charMinus])
    (h : Holds bytes (sign ++ s)) (hs : ∀ c ∈ s, isDigit c = true) (hlen : s.length + 1 < memorySize) :
    stoi bytes = int32 (toInt32 (decimalValue s) * if sign = [] then 1 else -1) := by
  have hstop : isDigit 0 = false := by decide
  have hnul := h.nul
  rcases hsign with rfl | rfl
  · rw [List.nil_append] at h hnul
    have hfirst : bytes 0 ≠ charMinus := by
      cases s with
      | nil =>
        rw [List.length_nil] at hnul
        rw [hnul]
        decide
      | cons c cs =>
        rw [h.chars 0 c rfl]
        rintro rfl
        exact absurd (hs charMinus List.mem_cons_self) (by decide)
    have hrun : stoiFrom bytes memorySize 0 0 = toInt32 (decimalValue s) :=
      stoiFrom_value hs (fun j c hc => by rw [Nat.zero_add]; exact h.chars j c hc)
        (by rw [Nat.zero_add, hnul, hstop]) (by omega)
    rw [Strings.stoi, if_neg hfirst, if_neg hfirst, hrun, if_pos rfl]
  · have hfirst : bytes 0 = charMinus := h.chars 0 _ rfl
    have hrun : stoiFrom bytes memorySize 1 0 = toInt32 (decimalValue s) :=
      stoiFrom_value hs (fun j c hc => by rw [Nat.add_comm 1]; exact h.chars (j + 1) c hc)
        (by
          rw [List.singleton_append, List.length_cons, Nat.add_comm] at hnul
          rw [hnul, hstop]) (by omega)
    rw [Strings.stoi, if_pos hfirst, if_pos hfirst, hrun, if_neg (List.cons_ne_nil _ _)]

/-! ### From a number to its text and back -/

def IsDecimal (bytes : Nat → UInt8) : Prop :=
  ∃ sign digits, (sign = [] ∨ sign = [charMinus]) ∧ IsNumeral digits ∧ Holds bytes (sign ++ digits)

/-- itos writes the sign and the digits of a number that has a negation. -/
theorem itos_text {n : Int} (h : -2147483648 < n) (h' : n < 2147483648) :
    IsNumeral (Ansi.itosLoop 10 n.natAbs).reverse ∧
      decimalValue (Ansi.itosLoop 10 n.natAbs).reverse = n.natAbs ∧
      Ansi.itos n = (if n < 0 then [charMinus] else []) ++ (Ansi.itosLoop 10 n.natAbs).reverse := by
  obtain ⟨hnum, hvalue⟩ := @itosLoop_numeral n.natAbs 9 (by omega)
  refine ⟨hnum, hvalue, ?_⟩
  unfold Ansi.itos
  split
  · rw [int32_eq (by omega) (by omega), show -n = n.natAbs by omega, List.reverse_append]
    rfl
  · rw [show n = n.natAbs by omega]
    rfl

/- What itos writes for the least int: -n overflows, and n % 10 is -8. -/
def leastText : List UInt8 := [charMinus, 40]

theorem itos_least : Ansi.itos (-2147483648) = leastText := by decide

theorem stoi_least (h : Holds bytes leastText) : stoi bytes = 0 := by
  have hfirst : bytes 0 = charMinus := h.chars 0 _ rfl
  have hsecond : isDigit (bytes 1) = false := by
    rw [h.chars 1 _ rfl]
    decide
  have hrun : stoiFrom bytes memorySize 1 0 = toInt32 (decimalValue []) :=
    stoiFrom_value (fun _ hc => absurd hc List.not_mem_nil) (fun j c hc => by cases hc) hsecond
      (by unfold memorySize; decide)
  rw [stoi, if_pos hfirst, if_pos hfirst, hrun]
  decide

/-- The number that itos writes is read back, but for the least int. -/
theorem itos_stoi_iff (result : Local) (n : Int32) :
    IsDecimal (itos result n.toInt).bytes ∧ stoi (itos result n.toInt).bytes = n.toInt ↔
      n.toInt ≠ -2147483648 := by
  have hlow := n.le_toInt
  have hhigh := n.toInt_lt
  generalize n.toInt = n at *
  obtain ⟨hholds, -, -⟩ := itos_holds result n
  constructor
  · rintro ⟨-, hback⟩ rfl
    rw [itos_least] at hholds
    rw [stoi_least hholds] at hback
    exact absurd hback (by decide)
  · intro hne
    obtain ⟨hnum, hvalue, htext⟩ := itos_text (by omega) hhigh
    have hlen := Ansi.itosLoop_le 10 n.natAbs
    have hroom : (Ansi.itosLoop 10 n.natAbs).reverse.length + 1 < memorySize := by
      rw [List.length_reverse]
      unfold memorySize
      omega
    rw [htext] at hholds
    by_cases hneg : n < 0
    · rw [if_pos hneg] at hholds
      refine ⟨⟨_, _, .inr rfl, hnum, hholds⟩, ?_⟩
      rw [hholds.stoi (.inr rfl) hnum.digits hroom, hvalue, if_neg (List.cons_ne_nil _ _),
        toInt32_eq (by omega), int32_eq (by omega) (by omega)]
      omega
    · rw [if_neg hneg] at hholds
      refine ⟨⟨_, _, .inl rfl, hnum, hholds⟩, ?_⟩
      rw [hholds.stoi (.inl rfl) hnum.digits hroom, hvalue, if_pos rfl, toInt32_eq (by omega),
        int32_eq (by omega) (by omega)]
      omega

def numberArray : Local := ⟨12, fun _ => 0, 0⟩

/-- The least int is written as "-(" and read back as 0. -/
theorem least_lost : Holds (itos numberArray (-2147483648)).bytes leastText ∧
    ¬IsDecimal (itos numberArray (-2147483648)).bytes ∧
      stoi (itos numberArray (-2147483648)).bytes ≠ -2147483648 := by
  obtain ⟨hholds, -, -⟩ := itos_holds numberArray (-2147483648)
  rw [itos_least] at hholds
  refine ⟨hholds, ?_, ?_⟩
  · rintro ⟨sign, digits, hsign, hnum, hother⟩
    obtain ⟨c, cs, rfl⟩ := List.exists_cons_of_ne_nil hnum.nonempty
    have hdigit := hnum.digits c List.mem_cons_self
    rcases hsign with rfl | rfl
    · rw [← hother.chars 0 c rfl, hholds.chars 0 _ rfl] at hdigit
      exact absurd hdigit (by decide)
    · rw [← hother.chars 1 c rfl, hholds.chars 1 _ rfl] at hdigit
      exact absurd hdigit (by decide)
  · rw [stoi_least hholds]
    decide

end

end AdamOS.Strings
