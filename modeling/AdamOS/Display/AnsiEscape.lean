import AdamOS.Display.TextTerminal
import AdamOS.Lib.Word
import Mathlib.Data.List.TakeWhile
import Mathlib.Data.Nat.Digits.Lemmas

/-! parse_ansi_escape: a write to the standard output prints its characters and takes a color from
each sequence ESC [ digits m. -/
namespace AdamOS.Ansi
open AdamOS.TextTerminal AdamOS.Word

def charEsc : UInt8 := 27
def charBracket : UInt8 := 91
def charM : UInt8 := 109
def charMinus : UInt8 := 45

def isDigit (c : UInt8) : Bool := 48 ≤ c && c ≤ 57

def digitValue (c : UInt8) : Nat := c.toNat - 48

/-! ### string.c -/

def stoi (str : List UInt8) : Int × Nat :=
  let skip := if str.head? = some charMinus then 1 else 0
  let sign : Int := if str.head? = some charMinus then -1 else 1
  let digits := (str.drop skip).takeWhile isDigit
  (int32 (digits.foldl (fun result c => int32 (result * 10 + digitValue c)) 0 * sign),
    skip + digits.length + 1)

/- The do-while loop; an int has at most ten digits. -/
def itosLoop : Nat → Int → List UInt8
  | 0, _ => []
  | k+1, n =>
    UInt8.ofNat (48 + n.tmod 10).toNat :: if n.tdiv 10 > 0 then itosLoop k (n.tdiv 10) else []

/- -n overflows for the least int. -/
def itos (n : Int) : List UInt8 :=
  if n < 0 then (itosLoop 10 (int32 (-n)) ++ [charMinus]).reverse else (itosLoop 10 n).reverse

/-! ### syscall.c -/

/- 16 of the 20 entries are given; the others are 0. -/
def ansiToTerminal : List UInt8 :=
  [0x00, 0x04, 0x02, 0x06, 0x01, 0x05, 0x03, 0x07, 0x08, 0x0C, 0x0A, 0x0E, 0x09, 0x0D, 0x0B, 0x0F,
    0, 0, 0, 0]

/- ESC [ 2 J ESC [ H -/
def clearSequence : List UInt8 := [27, 91, 50, 74, 27, 91, 72]

structure Parsed where
  cleared : Bool
  /- terminal_print_char_color(buf[i], color): i and color -/
  prints : List (Nat × UInt8)
  /- one more than the largest index into buf and into ansi_to_terminal -/
  bufEnd : Nat
  tableEnd : Nat
deriving DecidableEq, Repr

def parsedNothing : Parsed := ⟨false, [], 0, 0⟩

def Parsed.reading (bufEnd tableEnd : Nat) (p : Parsed) : Parsed :=
  { p with bufEnd := max p.bufEnd bufEnd, tableEnd := max p.tableEnd tableEnd }

def Parsed.printing (i : Nat) (color : UInt8) (p : Parsed) : Parsed :=
  { p with prints := (i, color) :: p.prints }

def setColor (code : Int) (color : UInt8) : UInt8 × Nat :=
  if code ≥ 30 ∧ code ≤ 50 then
    (ansiToTerminal.getD (code - 30).toNat 0, (code - 30).toNat + 1)
  else if code = 0 then (white, 0)
  else (color, 0)

/- `mem` is what memory holds from buf on. No buffer begins in the first 16 bytes of memory, so i does
   not wrap. Every round moves i on: `len` of them are enough. -/
def ansiLoop (mem : List UInt8) (len : Nat) : Nat → Nat → UInt8 → Parsed
  | 0, _, _ => parsedNothing
  | rounds+1, i, color =>
    if i < len then
      if i + 1 < len ∧ mem.getD i 0 = charEsc ∧ mem.getD (i + 1) 0 = charBracket then
        let code := stoi (mem.drop (i + 2))
        let next := setColor code.1 color
        (ansiLoop mem len rounds (i + ((itos code.1).length + 2) + 1) next.1).reading
          (i + 2 + code.2) next.2
      else
        ((ansiLoop mem len rounds (i + 1) color).printing i color).reading
          (if i + 1 < len ∧ mem.getD i 0 = charEsc then i + 2 else i + 1) 0
    else parsedNothing

/- The comparison with the clear sequence reads only the 7 bytes. -/
def parseAnsiEscape (mem : List UInt8) (len : Nat) : Parsed :=
  if len = 7 ∧ mem.take 7 = clearSequence then ⟨true, [], 7, 0⟩
  else ansiLoop mem len len 0 white

/-! ### The text without its sequences -/

def decimalValue (digits : List UInt8) : Nat := digits.foldl (fun n c => n * 10 + digitValue c) 0

/- The digits of a complete sequence at the start of a text. -/
def sequence : List UInt8 → Option (List UInt8)
  | c :: d :: text =>
    let digits := text.takeWhile isDigit
    if c = charEsc ∧ d = charBracket ∧ (text.drop digits.length).head? = some charM then some digits
    else none
  | _ => none

def selected (n : Nat) (color : UInt8) : UInt8 :=
  if 30 ≤ n ∧ n < 50 then ansiToTerminal.getD (n - 30) 0 else if n = 0 then white else color

/- The characters outside the sequences, by their places, with their colors. `skip` characters of a
   sequence are still to come. -/
def shown : Nat → Nat → UInt8 → List UInt8 → List (Nat × UInt8)
  | _, _, _, [] => []
  | i, skip+1, color, _ :: text => shown (i + 1) skip color text
  | i, 0, color, c :: text =>
    match sequence (c :: text) with
    | some digits => shown (i + 1) (digits.length + 2) (selected (decimalValue digits) color) text
    | none => (i, color) :: shown (i + 1) 0 color text

/- `rest` is what follows the buffer in memory. -/
def AnsiExact (buf rest : List UInt8) : Prop :=
  (parseAnsiEscape (buf ++ rest) buf.length).bufEnd ≤ buf.length ∧
    (parseAnsiEscape (buf ++ rest) buf.length).tableEnd ≤ ansiToTerminal.length ∧
    (buf ≠ clearSequence → (parseAnsiEscape (buf ++ rest) buf.length).prints = shown 0 0 white buf)

/- The number is written as itos writes it; a number that is no int only as long as the wrapped one.
   At the end of the buffer one character less does no harm. -/
def DigitsFit (digits : List UInt8) (atEnd : Prop) : Prop :=
  if decimalValue digits < 2147483648 then
    (digits = [] ∧ atEnd) ∨ digits.length = 1 ∨ (1 < digits.length ∧ digits.head? ≠ some 48)
  else
    (itos (toInt32 (decimalValue digits))).length = digits.length ∨
      ((itos (toInt32 (decimalValue digits))).length = digits.length + 1 ∧ atEnd)

/- ESC [ at i begins a complete sequence, its number is not 50 and fits. -/
def SequenceFits (buf : List UInt8) (i : Nat) : Prop :=
  ∃ digits, sequence (buf.drop i) = some digits ∧ decimalValue digits ≠ 50 ∧
    DigitsFit digits (i + digits.length + 3 = buf.length)

def SequencesFit (buf : List UInt8) : Prop :=
  ∀ i, buf[i]? = some charEsc → buf[i + 1]? = some charBracket → SequenceFits buf i

/-! ### Numbers -/

theorem itosLoop_nat (k n : Nat) : itosLoop (k + 1) n =
    UInt8.ofNat (48 + n % 10) :: if 0 < n / 10 then itosLoop k (n / 10 : Nat) else [] := by
  have hdiv : (n : Int).tdiv 10 = (n / 10 : Nat) := (Int.ofNat_tdiv n 10).symm
  have hmod : (48 + (n : Int).tmod 10).toNat = 48 + n % 10 := by
    have hcast : (n : Int).tmod 10 = (n % 10 : Nat) := (Int.ofNat_tmod n 10).symm
    omega
  rw [itosLoop, hdiv, hmod]
  exact congrArg _ (if_congr (by omega) rfl rfl)

theorem itosLoop_noNul (k : Nat) (n : Int) : ∀ c ∈ itosLoop k n, c ≠ 0 := by
  induction k generalizing n with
  | zero => exact fun _ h => absurd h List.not_mem_nil
  | succ k ih =>
    intro c hc
    rw [itosLoop, List.mem_cons] at hc
    rcases hc with rfl | hc
    · have hlow : -10 < n.tmod 10 := Int.lt_tmod_of_pos n (by decide)
      have hhigh : n.tmod 10 < 10 := Int.tmod_lt_of_pos n (by decide)
      have hlt : (48 + n.tmod 10).toNat < 256 := by omega
      intro h
      have hval := congrArg UInt8.toNat h
      rw [UInt8.toNat_ofNat_of_lt' hlt] at hval
      change _ = 0 at hval
      omega
    · split at hc
      · exact ih _ c hc
      · exact absurd hc List.not_mem_nil

theorem itosLoop_length {k : Nat} {n : Nat} (hk : n < 10 ^ (k + 1)) :
    (itosLoop (k + 1) n).length = max 1 (Nat.digits 10 n).length := by
  have hone : ∀ {n : Nat}, n < 10 → 1 = max 1 (Nat.digits 10 n).length := fun {n} hlt => by
    rcases Nat.eq_zero_or_pos n with rfl | hpos
    · rfl
    · rw [Nat.digits_of_lt 10 n hpos.ne' hlt]
      rfl
  induction k generalizing n with
  | zero =>
    have hlt : n < 10 := hk
    rw [itosLoop_nat, Nat.div_eq_of_lt hlt]
    exact hone hlt
  | succ k ih =>
    rw [itosLoop_nat]
    by_cases hpos : 0 < n / 10
    · have hdigits : (Nat.digits 10 (n / 10)).length ≠ 0 := by
        rw [Ne, List.length_eq_zero_iff, Nat.digits_eq_nil_iff_eq_zero]
        omega
      have hlt : n / 10 < 10 ^ (k + 1) := by
        rw [Nat.pow_succ] at hk
        omega
      rw [if_pos hpos, List.length_cons, ih hlt, Nat.digits_def' (by decide) (by omega : 0 < n),
        List.length_cons]
      omega
    · rw [if_neg hpos]
      exact hone (by omega)

theorem itosLoop_le (k : Nat) (n : Int) : (itosLoop k n).length ≤ k := by
  induction k generalizing n with
  | zero => exact Nat.le_refl 0
  | succ k ih =>
    rw [itosLoop, List.length_cons]
    split
    · exact Nat.succ_le_succ (ih _)
    · exact Nat.succ_le_succ (Nat.zero_le _)

theorem itos_le (n : Int) : (itos n).length ≤ 11 := by
  unfold itos
  split
  · rw [List.length_reverse, List.length_append]
    exact Nat.succ_le_succ (itosLoop_le 10 _)
  · rw [List.length_reverse]
    exact Nat.le_succ_of_le (itosLoop_le 10 _)

theorem itos_length {n : Nat} (h : n < 2147483648) :
    (itos n).length = max 1 (Nat.digits 10 n).length := by
  rw [itos, if_neg (by omega), List.length_reverse]
  exact itosLoop_length (by omega)

section Digits
variable {digits : List UInt8}

theorem decimalValue_append (digits : List UInt8) (c : UInt8) :
    decimalValue (digits ++ [c]) = decimalValue digits * 10 + digitValue c := by
  rw [decimalValue, List.foldl_append]
  rfl

theorem decimalValue_eq (digits : List UInt8) :
    decimalValue digits = Nat.ofDigits 10 (digits.map digitValue).reverse := by
  induction digits using List.reverseRecOn with
  | nil => rfl
  | append_singleton digits c ih =>
    rw [decimalValue_append, ih, List.map_append, List.reverse_append, List.map_singleton,
      List.reverse_singleton, List.singleton_append, Nat.ofDigits_cons]
    omega

theorem digitValue_lt {c : UInt8} (h : isDigit c = true) : digitValue c < 10 := by
  simp only [isDigit, Bool.and_eq_true, decide_eq_true_iff, UInt8.le_iff_toNat_le] at h
  have h9 : c.toNat ≤ 57 := h.2
  unfold digitValue
  omega

theorem decimalValue_lt (h : ∀ c ∈ digits, isDigit c = true) :
    decimalValue digits < 10 ^ digits.length := by
  have hlt := @Nat.ofDigits_lt_base_pow_length 10 (digits.map digitValue).reverse (by decide) fun x hx => by
    obtain ⟨c, hc, rfl⟩ := List.mem_map.mp (List.mem_reverse.mp hx)
    exact digitValue_lt (h c hc)
  rwa [decimalValue_eq, ← List.length_map digitValue, ← List.length_reverse]

/-- Digits without a leading zero are the decimal notation of their value. -/
theorem digits_length (h : ∀ c ∈ digits, isDigit c = true) (hhead : ∀ c, digits.head? = some c → c ≠ 48) :
    (Nat.digits 10 (decimalValue digits)).length = digits.length := by
  have hlt : ∀ x ∈ (digits.map digitValue).reverse, x < 10 := fun x hx => by
    obtain ⟨c, hc, rfl⟩ := List.mem_map.mp (List.mem_reverse.mp hx)
    exact digitValue_lt (h c hc)
  rw [decimalValue_eq, Nat.digits_ofDigits 10 (by decide) _ hlt fun hne => ?_, List.length_reverse,
    List.length_map]
  rw [List.getLast_reverse]
  cases digits with
  | nil => exact absurd rfl hne
  | cons c cs =>
    have hdigit := h c List.mem_cons_self
    have hc := hhead c rfl
    simp only [isDigit, Bool.and_eq_true, decide_eq_true_iff, UInt8.le_iff_toNat_le] at hdigit
    have h0 : (48 : UInt8).toNat ≤ c.toNat := hdigit.1
    have hne' : c.toNat ≠ 48 := fun he => hc (UInt8.toNat_inj.mp he)
    have h48 : (48 : UInt8).toNat = 48 := rfl
    change digitValue c ≠ 0
    unfold digitValue
    omega

theorem decimalValue_zero_cons (digits : List UInt8) :
    decimalValue (48 :: digits) = decimalValue digits := rfl

/- How far parse_ansi_escape takes the digits to reach. -/
def skipped (digits : List UInt8) : Nat := (itos (toInt32 (decimalValue digits))).length

theorem skipped_of_int (hint : decimalValue digits < 2147483648) :
    skipped digits = max 1 (Nat.digits 10 (decimalValue digits)).length := by
  rw [skipped, toInt32_eq hint, itos_length hint]

theorem ten_digits (h : ∀ c ∈ digits, isDigit c = true) (hbig : ¬decimalValue digits < 2147483648) :
    10 ≤ digits.length := by
  refine Nat.not_lt.mp fun hshort => hbig ?_
  calc
    decimalValue digits < 10 ^ digits.length := decimalValue_lt h
    _ ≤ 10 ^ 9 := Nat.pow_le_pow_right (by decide) (Nat.le_of_lt_succ hshort)
    _ < 2147483648 := by decide

theorem digits_le (h : ∀ c ∈ digits, isDigit c = true) :
    (Nat.digits 10 (decimalValue digits)).length ≤ digits.length :=
  (Nat.digits_length_le_iff (by decide) _).mpr (decimalValue_lt h)

/-- At most one character too many is skipped. -/
theorem skipped_le (h : ∀ c ∈ digits, isDigit c = true) : skipped digits ≤ digits.length + 1 := by
  by_cases hint : decimalValue digits < 2147483648
  · have hle := digits_le h
    rw [skipped_of_int hint]
    omega
  · have hten := ten_digits h hint
    have heleven : skipped digits ≤ 11 := itos_le _
    omega

/-- The digits fit if and only if their length is what is skipped, or the end of the buffer is. -/
theorem digitsFit_iff (h : ∀ c ∈ digits, isDigit c = true) (atEnd : Prop) : DigitsFit digits atEnd ↔
    skipped digits = digits.length ∨ (skipped digits = digits.length + 1 ∧ atEnd) := by
  unfold DigitsFit
  by_cases hint : decimalValue digits < 2147483648
  · rw [if_pos hint, skipped_of_int hint]
    have hle := digits_le h
    cases digits with
    | nil => simp [decimalValue]
    | cons c cs =>
      by_cases hzero : c = 48
      · subst hzero
        have hrest := digits_le fun d hd => h d (List.mem_cons_of_mem 48 hd)
        rw [decimalValue_zero_cons, List.length_cons]
        cases cs with
        | nil => simp [decimalValue]
        | cons d ds =>
          rw [List.length_cons] at hrest ⊢
          simp only [List.head?_cons, ne_eq, not_true, and_false, or_false, List.cons_ne_nil, false_and,
            false_or]
          omega
      · have hlen := digits_length h fun d hd => by
          cases hd
          exact hzero
        rw [hlen, List.length_cons]
        simp only [List.head?_cons, ne_eq, Option.some.injEq, hzero, not_false_eq_true, and_true,
          List.cons_ne_nil, false_and, false_or]
        omega
  · rw [if_neg hint]
    exact Iff.rfl

/-! ### The number and its color -/

theorem stoi_fold (digits : List UInt8) (n : Nat) :
    digits.foldl (fun result c => int32 (result * 10 + digitValue c)) (toInt32 n) =
      toInt32 (digits.foldl (fun n c => n * 10 + digitValue c) n) := by
  induction digits generalizing n with
  | nil => rfl
  | cons c cs ih =>
    have hstep : int32 (toInt32 n * 10 + digitValue c) = toInt32 (n * 10 + digitValue c) := by
      unfold int32 toInt32 ofInt32 wrap
      omega
    rw [List.foldl_cons, List.foldl_cons, hstep, ih]

/-- Without a minus sign stoi reads the digits and the byte after them. -/
theorem stoi_eq {str : List UInt8} (h : str.head? ≠ some charMinus) :
    stoi str = (toInt32 (decimalValue (str.takeWhile isDigit)), (str.takeWhile isDigit).length + 1) := by
  have hfold := stoi_fold (str.takeWhile isDigit) 0
  have hzero : toInt32 0 = 0 := rfl
  have hb := toInt32_bounds (decimalValue (str.takeWhile isDigit))
  rw [hzero] at hfold
  rw [stoi, if_neg h, if_neg h, List.drop_zero, hfold, Int.mul_one, Nat.zero_add]
  exact congrArg (·, _) (int32_eq hb.1 hb.2)

theorem setColor_eq (h : ∀ c ∈ digits, isDigit c = true) (hskip : digits.length ≤ skipped digits)
    (hne : decimalValue digits ≠ 50) (color : UInt8) :
    (setColor (toInt32 (decimalValue digits)) color).1 = selected (decimalValue digits) color ∧
      (setColor (toInt32 (decimalValue digits)) color).2 ≤ ansiToTerminal.length := by
  have hlen : ansiToTerminal.length = 20 := rfl
  rw [hlen]
  by_cases hint : decimalValue digits < 2147483648
  · rw [toInt32_eq hint]
    generalize decimalValue digits = n at *
    unfold setColor selected
    by_cases htable : 30 ≤ n ∧ n < 50
    · have hsub : ((n : Int) - 30).toNat = n - 30 := by omega
      rw [if_pos (by omega), if_pos htable, hsub]
      exact ⟨rfl, by dsimp only; omega⟩
    · rw [if_neg (by omega), if_neg htable]
      by_cases hzero : n = 0
      · rw [if_pos (by omega), if_pos hzero]
        exact ⟨rfl, Nat.zero_le _⟩
      · rw [if_neg (by omega), if_neg hzero]
        exact ⟨rfl, Nat.zero_le _⟩
  · -- a wrapped number of one or two digits would be too short
    have hten := ten_digits h hint
    have hlong : ¬(0 ≤ toInt32 (decimalValue digits) ∧ toInt32 (decimalValue digits) < 100) := by
      rintro ⟨h0, h100⟩
      obtain ⟨w, hw⟩ := Int.eq_ofNat_of_zero_le h0
      have hshort : (Nat.digits 10 w).length ≤ 2 :=
        (Nat.digits_length_le_iff (by decide) w).mpr (by omega)
      have hsk : skipped digits = max 1 (Nat.digits 10 w).length := by
        rw [skipped, hw]
        exact itos_length (by omega)
      omega
    unfold setColor selected
    rw [if_neg (by omega), if_neg (by omega), if_neg (by omega), if_neg (by omega)]
    exact ⟨rfl, Nat.zero_le _⟩

theorem setColor_fifty (color : UInt8) : ansiToTerminal.length < (setColor (toInt32 50) color).2 := by
  have h50 : toInt32 50 = 50 := rfl
  rw [h50, setColor, if_pos (by decide)]
  exact Nat.lt_succ_self 20

end Digits

/-! ### Sequences in the buffer -/

section Buffer
variable {buf rest digits : List UInt8} {i : Nat}

theorem mem_getD (h : i < buf.length) (c : UInt8) : (buf ++ rest).getD i 0 = c ↔ buf[i]? = some c := by
  rw [List.getD_eq_getElem?_getD, List.getElem?_append_left h, List.getElem?_eq_getElem h,
    Option.getD_some, Option.some.injEq]

theorem isDigit_special : isDigit charEsc = false ∧ isDigit charBracket = false ∧
    isDigit charM = false ∧ isDigit charMinus = false := by decide

structure SequenceAt (buf digits : List UInt8) (i : Nat) : Prop where
  esc : buf[i]? = some charEsc
  bracket : buf[i + 1]? = some charBracket
  text : ∃ tail, buf.drop (i + 2) = digits ++ charM :: tail
  digits : ∀ c ∈ digits, isDigit c = true

theorem sequence_iff (buf digits : List UInt8) (i : Nat) :
    sequence (buf.drop i) = some digits ↔ SequenceAt buf digits i := by
  have htail : buf.drop (i + 2) = (buf.drop i).drop 2 := by rw [List.drop_drop]
  have h0 : buf[i]? = (buf.drop i)[0]? := by rw [List.getElem?_drop, Nat.add_zero]
  have h1 : buf[i + 1]? = (buf.drop i)[1]? := by rw [List.getElem?_drop]
  constructor
  · intro h
    cases hd : buf.drop i with
    | nil =>
      rw [hd] at h
      cases h
    | cons c cs =>
      cases cs with
      | nil =>
        rw [hd] at h
        cases h
      | cons d text =>
        rw [hd, sequence] at h
        split at h
        · rename_i hseq
          obtain ⟨hc, hbr, hm⟩ := hseq
          cases h
          rw [hd] at htail h0 h1
          have hsplit : text.takeWhile isDigit ++ text.drop (text.takeWhile isDigit).length = text := by
            rw [List.prefix_iff_eq_take.mp (List.takeWhile_prefix isDigit), List.length_take,
              Nat.min_eq_left (List.takeWhile_prefix isDigit).length_le, List.take_append_drop]
          obtain ⟨tail, ht⟩ := List.head?_eq_some_iff.mp hm
          refine ⟨by rw [h0, hc]; rfl, by rw [h1, hbr]; rfl, ⟨tail, ?_⟩, fun c hc => ?_⟩
          · rw [htail, ← ht]
            exact hsplit.symm
          · exact List.mem_takeWhile_imp hc
        · cases h
  · rintro ⟨hesc, hbr, ⟨tail, ht⟩, hdigits⟩
    cases hd : buf.drop i with
    | nil =>
      rw [h0, hd] at hesc
      cases hesc
    | cons c cs =>
      cases cs with
      | nil =>
        rw [h1, hd] at hbr
        cases hbr
      | cons d text =>
        rw [h0, hd] at hesc
        rw [h1, hd] at hbr
        rw [htail, hd] at ht
        cases hesc
        cases hbr
        have htext : text = digits ++ charM :: tail := ht
        have htake : text.takeWhile isDigit = digits := by
          rw [htext, List.takeWhile_append_of_pos hdigits,
            List.takeWhile_cons_of_neg (by rw [isDigit_special.2.2.1]; exact Bool.false_ne_true),
            List.append_nil]
        rw [sequence, htake, htext, List.drop_left, if_pos ⟨rfl, rfl, rfl⟩]

theorem SequenceAt.end_le (h : SequenceAt buf digits i) : i + digits.length + 3 ≤ buf.length := by
  obtain ⟨tail, ht⟩ := h.text
  have hlen := congrArg List.length ht
  rw [List.length_drop, List.length_append, List.length_cons] at hlen
  omega

theorem SequenceAt.no_esc (h : SequenceAt buf digits i) {j : Nat} (hj : i < j)
    (hj' : j < i + digits.length + 3) : buf[j]? ≠ some charEsc := by
  obtain ⟨tail, ht⟩ := h.text
  intro hesc
  by_cases hfirst : j = i + 1
  · rw [hfirst, h.bracket] at hesc
    cases hesc
  · obtain ⟨k, rfl⟩ : ∃ k, j = i + 2 + k := ⟨j - (i + 2), by omega⟩
    rw [← List.getElem?_drop, ht] at hesc
    rcases Nat.lt_or_ge k digits.length with hk | hk
    · rw [List.getElem?_append_left hk] at hesc
      have hdigit := h.digits _ (List.mem_of_getElem? hesc)
      rw [isDigit_special.1] at hdigit
      cases hdigit
    · have hk' : k = digits.length := by omega
      rw [hk', List.getElem?_append_right (Nat.le_refl _), Nat.sub_self] at hesc
      cases hesc

/-- stoi reads the digits of a sequence and its last character. -/
theorem SequenceAt.stoi (h : SequenceAt buf digits i) (rest : List UInt8) :
    Ansi.stoi ((buf ++ rest).drop (i + 2)) = (toInt32 (decimalValue digits), digits.length + 1) := by
  obtain ⟨tail, ht⟩ := h.text
  have hend := h.end_le
  have hdrop : (buf ++ rest).drop (i + 2) = digits ++ charM :: (tail ++ rest) := by
    rw [List.drop_append_of_le_length (by omega), ht, List.append_assoc, List.cons_append]
  have hm : ¬isDigit charM = true := by
    rw [isDigit_special.2.2.1]
    exact Bool.false_ne_true
  have htake : (digits ++ charM :: (tail ++ rest)).takeWhile isDigit = digits := by
    rw [List.takeWhile_append_of_pos h.digits, List.takeWhile_cons_of_neg hm, List.append_nil]
  have hminus : (digits ++ charM :: (tail ++ rest)).head? ≠ some charMinus := by
    cases digits with
    | nil =>
      intro he
      cases he
    | cons c cs =>
      intro he
      have hdigit := h.digits c List.mem_cons_self
      rw [Option.some.inj he, isDigit_special.2.2.2] at hdigit
      cases hdigit
  rw [hdrop, stoi_eq hminus, htake]

/-! ### What is shown -/

theorem shown_skip (i skip : Nat) (color : UInt8) (text : List UInt8) :
    shown i skip color text = shown (i + skip) 0 color (text.drop skip) := by
  induction skip generalizing i text with
  | zero => rfl
  | succ skip ih =>
    cases text with
    | nil =>
      rw [List.drop_nil]
      rfl
    | cons c text =>
      rw [shown, ih, List.drop_succ_cons, Nat.add_assoc, Nat.add_comm 1]

theorem shown_ge (i skip : Nat) (color : UInt8) (text : List UInt8) :
    ∀ p ∈ shown i skip color text, i + skip ≤ p.1 := by
  induction text generalizing i skip color with
  | nil =>
    intro p hp
    cases skip <;> cases hp
  | cons c text ih =>
    intro p hp
    cases skip with
    | succ skip =>
      have := ih (i + 1) skip color p hp
      omega
    | zero =>
      rw [shown] at hp
      split at hp
      · have := ih _ _ _ p hp
        omega
      · rcases List.mem_cons.mp hp with rfl | hp
        · exact Nat.le_refl _
        · have := ih _ _ _ p hp
          omega

def shownFrom (buf : List UInt8) (i : Nat) (color : UInt8) : List (Nat × UInt8) :=
  shown i 0 color (buf.drop i)

theorem shownFrom_end (h : buf.length ≤ i) (color : UInt8) : shownFrom buf i color = [] := by
  rw [shownFrom, List.drop_eq_nil_of_le h]
  rfl

theorem shownFrom_sequence (h : SequenceAt buf digits i) (color : UInt8) : shownFrom buf i color =
    shownFrom buf (i + digits.length + 3) (selected (decimalValue digits) color) := by
  have hend := h.end_le
  have hseq := (sequence_iff buf digits i).mpr h
  rw [shownFrom, List.drop_eq_getElem_cons (by omega)] at *
  rw [shown, hseq]
  have hnext : i + 1 + (digits.length + 2) = i + digits.length + 3 := by omega
  dsimp only
  rw [shown_skip, List.drop_drop, hnext, shownFrom]

theorem shownFrom_plain (hi : i < buf.length) (h : ∀ digits, ¬SequenceAt buf digits i) (color : UInt8) :
    shownFrom buf i color = (i, color) :: shownFrom buf (i + 1) color := by
  have hnone : sequence (buf.drop i) = none := by
    cases hs : sequence (buf.drop i) with
    | none => rfl
    | some digits => exact absurd ((sequence_iff buf digits i).mp hs) (h digits)
  rw [shownFrom, List.drop_eq_getElem_cons hi] at *
  rw [shown, hnone]
  rfl

/-! ### The loop -/

def Opens (buf : List UInt8) (i : Nat) : Prop :=
  buf[i]? = some charEsc ∧ buf[i + 1]? = some charBracket

instance (buf : List UInt8) (i : Nat) : Decidable (Opens buf i) := inferInstanceAs (Decidable (_ ∧ _))

theorem Opens.lt (h : Opens buf i) : i + 1 < buf.length :=
  (List.getElem?_eq_some_iff.mp h.2).1

/-- Rounds beyond the length of the buffer change nothing: the loop has ended. -/
theorem ansiLoop_enough {mem : List UInt8} {len rounds i : Nat} (h : len - i ≤ rounds) (color : UInt8) :
    ansiLoop mem len (rounds + 1) i color = ansiLoop mem len rounds i color := by
  induction rounds generalizing i color with
  | zero =>
    unfold ansiLoop
    exact if_neg (by omega)
  | succ rounds ih =>
    rw [ansiLoop.eq_2, ansiLoop.eq_2 mem len i color rounds]
    split
    · split
      · dsimp only
        rw [ih (by omega)]
      · rw [ih (by omega)]
    · rfl

theorem ansiLoop_end (h : buf.length ≤ i) (rounds : Nat) (color : UInt8) :
    ansiLoop (buf ++ rest) buf.length rounds i color = parsedNothing := by
  cases rounds with
  | zero => rfl
  | succ rounds => rw [ansiLoop, if_neg (Nat.not_lt.mpr h)]

theorem ansiLoop_open (h : Opens buf i) (rounds : Nat) (color : UInt8) :
    ansiLoop (buf ++ rest) buf.length (rounds + 1) i color =
      let code := stoi ((buf ++ rest).drop (i + 2))
      (ansiLoop (buf ++ rest) buf.length rounds (i + ((itos code.1).length + 2) + 1)
        (setColor code.1 color).1).reading (i + 2 + code.2) (setColor code.1 color).2 := by
  have hlt := h.lt
  have hopen : i + 1 < buf.length ∧ (buf ++ rest).getD i 0 = charEsc ∧
      (buf ++ rest).getD (i + 1) 0 = charBracket :=
    ⟨hlt, (mem_getD (by omega) _).mpr h.1, (mem_getD hlt _).mpr h.2⟩
  rw [ansiLoop, if_pos (by omega), if_pos hopen]

theorem ansiLoop_plain (rest : List UInt8) (hi : i < buf.length) (h : ¬Opens buf i) (rounds : Nat) (color : UInt8) :
    ∃ n ≤ buf.length, ansiLoop (buf ++ rest) buf.length (rounds + 1) i color =
      ((ansiLoop (buf ++ rest) buf.length rounds (i + 1) color).printing i color).reading n 0 := by
  have hopen : ¬(i + 1 < buf.length ∧ (buf ++ rest).getD i 0 = charEsc ∧
      (buf ++ rest).getD (i + 1) 0 = charBracket) := by
    rintro ⟨hlt, he, hb⟩
    exact h ⟨(mem_getD hi _).mp he, (mem_getD hlt _).mp hb⟩
  refine ⟨_, ?_, by rw [ansiLoop, if_pos hi, if_neg hopen]⟩
  split <;> omega

theorem ansiLoop_ge (rounds i : Nat) (color : UInt8) :
    ∀ p ∈ (ansiLoop (buf ++ rest) buf.length rounds i color).prints, i ≤ p.1 := by
  induction rounds generalizing i color with
  | zero =>
    intro p hp
    cases hp
  | succ rounds ih =>
    intro p hp
    rcases Nat.lt_or_ge i buf.length with hi | hi
    · by_cases hopen : Opens buf i
      · rw [ansiLoop_open hopen] at hp
        have := ih _ _ p hp
        omega
      · obtain ⟨n, _, heq⟩ := ansiLoop_plain rest hi hopen rounds color
        rw [heq] at hp
        rcases List.mem_cons.mp hp with rfl | hp
        · exact Nat.le_refl _
        · have := ih _ _ p hp
          omega
    · rw [ansiLoop_end hi] at hp
      cases hp

/-- A character other than ESC is printed where it is met. -/
theorem ansiLoop_prints {rounds : Nat} (hi : i < buf.length) (hesc : buf[i]? ≠ some charEsc)
    (hr : 0 < rounds) (color : UInt8) :
    (i, color) ∈ (ansiLoop (buf ++ rest) buf.length rounds i color).prints := by
  cases rounds with
  | zero => cases hr
  | succ rounds =>
    obtain ⟨n, _, heq⟩ := ansiLoop_plain rest hi (fun h => hesc h.1) rounds color
    rw [heq]
    exact List.mem_cons_self

def LoopExact (buf rest : List UInt8) (rounds i : Nat) (color : UInt8) : Prop :=
  (ansiLoop (buf ++ rest) buf.length rounds i color).bufEnd ≤ buf.length ∧
    (ansiLoop (buf ++ rest) buf.length rounds i color).tableEnd ≤ ansiToTerminal.length ∧
    (ansiLoop (buf ++ rest) buf.length rounds i color).prints = shownFrom buf i color

def FitsFrom (buf : List UInt8) (i : Nat) : Prop := ∀ j ≥ i, Opens buf j → SequenceFits buf j

theorem loopExact_end (h : buf.length ≤ i) (rounds : Nat) (color : UInt8) :
    LoopExact buf rest rounds i color := by
  rw [LoopExact, ansiLoop_end h, shownFrom_end h]
  exact ⟨Nat.zero_le _, Nat.zero_le _, rfl⟩

theorem fitsFrom_end (h : buf.length ≤ i) : FitsFrom buf i := fun j hj hopen => by
  have := hopen.lt
  omega

theorem loopExact_plain (hi : i < buf.length) (h : ¬Opens buf i) (rounds : Nat) (color : UInt8) :
    LoopExact buf rest (rounds + 1) i color ↔ LoopExact buf rest rounds (i + 1) color := by
  obtain ⟨n, hn, heq⟩ := ansiLoop_plain rest hi h rounds color
  have hplain := shownFrom_plain hi (fun digits hs => h ⟨hs.esc, hs.bracket⟩) color
  rw [LoopExact, LoopExact, heq, hplain]
  refine and_congr ?_ (and_congr ?_ ?_)
  · exact ⟨fun h => (Nat.max_le.mp h).1, fun h => Nat.max_le.mpr ⟨h, hn⟩⟩
  · exact ⟨fun h => (Nat.max_le.mp h).1, fun h => Nat.max_le.mpr ⟨h, Nat.zero_le _⟩⟩
  · exact List.cons_eq_cons.trans (and_iff_right rfl)

theorem fitsFrom_plain (h : ¬Opens buf i) : FitsFrom buf i ↔ FitsFrom buf (i + 1) := by
  refine ⟨fun hall j hj => hall j (by omega), fun hall j hj hopen => ?_⟩
  by_cases he : j = i
  · exact absurd (he ▸ hopen) h
  · exact hall j (by omega) hopen

/-- ESC [ without the rest of a sequence is shown, but skipped. -/
theorem loopExact_incomplete (hopen : Opens buf i) (hno : ∀ digits, ¬SequenceAt buf digits i)
    (rounds : Nat) (color : UInt8) : ¬LoopExact buf rest (rounds + 1) i color := by
  rintro ⟨_, _, hprints⟩
  have hlt := hopen.lt
  rw [shownFrom_plain (by omega) hno, ansiLoop_open hopen] at hprints
  have hmem : (i, color) ∈ (ansiLoop (buf ++ rest) buf.length rounds
      (i + ((itos (stoi ((buf ++ rest).drop (i + 2))).1).length + 2) + 1)
      (setColor (stoi ((buf ++ rest).drop (i + 2))).1 color).1).prints :=
    hprints.symm ▸ List.mem_cons_self
  have := ansiLoop_ge _ _ _ _ hmem
  omega

theorem SequenceAt.opens (h : SequenceAt buf digits i) : Opens buf i := ⟨h.esc, h.bracket⟩

theorem fitsFrom_sequence (h : SequenceAt buf digits i) :
    FitsFrom buf i ↔ (decimalValue digits ≠ 50 ∧ DigitsFit digits (i + digits.length + 3 = buf.length)) ∧
      FitsFrom buf (i + digits.length + 3) := by
  have hseq := (sequence_iff buf digits i).mpr h
  constructor
  · intro hall
    obtain ⟨digits', hs, hne, hfit⟩ := hall i (Nat.le_refl i) h.opens
    rw [hseq] at hs
    cases hs
    exact ⟨⟨hne, hfit⟩, fun j hj => hall j (by omega)⟩
  · rintro ⟨⟨hne, hfit⟩, hrest⟩ j hj hopen
    rcases Nat.lt_or_ge j (i + digits.length + 3) with hlt | hge
    · by_cases he : j = i
      · exact he ▸ ⟨digits, hseq, hne, hfit⟩
      · exact absurd hopen.1 (h.no_esc (by omega) hlt)
    · exact hrest j hge hopen

/-- A complete sequence: the loop goes on after what itos would have written. -/
theorem loopExact_sequence (h : SequenceAt buf digits i) (rounds : Nat) (color : UInt8) :
    LoopExact buf rest (rounds + 1) i color ↔ (setColor (toInt32 (decimalValue digits)) color).2 ≤
        ansiToTerminal.length ∧
      (ansiLoop (buf ++ rest) buf.length rounds (i + skipped digits + 3)
        (setColor (toInt32 (decimalValue digits)) color).1).bufEnd ≤ buf.length ∧
      (ansiLoop (buf ++ rest) buf.length rounds (i + skipped digits + 3)
        (setColor (toInt32 (decimalValue digits)) color).1).tableEnd ≤ ansiToTerminal.length ∧
      (ansiLoop (buf ++ rest) buf.length rounds (i + skipped digits + 3)
        (setColor (toInt32 (decimalValue digits)) color).1).prints =
        shownFrom buf (i + digits.length + 3) (selected (decimalValue digits) color) := by
  have hend := h.end_le
  have hnext : i + (skipped digits + 2) + 1 = i + skipped digits + 3 := by omega
  rw [LoopExact, ansiLoop_open h.opens, shownFrom_sequence h, h.stoi rest]
  dsimp only
  rw [← skipped, hnext]
  unfold Parsed.reading
  dsimp only
  rw [Nat.max_le, Nat.max_le]
  constructor
  · rintro ⟨⟨hb, _⟩, ⟨ht, hc⟩, hp⟩
    exact ⟨hc, hb, ht, hp⟩
  · rintro ⟨hc, hb, ht, hp⟩
    exact ⟨⟨hb, by omega⟩, ⟨ht, hc⟩, hp⟩

/-- Skipping too little prints what is left of the sequence. -/
theorem prints_tail (h : SequenceAt buf digits i) (hshort : skipped digits < digits.length) {rounds : Nat}
    (hr : 0 < rounds) (color color' : UInt8) :
    (ansiLoop (buf ++ rest) buf.length rounds (i + skipped digits + 3) color).prints ≠
      shownFrom buf (i + digits.length + 3) color' := by
  intro he
  have hend := h.end_le
  have hmem := @ansiLoop_prints buf rest (i + skipped digits + 3) rounds (by omega)
    (h.no_esc (by omega) (by omega)) hr color
  rw [he] at hmem
  have hge := shown_ge _ _ _ _ _ hmem
  dsimp only at hge
  omega

/-- Skipping one character too many loses it, be it a plain one or the start of a sequence. -/
theorem prints_lost (hlong : skipped digits = digits.length + 1)
    (hmore : i + digits.length + 3 < buf.length) {rounds : Nat}
    (hr : buf.length - (i + digits.length + 4) ≤ rounds) (color color' : UInt8) :
    (ansiLoop (buf ++ rest) buf.length rounds (i + skipped digits + 3) color).prints ≠
      shownFrom buf (i + digits.length + 3) color' := by
  intro he
  have hnext : i + skipped digits + 3 = i + digits.length + 3 + 1 := by omega
  rw [hnext] at he
  generalize i + digits.length + 3 = p at *
  by_cases hseq : ∃ digits', SequenceAt buf digits' p
  · obtain ⟨digits', hs⟩ := hseq
    have hend := hs.end_le
    have hmem := @ansiLoop_prints buf rest (p + 1) rounds (by omega)
      (hs.no_esc (Nat.lt_succ_self p) (by omega)) (by omega) color
    rw [he, shownFrom_sequence hs] at hmem
    have hge := shown_ge _ _ _ _ _ hmem
    dsimp only at hge
    omega
  · rw [shownFrom_plain hmore (fun digits' hs => hseq ⟨digits', hs⟩)] at he
    have hmem : (p, color') ∈ (ansiLoop (buf ++ rest) buf.length rounds (p + 1) color).prints :=
      he.symm ▸ List.mem_cons_self
    have hge := ansiLoop_ge _ _ _ _ hmem
    dsimp only at hge
    omega

/-- From any place on the loop does what it should if and only if the sequences that follow fit. -/
theorem loopExact_iff {rounds : Nat} (hr : buf.length - i ≤ rounds) (color : UInt8) :
    LoopExact buf rest rounds i color ↔ FitsFrom buf i := by
  induction rounds generalizing i color with
  | zero => exact iff_of_true (loopExact_end (by omega) 0 color) (fitsFrom_end (by omega))
  | succ rounds ih =>
    rcases Nat.lt_or_ge i buf.length with hi | hi
    case inr => exact iff_of_true (loopExact_end hi _ color) (fitsFrom_end hi)
    by_cases hopen : Opens buf i
    case neg =>
      rw [loopExact_plain hi hopen, fitsFrom_plain hopen]
      exact ih (by omega) color
    by_cases hseq : ∃ digits, SequenceAt buf digits i
    case neg =>
      refine iff_of_false (loopExact_incomplete hopen (fun digits hs => hseq ⟨digits, hs⟩) _ _) ?_
      intro hall
      obtain ⟨digits, hs, _⟩ := hall i (Nat.le_refl i) hopen
      exact hseq ⟨digits, (sequence_iff buf digits i).mp hs⟩
    obtain ⟨digits, hs⟩ := hseq
    have hend := hs.end_le
    have hle := skipped_le hs.digits
    rw [fitsFrom_sequence hs, loopExact_sequence hs, digitsFit_iff hs.digits]
    by_cases hfifty : decimalValue digits = 50
    · rw [hfifty]
      refine iff_of_false (fun h => ?_) fun h => h.1.1 rfl
      exact absurd h.1 (Nat.not_le.mpr (setColor_fifty color))
    rcases Nat.lt_trichotomy (skipped digits) digits.length with hlt | heq | hgt
    · refine iff_of_false (fun h => prints_tail hs hlt (by omega) _ _ h.2.2.2) ?_
      rintro ⟨⟨_, hfit⟩, _⟩
      omega
    · obtain ⟨hcolor, htable⟩ := setColor_eq hs.digits (Nat.le_of_eq heq.symm) hfifty color
      have hfit : decimalValue digits ≠ 50 ∧ (digits.length = digits.length ∨
          digits.length = digits.length + 1 ∧ i + digits.length + 3 = buf.length) := ⟨hfifty, .inl rfl⟩
      rw [hcolor, heq, and_iff_right htable, and_iff_right hfit]
      exact ih (by omega) _
    · obtain ⟨_, htable⟩ := setColor_eq hs.digits (Nat.le_of_lt hgt) hfifty color
      have hlong : skipped digits = digits.length + 1 := by omega
      rcases Nat.lt_or_eq_of_le hend with hmore | hlast
      · refine iff_of_false (fun h => prints_lost hlong hmore (by omega) _ _ h.2.2.2) ?_
        rintro ⟨⟨_, hfit⟩, _⟩
        omega
      · have hpast : buf.length ≤ i + skipped digits + 3 := by omega
        rw [ansiLoop_end hpast, shownFrom_end (Nat.le_of_eq hlast.symm)]
        refine iff_of_true ⟨htable, Nat.zero_le _, Nat.zero_le _, rfl⟩ ?_
        exact ⟨⟨hfifty, .inr ⟨hlong, hlast⟩⟩, fitsFrom_end (Nat.le_of_eq hlast.symm)⟩

end Buffer

theorem sequencesFit_iff (buf : List UInt8) : SequencesFit buf ↔ FitsFrom buf 0 :=
  ⟨fun h j _ hopen => h j hopen.1 hopen.2, fun h j he hb => h j (Nat.zero_le j) ⟨he, hb⟩⟩

/-- Whatever follows the buffer in memory, parse_ansi_escape reads only the buffer and the table and
prints the text without its sequences, each character in the color last selected, if and only if the
buffer is the clear sequence or every ESC [ in it begins a sequence that fits. -/
theorem parseAnsiEscape_exact_iff (buf rest : List UInt8) :
    AnsiExact buf rest ↔ buf = clearSequence ∨ SequencesFit buf := by
  by_cases hclear : buf = clearSequence
  · refine iff_of_true ?_ (.inl hclear)
    have hparse : parseAnsiEscape (buf ++ rest) buf.length = ⟨true, [], 7, 0⟩ := by
      rw [parseAnsiEscape, hclear]
      exact if_pos ⟨rfl, rfl⟩
    rw [AnsiExact, hparse, hclear]
    exact ⟨Nat.le_refl 7, Nat.zero_le _, fun h => absurd rfl h⟩
  · have hparse : parseAnsiEscape (buf ++ rest) buf.length =
        ansiLoop (buf ++ rest) buf.length buf.length 0 white := by
      refine if_neg ?_
      rintro ⟨hlen, htake⟩
      rw [← hlen, List.take_left] at htake
      exact hclear htake
    rw [AnsiExact, hparse, or_iff_right hclear, sequencesFit_iff,
      ← @loopExact_iff buf rest 0 buf.length (Nat.sub_le _ _) white]
    refine and_congr Iff.rfl (and_congr Iff.rfl ?_)
    exact ⟨fun h => h hclear, fun h _ => h⟩

/-- ESC [ m A prints nothing: the A is taken for the digit of a 0. -/
theorem bare_sequence_loses : ¬ ∀ buf rest : List UInt8,
    (parseAnsiEscape (buf ++ rest) buf.length).bufEnd ≤ buf.length ∧
      (parseAnsiEscape (buf ++ rest) buf.length).tableEnd ≤ ansiToTerminal.length ∧
      (buf ≠ clearSequence →
        (parseAnsiEscape (buf ++ rest) buf.length).prints.map (fun p => ((buf ++ rest).getD p.1 0, p.2)) =
          (shown 0 0 white buf).map fun p => (buf.getD p.1 0, p.2)) := by
  intro hall
  have h := (hall [27, 91, 109, 65] []).2.2 (by decide)
  revert h
  decide

end AdamOS.Ansi
