import AdamOS.Lib.Digits
import AdamOS.Programs.Strings

/-! itohs writes a number in hexadecimal. It takes the number as an int: a register or an address of the
upper half is negative, and the loop ends after one digit. -/
namespace AdamOS.Strings
open AdamOS.Digits AdamOS.Word
open AdamOS.Fat16 (Local stringAt strcpy noNul_of_all)

def charZero : UInt8 := 48
def charX : UInt8 := 88

def digits16 : List UInt8 := [48, 49, 50, 51, 52, 53, 54, 55, 56, 57, 65, 66, 67, 68, 69, 70]

/- digits_16[k]; around is what memory holds before and behind the table. -/
def digitAt (around : Int → UInt8) (k : Int) : UInt8 :=
  if 0 ≤ k ∧ k < 16 then digits16.getD k.toNat 0 else around k

/- i, hex, and the indices into digits_16 so far. -/
structure HexState where
  i : Nat
  hex : Local
  used : List Int

/- The do-while loop of itohs; an int has at most eight hexadecimal digits. -/
def itohsWrite (around : Int → UInt8) : Nat → Int → HexState → HexState
  | 0, _, s => s
  | k+1, n, s =>
    let s : HexState := ⟨s.i + 1, s.hex.store s.i (digitAt around (n.tmod 16)), s.used ++ [n.tmod 16]⟩
    if n.tdiv 16 > 0 then itohsWrite around k (n.tdiv 16) s else s

def hexStart (garbage : Nat → UInt8) : HexState := ⟨0, ⟨20, garbage, 0⟩, []⟩

def itohs (around : Int → UInt8) (garbage : Nat → UInt8) (result : Local) (n : Int) : Local × List Int :=
  let s := itohsWrite around 8 n (hexStart garbage)
  let hex := strrev (s.hex.store s.i 0)
  (strcpy (stringAt hex.bytes memorySize 0) 2 ((result.store 0 charZero).store 1 charX), s.used)

/-! ### Hexadecimal notation -/

def hexDigit (d : Nat) : UInt8 := UInt8.ofNat (Nat.digitChar d).toUpper.toNat

/- "0X" and the digits of a number, without zeros in front. -/
def hexNumber (v : Nat) : List UInt8 :=
  charZero :: charX :: (Nat.toDigits 16 v).map fun c => UInt8.ofNat c.toUpper.toNat

section
variable {around : Int → UInt8} {garbage : Nat → UInt8} {result : Local} {n : Nat}

theorem digits16_hexDigit {d : Nat} (h : d < 16) : digits16.getD d 0 = hexDigit d ∧ hexDigit d ≠ 0 := by
  revert d
  decide

theorem digitAt_nat {d : Nat} (h : d < 16) : digitAt around d = hexDigit d := by
  rw [digitAt, if_pos (by omega), Int.toNat_natCast]
  exact (digits16_hexDigit h).1

theorem hexNumber_remainders (h : n < 4294967296) :
    hexNumber n = charZero :: charX :: ((remainders 16 8 n).map hexDigit).reverse := by
  rw [hexNumber, ← remainders_toDigits (k := 7) (by decide) h, List.map_map, ← List.map_reverse]
  rfl

theorem hexNumber_long (h : 16 ≤ n) : 3 < (hexNumber n).length := by
  have hlong : ¬(Nat.toDigits 16 n).length ≤ 1 := fun hle => by
    have hlt := (Nat.length_toDigits_le_iff (by decide) (by decide)).mp hle
    omega
  rw [hexNumber, List.length_cons, List.length_cons, List.length_map]
  omega

/-! ### The loop -/

/-- The loop takes off the digits of a number that is not negative, the last first. -/
theorem itohsWrite_nat (around : Int → UInt8) (k n : Nat) (s : HexState) :
    (itohsWrite around k n s).hex.store (itohsWrite around k n s).i 0 =
        strcpy ((remainders 16 k n).map hexDigit) s.i s.hex ∧
      (itohsWrite around k n s).used = s.used ++ (remainders 16 k n).map Int.ofNat := by
  induction k generalizing n s with
  | zero => exact ⟨rfl, (List.append_nil _).symm⟩
  | succ k ih =>
    have hdiv : (n : Int).tdiv 16 = (n / 16 : Nat) := (Int.ofNat_tdiv n 16).symm
    have hmod : (n : Int).tmod 16 = (n % 16 : Nat) := (Int.ofNat_tmod n 16).symm
    rw [itohsWrite, hdiv, hmod, digitAt_nat (Nat.mod_lt n (by decide)), remainders]
    by_cases hpos : 0 < n / 16
    · obtain ⟨htext, hused⟩ :=
        ih (n / 16) ⟨s.i + 1, s.hex.store s.i (hexDigit (n % 16)), s.used ++ [Int.ofNat (n % 16)]⟩
      rw [if_pos hpos, if_pos (by exact_mod_cast hpos)]
      exact ⟨htext, hused.trans (List.append_assoc ..)⟩
    · rw [if_neg hpos, if_neg (by exact_mod_cast hpos)]
      exact ⟨rfl, rfl⟩

theorem itohsWrite_neg (around : Int → UInt8) {i : Int} (h : i < 0) (k : Nat) (s : HexState) :
    itohsWrite around (k + 1) i s =
      ⟨s.i + 1, s.hex.store s.i (digitAt around (i.tmod 16)), s.used ++ [i.tmod 16]⟩ := by
  have hdiv : ¬i.tdiv 16 > 0 := by
    have hpos : 0 ≤ (-i).tdiv 16 := Int.tdiv_nonneg (by omega) (by decide)
    rw [Int.neg_tdiv] at hpos
    omega
  exact if_neg hdiv

/-! ### The text -/

/-- itohs puts "0X" before the reverse of what the loop has written. -/
theorem itohs_text {i : Int} {t : List UInt8} (hlen : t.length < memorySize)
    (h : Holds ((itohsWrite around 8 i (hexStart garbage)).hex.store
      (itohsWrite around 8 i (hexStart garbage)).i 0).bytes t) :
    Holds (itohs around garbage result i).1.bytes (charZero :: charX :: t.reverse) := by
  obtain ⟨hrev, -, -⟩ := h.strrev hlen
  have htext := hrev.stringAt (by rwa [List.length_reverse])
  have hnoNul : ∀ c ∈ charZero :: charX :: t.reverse, c ≠ 0 := by
    intro c hc
    rcases List.mem_cons.mp hc with rfl | hc
    · decide
    · rcases List.mem_cons.mp hc with rfl | hc
      · decide
      · exact hrev.noNul c hc
  rw [itohs, htext]
  exact holds_strcpy hnoNul result

theorem itohs_nat (h : n < 2147483648) :
    Holds (itohs around garbage result n).1.bytes (hexNumber n) ∧
      ∀ k ∈ (itohs around garbage result n).2, 0 ≤ k ∧ k < 16 := by
  obtain ⟨htext, hused⟩ := itohsWrite_nat around 8 n (hexStart garbage)
  rw [hexStart, List.nil_append] at hused
  have hlt := remainders_lt (b := 16) (by decide) 8 n
  have hle := remainders_le 16 8 n
  refine ⟨?_, fun k hk => ?_⟩
  · rw [hexNumber_remainders (by omega)]
    refine itohs_text (by rw [List.length_map]; unfold memorySize; omega) ?_
    rw [htext]
    refine holds_strcpy (fun c hc => ?_) _
    obtain ⟨d, hd, rfl⟩ := List.mem_map.mp hc
    exact (digits16_hexDigit (hlt d hd)).2
  · rw [itohs, hexStart, hused] at hk
    obtain ⟨d, hd, rfl⟩ := List.mem_map.mp hk
    have hd := hlt d hd
    exact ⟨Int.natCast_nonneg d, Int.ofNat_lt.mpr hd⟩

/-- A negative int gets one digit at most, that of its remainder. -/
theorem itohs_neg (around : Int → UInt8) (garbage : Nat → UInt8) (result : Local) {i : Int} (h : i < 0) :
    (∃ t, t.length ≤ 3 ∧ Holds (itohs around garbage result i).1.bytes t) ∧
      (itohs around garbage result i).2 = [i.tmod 16] := by
  have hloop := itohsWrite_neg around h 7 (hexStart garbage)
  refine ⟨?_, by rw [itohs, hloop]; rfl⟩
  have hhex : ∃ t, t.length ≤ 1 ∧ Holds ((itohsWrite around 8 i (hexStart garbage)).hex.store
      (itohsWrite around 8 i (hexStart garbage)).i 0).bytes t := by
    rw [hloop]
    -- a NUL beside the table leaves hex empty
    by_cases hnul : digitAt around (i.tmod 16) = 0
    · exact ⟨[], Nat.zero_le 1, .nil hnul⟩
    · exact ⟨[digitAt around (i.tmod 16)], Nat.le_refl 1,
        holds_strcpy (fun c hc => List.mem_singleton.mp hc ▸ hnul) _⟩
  obtain ⟨t, ht, hholds⟩ := hhex
  refine ⟨charZero :: charX :: t.reverse, ?_, itohs_text (by unfold memorySize; omega) hholds⟩
  rw [List.length_cons, List.length_cons, List.length_reverse]
  omega

end

/-- The registers of the lower half are written as they are, and only those. -/
theorem itohs_hexNumber_iff (around : Int → UInt8) (garbage : Nat → UInt8) (result : Local) (v : UInt32) :
    (Holds (itohs around garbage result (toInt32 v.toNat)).1.bytes (hexNumber v.toNat) ∧
      ∀ k ∈ (itohs around garbage result (toInt32 v.toNat)).2, 0 ≤ k ∧ k < 16) ↔ v.toNat < 2147483648 := by
  have hv := v.toNat_lt
  constructor
  · rintro ⟨hholds, -⟩
    by_contra hhigh
    obtain ⟨⟨t, ht, hholds'⟩, -⟩ := itohs_neg around garbage result
      (toInt32_neg (by omega) hv)
    have hlong := hexNumber_long (by omega : 16 ≤ v.toNat)
    rw [hholds.unique hholds'] at hlong
    omega
  · intro hlow
    rw [toInt32_eq hlow]
    exact itohs_nat hlow

/-- An address of the framebuffer loses its digits, and the index -1 is used. -/
theorem framebuffer_address_lost :
    ¬Holds (itohs (fun _ => 0) (fun _ => 0) numberArray (toInt32 0xFD00000F)).1.bytes (hexNumber 0xFD00000F) ∧
      -1 ∈ (itohs (fun _ => 0) (fun _ => 0) numberArray (toInt32 0xFD00000F)).2 := by
  obtain ⟨⟨t, ht, hholds⟩, hused⟩ := itohs_neg (fun _ => 0) (fun _ => 0)
    numberArray (by decide : toInt32 0xFD00000F < 0)
  have hlong := hexNumber_long (by decide : 16 ≤ 0xFD00000F)
  refine ⟨fun hholds' => ?_, ?_⟩
  · rw [hholds'.unique hholds] at hlong
    omega
  · rw [hused]
    decide

end AdamOS.Strings
