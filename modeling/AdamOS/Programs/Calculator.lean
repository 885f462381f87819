import AdamOS.Lib.Digits
import AdamOS.Lib.Loop
import AdamOS.Programs.Strings

/-! calculator.c: the display is evaluated strictly from left to right, and what itos makes of the value is
appended to it. The value is written wrong only where it is the least int. -/
namespace AdamOS.Calculator
open AdamOS.Ansi (isDigit digitValue decimalValue charMinus itosLoop_nat)
open AdamOS.Fat16 (Local noNul_of_all strcpy)
open AdamOS.Digits AdamOS.Loop AdamOS.Strings AdamOS.Word

def charPlus : UInt8 := 43
def charTimes : UInt8 := 42
def charDivide : UInt8 := 47
def charEquals : UInt8 := 61

/- An access outside the display, or the division of the least int by -1, which the processor refuses. -/
inductive Fault where
  | outside
  | divide
deriving DecidableEq

structure Evaluation where
  result : Int
  current : Int
  op : UInt8
deriving DecidableEq

def startEvaluation : Evaluation := ⟨0, 0, charPlus⟩

def applyOp (s : Evaluation) : Option Int :=
  if s.op = charPlus then some (int32 (s.result + s.current))
  else if s.op = charMinus then some (int32 (s.result - s.current))
  else if s.op = charTimes then some (int32 (s.result * s.current))
  else if s.op = charDivide ∧ s.current ≠ 0 then
    if s.result = -2147483648 ∧ s.current = -1 then none else some (s.result.tdiv s.current)
  else some s.result

def calcStep (display : Nat → UInt8) (len i : Nat) (s : Evaluation) : Option Evaluation :=
  let c := display i
  if i < len ∧ isDigit c then
    some { s with current := int32 (int32 (s.current * 10) + (c.toNat - 48)) }
  else (applyOp s).map fun result => ⟨result, 0, c⟩

def evaluate (display : Nat → UInt8) (len : Nat) : Option Evaluation :=
  loop (len + 1) (fun i s => s.bind (calcStep display len i)) (some startEvaluation)

def constantBytes (s : List UInt8) (i : Nat) : UInt8 := s.getD i 0

/- What buf holds before itos is arbitrary. -/
def calculate (garbage : Nat → UInt8) (display : Local) : Except Fault Local :=
  let len := strlen display.bytes
  if display.size ≤ len then .error .outside
  else if len = 0 then .ok display
  else
    let ends := display.bytes (len - 1) = charEquals
    let display := if ends then display.store (len - 1) 0 else display
    match evaluate display.bytes (if ends then len - 1 else len) with
    | none => .error .divide
    | some s =>
      let buf := itos ⟨100, garbage, 0⟩ s.result
      let display := strcat (strcat display (constantBytes [charEquals])) buf.bytes
      if display.extent ≤ display.size then .ok display else .error .outside

/-! ### Expressions -/

inductive Op where
  | add
  | sub
  | mul
  | div

def Op.char : Op → UInt8
  | add => charPlus
  | sub => charMinus
  | mul => charTimes
  | div => charDivide

/- A division by zero leaves the value. -/
def Op.apply (v n : Int) : Op → Int
  | add => v + n
  | sub => v - n
  | mul => v * n
  | div => if n = 0 then v else v.tdiv n

structure Number where
  digits : List UInt8
  nonempty : digits ≠ []
  allDigits : ∀ c ∈ digits, isDigit c = true

def Number.value (n : Number) : Nat := decimalValue n.digits

structure Expression where
  first : Number
  rest : List (Op × Number)

def tailText (rest : List (Op × Number)) : List UInt8 := rest.flatMap fun t => t.1.char :: t.2.digits

def tailValue (v : Int) (rest : List (Op × Number)) : Int := rest.foldl (fun v t => t.1.apply v t.2.value) v

def Expression.text (e : Expression) : List UInt8 := e.first.digits ++ tailText e.rest

def Expression.value (e : Expression) : Int := tailValue e.first.value e.rest

def FitsInt (v : Int) : Prop := -2147483648 ≤ v ∧ v < 2147483648

instance (v : Int) : Decidable (FitsInt v) := inferInstanceAs (Decidable (_ ∧ _))

/- Every number and every running value is an int. -/
def TailFits : Int → List (Op × Number) → Prop
  | v, [] => FitsInt v
  | v, (op, n) :: rest => FitsInt v ∧ FitsInt n.value ∧ TailFits (op.apply v n.value) rest

instance tailFitsDecidable : ∀ v rest, Decidable (TailFits v rest)
  | v, [] => inferInstanceAs (Decidable (FitsInt v))
  | v, (op, n) :: rest =>
    have := tailFitsDecidable (op.apply v n.value) rest
    inferInstanceAs (Decidable (_ ∧ _ ∧ _))

def Expression.Fits (e : Expression) : Prop := TailFits e.first.value e.rest

instance (e : Expression) : Decidable e.Fits := tailFitsDecidable ..

def decimal (v : Int) : List UInt8 :=
  (if v < 0 then [charMinus] else []) ++ (Nat.toDigits 10 v.natAbs).map fun d => UInt8.ofNat d.toNat

/-! ### The loop over the characters -/

/- The round for a character; the NUL is none of the digits. -/
def charStep (s : Evaluation) (c : UInt8) : Option Evaluation :=
  if isDigit c then some { s with current := int32 (int32 (s.current * 10) + (c.toNat - 48)) }
  else (applyOp s).map fun result => ⟨result, 0, c⟩

def evaluateText (text : List UInt8) : Option Evaluation := (text ++ [0]).foldlM charStep startEvaluation

theorem calcStep_char {bytes : Nat → UInt8} {text : List UInt8} (h : Holds bytes text) {i : Nat}
    (hi : i < text.length + 1) (s : Evaluation) : calcStep bytes text.length i s = charStep s (bytes i) := by
  have hnul : isDigit 0 = false := by decide
  unfold calcStep charStep
  rcases Nat.lt_succ_iff_lt_or_eq.mp hi with hlt | rfl
  · simp only [hlt, true_and]
  · simp only [h.nul, hnul, Bool.false_eq_true, and_false, if_false]

theorem evaluate_text {bytes : Nat → UInt8} {text : List UInt8} (h : Holds bytes text) :
    evaluate bytes text.length = evaluateText text := by
  have hread : ∀ i (hi : i < (text ++ [0]).length), bytes i = (text ++ [0])[i] := by
    intro i hi
    rw [List.length_append, List.length_singleton] at hi
    rcases Nat.lt_succ_iff_lt_or_eq.mp hi with hlt | rfl
    · rw [List.getElem_append_left hlt]
      exact h.chars i _ (List.getElem?_eq_getElem hlt)
    · rw [List.getElem_concat_length rfl]
      exact h.nul
  have hrounds : loop (text.length + 1) (fun i s => s.bind (calcStep bytes text.length i))
      (some startEvaluation) =
      ((text ++ [0]).take (text.length + 1)).foldlM charStep startEvaluation :=
    loop_invariant (fun k s => s = ((text ++ [0]).take k).foldlM charStep startEvaluation) rfl
      fun i hi s hs => by
        have hlt : i < (text ++ [0]).length := by rwa [List.length_append]
        rw [List.take_succ_eq_append_getElem hlt, List.foldlM_append, ← hs, ← hread i hlt]
        exact congrArg s.bind (funext fun s => (calcStep_char h hi s).trans (by simp))
  rw [evaluate, evaluateText, hrounds, List.take_of_length_le (by simp)]

/-! ### Expressions are evaluated -/

section
variable {s : Evaluation} {v : Int}

theorem foldlM_digits {digits : List UInt8} (hd : ∀ c ∈ digits, isDigit c = true) (r : Int) (op : UInt8)
    (m : Nat) : digits.foldlM charStep ⟨r, toInt32 m, op⟩ =
      some ⟨r, toInt32 (digits.foldl (fun n c => n * 10 + digitValue c) m), op⟩ := by
  induction digits generalizing m with
  | nil => rfl
  | cons c cs ih =>
    rw [List.foldlM_cons, charStep, if_pos (hd c List.mem_cons_self), toInt32_digit (hd c List.mem_cons_self)]
    exact ih (fun d h => hd d (List.mem_cons_of_mem _ h)) _

theorem Number.foldlM (n : Number) (hn : FitsInt n.value) (r : Int) (op : UInt8) :
    n.digits.foldlM charStep ⟨r, 0, op⟩ = some ⟨r, n.value, op⟩ := by
  have hrun := foldlM_digits n.allDigits r op 0
  have hvalue : toInt32 n.value = n.value := toInt32_eq (by exact_mod_cast hn.2)
  rw [show toInt32 0 = 0 from rfl] at hrun
  rw [hrun]
  exact congrArg (fun c => some (Evaluation.mk r c op)) hvalue

/-- The pending operator is applied as it is defined, where the value is an int. -/
theorem applyOp_char (op : Op) (n : Nat) (hv : FitsInt (op.apply v n)) :
    applyOp ⟨v, n, op.char⟩ = some (op.apply v n) := by
  cases op with
  | add => exact congrArg some (int32_eq hv.1 hv.2)
  | sub => exact congrArg some (int32_eq hv.1 hv.2)
  | mul => exact congrArg some (int32_eq hv.1 hv.2)
  | div =>
    rcases Nat.eq_zero_or_pos n with rfl | hpos
    · rfl
    · have hne : (n : Int) ≠ 0 := by omega
      have hpos' : (n : Int) ≠ -1 := by omega
      rw [Op.apply, if_neg hne]
      change (if charDivide = charDivide ∧ (n : Int) ≠ 0 then
        if v = -2147483648 ∧ (n : Int) = -1 then none else some (v.tdiv n) else some v) = _
      rw [if_pos ⟨rfl, hne⟩, if_neg fun h => hpos' h.2]

theorem charStep_op (op : Op) (h : applyOp s = some v) : charStep s op.char = some ⟨v, 0, op.char⟩ := by
  have hop : isDigit op.char = false := by cases op <;> decide
  rw [charStep, if_neg (by rw [hop]; exact Bool.false_ne_true), h]
  rfl

/-- Before each operator, the pending one gives the running value. -/
theorem foldlM_tail (rest : List (Op × Number)) (h : applyOp s = some v) (hfits : TailFits v rest) :
    (tailText rest ++ [0]).foldlM charStep s = some ⟨tailValue v rest, 0, 0⟩ := by
  induction rest generalizing s v with
  | nil =>
    change (charStep s 0).bind some = _
    rw [Option.bind_fun_some, charStep, if_neg (by decide), h]
    rfl
  | cons t rest ih =>
    obtain ⟨op, n⟩ := t
    obtain ⟨-, hn, htail⟩ := hfits
    have hnext : FitsInt (op.apply v n.value) := by
      cases rest with
      | nil => exact htail
      | cons t rest => exact htail.1
    have hsplit : tailText ((op, n) :: rest) ++ [0] = op.char :: (n.digits ++ (tailText rest ++ [0])) := by
      simp only [tailText, List.flatMap_cons, List.cons_append, List.append_assoc]
    rw [hsplit, List.foldlM_cons, charStep_op op h]
    change (n.digits ++ _).foldlM charStep ⟨v, 0, op.char⟩ = _
    rw [List.foldlM_append, n.foldlM hn]
    exact ih (applyOp_char op n.value hnext) htail

theorem Expression.Fits.first {e : Expression} (h : e.Fits) : FitsInt e.first.value := by
  obtain ⟨first, rest⟩ := e
  cases rest with
  | nil => exact h
  | cons t rest => exact h.1

theorem evaluateText_value {e : Expression} (h : e.Fits) : evaluateText e.text = some ⟨e.value, 0, 0⟩ := by
  have hfirst : applyOp ⟨0, e.first.value, charPlus⟩ = some (e.first.value : Int) := by
    have happly := @applyOp_char 0 .add e.first.value (by rw [Op.apply, Int.zero_add]; exact h.first)
    rwa [Op.apply, Int.zero_add] at happly
  rw [evaluateText, Expression.text, List.append_assoc, List.foldlM_append]
  change (e.first.digits.foldlM charStep ⟨0, 0, charPlus⟩).bind _ = _
  rw [e.first.foldlM h.first]
  exact foldlM_tail e.rest hfirst h

end

/-! ### The result is appended -/

theorem constantBytes_holds {s : List UInt8} (hs : ∀ c ∈ s, c ≠ 0) : Holds (constantBytes s) s :=
  holds_getD hs

section
variable {display : Local} {text last : List UInt8}

/- calculate is called with a text and at most one '=' behind it, in the 100 bytes of the display. -/
structure Entered (display : Local) (text last : List UInt8) : Prop where
  ending : last = [] ∨ last = [charEquals]
  holds : Holds display.bytes (text ++ last)
  noEquals : charEquals ∉ text
  nonempty : text ++ last ≠ []
  size : display.size = 100
  inside : display.extent ≤ 100
  room : (text ++ last).length < 100

/-- calculate evaluates the text before the '=' at the end. -/
theorem Entered.cut (h : Entered display text last) (garbage : Nat → UInt8) :
    ∃ cut : Local, Holds cut.bytes text ∧ cut.size = 100 ∧ cut.extent ≤ 100 ∧
      calculate garbage display = match evaluateText text with
        | none => .error .divide
        | some s =>
          let d := strcat (strcat cut (constantBytes [charEquals])) (itos ⟨100, garbage, 0⟩ s.result).bytes
          if d.extent ≤ d.size then .ok d else .error .outside := by
  obtain ⟨hlast, h, hno, hne, hsize, hinside, hlen⟩ := h
  have hpos : (text ++ last).length ≠ 0 := fun h0 => hne (List.length_eq_zero_iff.mp h0)
  rw [calculate, h.strlen (by unfold memorySize; omega)]
  dsimp only
  rw [if_neg (by omega), if_neg hpos]
  rcases hlast with rfl | rfl
  · rw [List.append_nil] at *
    have hlt : text.length - 1 < text.length := by omega
    have hend : display.bytes (text.length - 1) ≠ charEquals := by
      rw [h.chars _ _ (List.getElem?_eq_getElem hlt)]
      exact fun heq => hno (heq ▸ List.getElem_mem hlt)
    rw [if_neg hend, if_neg hend, evaluate_text h]
    exact ⟨display, h, hsize, hinside, rfl⟩
  · have hend : display.bytes ((text ++ [charEquals]).length - 1) = charEquals := by
      rw [List.length_append, List.length_singleton, Nat.add_sub_cancel]
      exact h.chars _ _ List.getElem?_concat_length
    have hcut := h.cut
    rw [if_pos hend, if_pos hend, List.length_append, List.length_singleton, Nat.add_sub_cancel,
      evaluate_text hcut]
    refine ⟨_, hcut, hsize, Nat.max_le.mpr ⟨hinside, ?_⟩, rfl⟩
    rw [List.length_append] at hlen
    omega

/-- It appends '=' and what itos makes of the result, where that has room. -/
theorem Entered.appends (h : Entered display text last) (garbage : Nat → UInt8) {s : Evaluation}
    (hs : evaluateText text = some s) :
    ∃ d : Local, Holds d.bytes (text ++ charEquals :: Ansi.itos s.result) ∧ d.size = 100 ∧
      (text.length + 1 + (Ansi.itos s.result).length < 100 → d.extent ≤ 100) ∧ calculate garbage display =
        if text.length + 1 + (Ansi.itos s.result).length < 100 then .ok d else .error .outside := by
  obtain ⟨cut, hcut, hcutSize, hcutInside, hcalc⟩ := h.cut garbage
  obtain ⟨hbuf, -, -⟩ := itos_holds ⟨100, garbage, 0⟩ s.result
  have hitos := Ansi.itos_le s.result
  have hshort : text.length < 100 :=
    Nat.lt_of_le_of_lt (List.sublist_append_left text last).length_le h.room
  obtain ⟨hequals, hequalsSize, hequalsExtent⟩ := hcut.strcat
    (constantBytes_holds fun c hc => List.mem_singleton.mp hc ▸ (by decide : charEquals ≠ 0))
    (by unfold memorySize; omega) (by unfold memorySize; decide)
  obtain ⟨hall, hallSize, hallExtent⟩ := hequals.strcat hbuf
    (by rw [List.length_append, List.length_singleton]; unfold memorySize; omega)
    (by unfold memorySize; omega)
  rw [hs] at hcalc
  rw [hequalsExtent, List.length_append, List.length_singleton] at hallExtent
  refine ⟨_, by rw [List.append_cons]; exact hall, by rw [hallSize, hequalsSize, hcutSize], fun hroom => ?_,
    hcalc.trans ?_⟩
  · rw [hallExtent]
    omega
  · dsimp only
    rw [hallSize, hallExtent, hequalsSize, hcutSize]
    exact if_congr (by omega) rfl rfl

end

theorem digitChar_byte {d : Nat} (h : d < 10) :
    UInt8.ofNat (48 + d) = UInt8.ofNat (Nat.digitChar d).toNat := by
  revert d
  decide

theorem itosLoop_remainders (k n : Nat) :
    Ansi.itosLoop k n = (remainders 10 k n).map fun d => UInt8.ofNat (48 + d) := by
  induction k generalizing n with
  | zero => rfl
  | succ k ih =>
    rw [itosLoop_nat, remainders, List.map_cons, ih, apply_ite (List.map _)]
    rfl

/-- The digits that itos takes from the last on are those of the decimal notation. -/
theorem itosLoop_toDigits {n : Nat} (k : Nat) (hk : n < 10 ^ (k + 1)) :
    (Ansi.itosLoop (k + 1) n).reverse = (Nat.toDigits 10 n).map fun d => UInt8.ofNat d.toNat := by
  have hbyte : ∀ d ∈ (remainders 10 (k + 1) n).reverse,
      UInt8.ofNat (48 + d) = UInt8.ofNat (Nat.digitChar d).toNat := fun d hd =>
    digitChar_byte (remainders_lt (by decide) (k + 1) n d (List.mem_reverse.mp hd))
  rw [itosLoop_remainders, ← List.map_reverse, List.map_congr_left hbyte,
    ← remainders_toDigits (by decide) hk, List.map_map]
  rfl

theorem itos_decimal {v : Int} (h : -2147483648 < v) (h' : v < 2147483648) : Ansi.itos v = decimal v := by
  obtain ⟨-, -, htext⟩ := itos_text h h'
  rw [htext, decimal, itosLoop_toDigits 9 (by omega)]

theorem tailValue_fits {v : Int} {rest : List (Op × Number)} (h : TailFits v rest) :
    FitsInt (tailValue v rest) := by
  induction rest generalizing v with
  | nil => exact h
  | cons t rest ih => exact ih h.2.2

theorem Expression.text_noEquals (e : Expression) : charEquals ∉ e.text := by
  have hdigits : ∀ n : Number, charEquals ∉ n.digits := fun n h =>
    absurd (n.allDigits charEquals h) (by decide)
  intro h
  rcases List.mem_append.mp h with h | h
  · exact hdigits _ h
  · obtain ⟨⟨op, n⟩, -, hmem⟩ := List.mem_flatMap.mp h
    rcases List.mem_cons.mp hmem with heq | hmem
    · exact absurd heq (by cases op <;> decide : charEquals ≠ op.char)
    · exact hdigits n hmem

/-- The expression stays, and its value is appended to it, unless that is the least int. -/
theorem calculate_value_iff (garbage : Nat → UInt8) (e : Expression) (hfits : e.Fits) (display : Local)
    (last : List UInt8) (hlast : last = [] ∨ last = [charEquals]) (h : Holds display.bytes (e.text ++ last))
    (hsize : display.size = 100) (hinside : display.extent ≤ 100)
    (hroom : e.text.length + 1 + (decimal e.value).length < 100) :
    (∃ d, calculate garbage display = .ok d ∧ Holds d.bytes (e.text ++ charEquals :: decimal e.value)) ↔
      e.value ≠ -2147483648 := by
  have hvalue : FitsInt e.value := tailValue_fits hfits
  have hne : e.text ++ last ≠ [] := by
    simp only [Expression.text, ne_eq, List.append_eq_nil_iff, e.first.nonempty, false_and, not_false_iff]
  have hlen : (e.text ++ last).length < 100 := by
    rw [List.length_append]
    rcases hlast with rfl | rfl
    · rw [List.length_nil]
      omega
    · rw [List.length_singleton]
      omega
  have hentered : Entered display e.text last := ⟨hlast, h, e.text_noEquals, hne, hsize, hinside, hlen⟩
  obtain ⟨d, hholds, -, -, hcalc⟩ := hentered.appends garbage (evaluateText_value hfits)
  dsimp only at hholds hcalc
  constructor
  · rintro ⟨d', hcalc', hholds'⟩ hleast
    rw [hcalc] at hcalc'
    split at hcalc'
    · cases hcalc'
      have hsame := List.append_cancel_left (hholds.unique hholds')
      rw [hleast] at hsame
      exact absurd hsame (by decide)
    · cases hcalc'
  · intro hne
    rw [itos_decimal (by have := hvalue.1; omega) hvalue.2] at hholds hcalc
    exact ⟨d, by rw [hcalc, if_pos hroom], hholds⟩

def digit (d : Fin 10) : Number where
  digits := [UInt8.ofNat (48 + d)]
  nonempty := List.cons_ne_nil _ _
  allDigits _ hc := List.mem_singleton.mp hc ▸ (isDigit_ofNat d.isLt).1

def typed (s : List UInt8) : Local := strcpy s 0 ⟨100, fun _ => 0, 0⟩

/- 7-9*4/3 -/
def mixed : Expression := ⟨digit 7, [(.sub, digit 9), (.mul, digit 4), (.div, digit 3)]⟩

/-- (7 - 9) * 4 / 3 is -2. -/
theorem mixed_evaluated : ∃ d, calculate (fun _ => 255) (typed (mixed.text ++ [charEquals])) = .ok d ∧
    Holds d.bytes (mixed.text ++ [charEquals, charMinus, 50]) := by
  have hnoNul : ∀ c ∈ mixed.text ++ [charEquals], c ≠ 0 := noNul_of_all rfl
  exact (calculate_value_iff _ mixed (by decide) (typed (mixed.text ++ [charEquals])) _ (.inr rfl)
    (holds_strcpy hnoNul _) rfl (by decide) (by decide)).mpr (by decide)

/- 0-2147483647-1 -/
def lowest : Expression where
  first := digit 0
  rest := [(.sub, ⟨[50, 49, 52, 55, 52, 56, 51, 54, 52, 55], List.cons_ne_nil _ _,
    List.all_eq_true.mp rfl⟩), (.sub, digit 1)]

/-- The least int appears as "-(". -/
theorem lowest_lost : lowest.Fits ∧ lowest.value = -2147483648 ∧
    ∃ d, calculate (fun _ => 255) (typed lowest.text) = .ok d ∧
      Holds d.bytes (lowest.text ++ charEquals :: leastText) ∧
      ¬Holds d.bytes (lowest.text ++ charEquals :: decimal lowest.value) := by
  have hfits : lowest.Fits := by decide
  have hvalue : lowest.value = -2147483648 := by decide
  have hnoNul : ∀ c ∈ lowest.text ++ [], c ≠ 0 := noNul_of_all rfl
  have hentered : Entered (typed lowest.text) lowest.text [] :=
    ⟨.inl rfl, holds_strcpy hnoNul _, lowest.text_noEquals, by decide, rfl, by decide, by decide⟩
  obtain ⟨d, hholds, -, -, hcalc⟩ := hentered.appends (fun _ => 255) (evaluateText_value hfits)
  rw [hvalue, itos_least] at hholds hcalc
  refine ⟨hfits, hvalue, d, hcalc.trans (if_pos (by decide)), hholds, fun hother => ?_⟩
  have hsame := List.append_cancel_left (hholds.unique hother)
  rw [hvalue] at hsame
  exact absurd hsame (by decide)

end AdamOS.Calculator
