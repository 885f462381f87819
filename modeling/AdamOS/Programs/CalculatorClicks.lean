import AdamOS.Display.Pixels
import AdamOS.Programs.Calculator

/-! The main loop of calculator.c. The rectangles it tests a click against lie 15 rows above the ones that
render_calculator draws, they touch, and nothing bounds the index into the display. -/
namespace AdamOS.Calculator
open AdamOS.Ansi (isDigit charMinus)
open AdamOS.Drawing (Canvas Paints windowDrawRect drawRect_paints)
open AdamOS.Fat16 (Local stringAt)
open AdamOS.Loop AdamOS.Strings AdamOS.Transition
open AdamOS.Windows (Event headerOffset)

def charClear : UInt8 := 67

/- char buttons[4][4] -/
def buttonRows : List (List UInt8) :=
  [[55, 56, 57, 47], [52, 53, 54, 42], [49, 50, 51, 45], [67, 48, 61, 43]]

def buttons (i j : Nat) : UInt8 := (buttonRows.getD i []).getD j 0

/-! ### The buttons on the screen -/

def buttonX (j : Nat) : Nat := j * 40 + 2
def buttonY (i : Nat) : Nat := i * 30 + 40
def buttonWidth : Nat := 38
def buttonHeight : Nat := 28

/- A point of the window, the header included, lies in the rectangle that render_calculator draws
for the button. -/
def Drawn (x y : Int) (i j : Nat) : Prop :=
  (buttonX j ≤ x ∧ x < buttonX j + buttonWidth) ∧
    buttonY i ≤ y - headerOffset ∧ y - headerOffset < buttonY i + buttonHeight

instance (x y : Int) (i j : Nat) : Decidable (Drawn x y i j) := inferInstanceAs (Decidable (_ ∧ _))

/-! ### Clicks -/

/- index and c; c is not initialized. -/
structure State where
  display : Local
  index : Nat
  c : UInt8

def started (garbage : Nat → UInt8) (c : UInt8) : State := ⟨Local.store 0 0 ⟨100, garbage, 0⟩, 0, c⟩

def hits (x y : Int) (i j : Nat) : Bool :=
  let col : Int := j * 40 + 1
  let row : Int := i * 30 + 50
  col ≤ x && x ≤ col + 40 && row ≤ y && y ≤ row + 30

/- The loop for j; its break leaves the loop for i running. -/
def hit (x y : Int) (i : Nat) : Option Nat := (List.range 4).find? (hits x y i)

def press (x y : Int) (i : Nat) (s : State) : State :=
  match hit x y i with
  | none => s
  | some j =>
    { s with
      display := (s.display.store s.index (buttons i j)).store (s.index + 1) 0
      index := s.index + 1 }

/- The display is emptied by the first click after '='. -/
def emptied (s : State) : State :=
  if s.c = charEquals then { s with display := s.display.store 0 0, index := 0 } else s

def pressed (x y : Int) (s : State) : State := loop 4 (press x y) (emptied s)

variable (garbage : Nat → UInt8)

def click (x y : Int) (s : State) : Except Fault State :=
  let s := pressed x y s
  if s.index = 0 ∨ s.display.size < s.display.extent then .error .outside
  else
    let c := s.display.bytes (s.index - 1)
    if c = charClear then .ok ⟨s.display.store 0 0, 0, c⟩
    else if c = charEquals then (calculate garbage s.display).map fun display => ⟨display, s.index, c⟩
    else .ok { s with c := c }

/- Events other than clicks are dropped; a fault ends the program. -/
def step (s : State) : Event → Option State
  | .mouse true _ x y => (click garbage x y s).toOption
  | _ => some s

def shown (s : State) : List UInt8 := stringAt s.display.bytes memorySize 0

/- The text grows by the label of the drawn button with the point, or stays where there is none. -/
structure Appends (x y : Int) (old new : List UInt8) : Prop where
  button : ∀ i < 4, ∀ j < 4, Drawn x y i j → new = old ++ [buttons i j]
  none : (∀ i < 4, ∀ j < 4, ¬Drawn x y i j) → new = old

def Exact (s : State) : Event → Prop
  | .mouse true _ x y =>
    click garbage x y s ≠ .error .outside ∧ Appends x y (shown (emptied s)) (shown (pressed x y s))
  | _ => True

/- The point is in the part of a drawn button that only its own test covers. -/
def Aimed (x y : Int) (i j : Nat) : Prop := Drawn x y i j ∧ (y < i * 30 + 80 ∨ (i = 3 ∧ y ≤ 170))

def Beside (x y : Int) : Prop :=
  (∀ i < 4, ∀ j < 4, ¬Drawn x y i j) ∧ ¬((1 ≤ x ∧ x ≤ 161) ∧ 50 ≤ y ∧ y ≤ 170)

def HasRoom (text : List UInt8) (label : UInt8) : Prop :=
  text.length < 99 ∧ (label = charEquals →
    ∀ s ∈ evaluateText text, text.length + 1 + (Ansi.itos s.result).length < 100)

/- The click is aimed at a button and has room, or beside them all with a text in the display. -/
def InRange (s : State) : Event → Prop
  | .mouse true _ x y =>
    (∃ i < 4, ∃ j < 4, Aimed x y i j ∧ HasRoom (shown (emptied s)) (buttons i j)) ∨
      (Beside x y ∧ shown (emptied s) ≠ [])
  | _ => True

/-! ### What is drawn and what is tested -/

section
variable {x y : Int} {i j : Nat}

theorem Drawn.unique {i' j' : Nat} (h : Drawn x y i j) (h' : Drawn x y i' j') : i' = i ∧ j' = j := by
  unfold Drawn buttonX buttonY buttonWidth buttonHeight at h h'
  omega

theorem hits_iff : hits x y i j = true ↔
    (j * 40 + 1 ≤ x ∧ x ≤ j * 40 + 41) ∧ i * 30 + 50 ≤ y ∧ y ≤ i * 30 + 80 := by
  unfold hits
  simp only [Bool.and_eq_true, decide_eq_true_iff]
  omega

theorem hit_some (h : hit x y i = some j) : j < 4 ∧ hits x y i j = true :=
  ⟨List.mem_range.mp (List.mem_of_find?_eq_some h), List.find?_some h⟩

theorem hit_none_iff : hit x y i = none ↔ ∀ j < 4, ¬hits x y i j = true := by
  rw [hit, List.find?_eq_none]
  exact forall_congr' fun j => by rw [List.mem_range]

/-- In the columns of a drawn button, the rows that are tested decide. -/
theorem hit_drawn (hj : j < 4) (h : Drawn x y i j) (i' : Nat) :
    hit x y i' = if i' * 30 + 50 ≤ y ∧ y ≤ i' * 30 + 80 then some j else none := by
  have hcols := h.1
  unfold buttonX buttonWidth at hcols
  cases hhit : hit x y i' with
  | none =>
    have hno := hit_none_iff.mp hhit j hj
    rw [hits_iff] at hno
    exact (if_neg (by omega)).symm
  | some j' =>
    obtain ⟨-, hyes⟩ := hit_some hhit
    rw [hits_iff] at hyes
    rw [if_pos (by omega), show j' = j by omega]

def hitLabels (x y : Int) : List UInt8 :=
  (List.range 4).flatMap fun i => ((hit x y i).map (buttons i)).toList

theorem Aimed.labels (hi : i < 4) (hj : j < 4) (h : Aimed x y i j) : hitLabels x y = [buttons i j] := by
  obtain ⟨hdrawn, hrow⟩ := h
  have hrows := hdrawn.2
  unfold buttonY buttonHeight headerOffset at hrows
  have hhit : ∀ i' < 4, hit x y i' = if i' = i then some j else none := fun i' hi' => by
    rw [hit_drawn hj hdrawn]
    exact if_congr (by omega) rfl rfl
  change _ ++ (_ ++ (_ ++ (_ ++ []))) = _
  dsimp only
  rw [hhit 0 (by decide), hhit 1 (by decide), hhit 2 (by decide), hhit 3 (by decide)]
  match i, hi with
  | 0, _ => rfl
  | 1, _ => rfl
  | 2, _ => rfl
  | 3, _ => rfl

theorem mem_hitLabels {c : UInt8} : c ∈ hitLabels x y ↔ ∃ i < 4, ∃ j, hit x y i = some j ∧ buttons i j = c := by
  simp only [hitLabels, List.mem_flatMap, List.mem_range, Option.mem_toList, Option.map_eq_some_iff]

theorem buttons_below : ∀ i < 3, ∀ j < 4, buttons (i + 1) j ≠ buttons i j := by decide

/-- A click that appends the label of the button around it, and nothing else, is aimed at it. -/
theorem Drawn.aimed (hi : i < 4) (hj : j < 4) (h : Drawn x y i j) (hlabels : hitLabels x y = [buttons i j]) :
    Aimed x y i j := by
  refine ⟨h, ?_⟩
  by_contra hrow
  have hrows := h.2
  unfold buttonY buttonHeight headerOffset at hrows
  by_cases hlast : i = 3
  · have hmem : buttons i j ∈ hitLabels x y := hlabels ▸ List.mem_singleton_self _
    obtain ⟨i', hi', j', hhit, -⟩ := mem_hitLabels.mp hmem
    obtain ⟨-, hyes⟩ := hit_some hhit
    rw [hits_iff] at hyes
    omega
  · have hbelow : buttons (i + 1) j ∈ hitLabels x y :=
      mem_hitLabels.mpr ⟨i + 1, by omega, j, by rw [hit_drawn hj h, if_pos (by omega)], rfl⟩
    rw [hlabels] at hbelow
    exact buttons_below i (by omega) j hj (List.mem_singleton.mp hbelow)

theorem hitLabels_nil_iff : hitLabels x y = [] ↔ ¬((1 ≤ x ∧ x ≤ 161) ∧ 50 ≤ y ∧ y ≤ 170) := by
  constructor
  · intro h hin
    -- one of the sixteen rectangles, which cover the area, has the point
    obtain ⟨i, hi, hrow⟩ : ∃ i : Nat, i < 4 ∧ (i * 30 + 50 ≤ y ∧ y ≤ i * 30 + 80) :=
      ⟨min 3 ((y - 50) / 30).toNat, by omega, by omega, by omega⟩
    obtain ⟨j, hj, hcol⟩ : ∃ j : Nat, j < 4 ∧ (j * 40 + 1 ≤ x ∧ x ≤ j * 40 + 41) :=
      ⟨min 3 ((x - 1) / 40).toNat, by omega, by omega, by omega⟩
    cases hhit : hit x y i with
    | none => exact hit_none_iff.mp hhit j hj (hits_iff.mpr ⟨hcol, hrow⟩)
    | some j' =>
      have hmem : buttons i j' ∈ hitLabels x y := mem_hitLabels.mpr ⟨i, hi, j', hhit, rfl⟩
      rw [h] at hmem
      exact List.not_mem_nil hmem
  · intro hout
    refine List.eq_nil_iff_forall_not_mem.mpr fun c hc => ?_
    obtain ⟨i, hi, j, hhit, -⟩ := mem_hitLabels.mp hc
    obtain ⟨hj, hyes⟩ := hit_some hhit
    rw [hits_iff] at hyes
    omega

end

/-! ### What stands in the display -/

/- The text that the loops append to; the array has room for it and the NUL, or was overrun. -/
structure Typed (s : State) (t : List UInt8) : Prop where
  size : s.display.size = 100
  holds : Holds s.display.bytes t
  index : s.index = t.length
  inside : s.display.extent ≤ 100 ↔ t.length < 100

structure Ready (s : State) (t : List UInt8) : Prop extends Typed s t where
  room : t.length < 100
  noEquals : charEquals ∉ t
  noClear : charClear ∉ t

def Waits (s : State) : Prop := ∃ t, Ready (emptied s) t

section
variable {garbage} {x y : Int} {i j : Nat} {s : State} {t u : List UInt8} {b : UInt8}

theorem ready_nil {display : Local} (hsize : display.size = 100) (hinside : display.extent ≤ 100) (c : UInt8) :
    Ready ⟨display.store 0 0, 0, c⟩ [] where
  size := hsize
  holds := Holds.nil rfl
  index := rfl
  inside := ⟨fun _ => by decide, fun _ => Nat.max_le.mpr ⟨hinside, by decide⟩⟩
  room := by decide
  noEquals := List.not_mem_nil
  noClear := List.not_mem_nil

/-- '=' leaves any text in the display; the next click empties it. -/
theorem waits_equals {display : Local} (hsize : display.size = 100) (hinside : display.extent ≤ 100)
    (index : Nat) : Waits ⟨display, index, charEquals⟩ :=
  ⟨[], by rw [emptied, if_pos rfl]; exact ready_nil hsize hinside charEquals⟩

theorem Ready.waits (h : Ready s t) (hc : s.c ≠ charEquals) : Waits s :=
  ⟨t, by rw [emptied, if_neg hc]; exact h⟩

/-- A last character other than '=' leaves the text for the next click. -/
theorem Ready.reads (h : Ready s t) (hb : b ≠ charEquals) : Waits { s with c := b } :=
  Ready.waits ⟨⟨h.size, h.holds, h.index, h.inside⟩, h.room, h.noEquals, h.noClear⟩ hb

theorem Ready.grown {s' : State} (h : Ready s t) (h' : Typed s' (t ++ [b])) (hlen : (t ++ [b]).length < 100)
    (hclear : b ≠ charClear) (hequals : b ≠ charEquals) : Ready s' (t ++ [b]) := by
  have hother : ∀ c, c ≠ b → c ∉ t → c ∉ t ++ [b] := fun c hne hc hmem =>
    (List.mem_append.mp hmem).elim hc fun hmem => hne (List.mem_singleton.mp hmem)
  exact ⟨h', hlen, hother _ (Ne.symm hequals) h.noEquals, hother _ (Ne.symm hclear) h.noClear⟩

theorem started_waits (garbage : Nat → UInt8) (c : UInt8) : Waits (started garbage c) := by
  have hstart : Ready (started garbage c) [] := ready_nil rfl (Nat.zero_le _) c
  by_cases hc : c = charEquals
  · rw [hc]
    exact waits_equals rfl (hstart.inside.mpr (by decide)) _
  · exact hstart.waits hc

theorem Typed.shown (h : Typed s t) (hlen : t.length < 100) : shown s = t :=
  h.holds.stringAt (by unfold memorySize; omega)

theorem buttons_ne : ∀ i < 4, ∀ j < 4, buttons i j ≠ 0 := by decide

theorem Typed.press (h : Typed s t) (hi : i < 4) :
    Typed (press x y i s) (t ++ ((hit x y i).map (buttons i)).toList) := by
  unfold Calculator.press
  cases hhit : hit x y i with
  | none =>
    rw [Option.map_none, Option.toList_none, List.append_nil]
    exact h
  | some j =>
    have hlabel : ∀ c ∈ [buttons i j], c ≠ 0 := fun c hc =>
      List.mem_singleton.mp hc ▸ buttons_ne i hi j (hit_some hhit).1
    have hinside := h.inside
    rw [Option.map_some, Option.toList_some]
    refine ⟨h.size, ?_, ?_, ?_⟩
    · dsimp only
      rw [h.index]
      exact h.holds.strcpy hlabel
    · rw [List.length_append, List.length_singleton, ← h.index]
    · change max (max _ (s.index + 1)) (s.index + 1 + 1) ≤ 100 ↔ _
      rw [List.length_append, List.length_singleton, h.index]
      omega

/-- The click appends the labels of all rectangles that the tests find. -/
theorem Typed.pressed (h : Typed (emptied s) t) (x y : Int) : Typed (pressed x y s) (t ++ hitLabels x y) := by
  have hall := (((h.press (x := x) (y := y) (by decide : 0 < 4)).press (x := x) (y := y)
    (by decide : 1 < 4)).press (x := x) (y := y) (by decide : 2 < 4)).press (x := x) (y := y)
    (by decide : 3 < 4)
  simp only [List.append_assoc] at hall
  rw [hitLabels]
  change Typed _ (t ++ (_ ++ (_ ++ (_ ++ (_ ++ [])))))
  rw [List.append_nil]
  exact hall

/-- Without a text, and with more than the display holds, the click reads or has written outside. -/
theorem click_outside (h : Typed (pressed x y s) u) (hout : u = [] ∨ ¬u.length < 100) :
    click garbage x y s = .error .outside := by
  refine if_pos ?_
  rcases hout with rfl | hout
  · exact .inl h.index
  · have hsize := h.size
    have hinside := h.inside
    exact .inr (by omega)

theorem click_last (h : Typed (pressed x y s) (u ++ [b])) (hlen : (u ++ [b]).length < 100) :
    click garbage x y s =
      if b = charClear then .ok ⟨(pressed x y s).display.store 0 0, 0, b⟩
      else if b = charEquals then
        (calculate garbage (pressed x y s).display).map fun d => ⟨d, (pressed x y s).index, b⟩
      else .ok { pressed x y s with c := b } := by
  have hindex := h.index
  have hsize := h.size
  have hinside := h.inside
  rw [List.length_append, List.length_singleton] at hindex hinside hlen
  have hlast : (pressed x y s).display.bytes ((pressed x y s).index - 1) = b := by
    rw [hindex, Nat.add_sub_cancel]
    exact h.holds.chars _ _ List.getElem?_concat_length
  rw [click]
  dsimp only
  rw [if_neg (by omega), hlast]

theorem ok_ne (s' : State) : (.ok s' : Except Fault State) ≠ .error .outside := fun h => by cases h

/-- A click aimed at a button stays inside the display, and the next one finds it ready. -/
theorem Ready.aimed (h : Ready (emptied s) t) (hi : i < 4) (hj : j < 4) (haimed : Aimed x y i j)
    (hroom : HasRoom t (buttons i j)) : click garbage x y s ≠ .error .outside ∧
      ∀ s', click garbage x y s = .ok s' → Waits s' := by
  have htyped : Typed (Calculator.pressed x y s) (t ++ [buttons i j]) := haimed.labels hi hj ▸ h.pressed x y
  have hlen : (t ++ [buttons i j]).length < 100 := by
    rw [List.length_append, List.length_singleton]
    exact Nat.succ_lt_succ hroom.1
  have hinside := htyped.inside.mpr hlen
  rw [click_last htyped hlen]
  by_cases hclear : buttons i j = charClear
  · rw [if_pos hclear]
    refine ⟨ok_ne _, fun s' hs' => ?_⟩
    cases hs'
    exact (ready_nil htyped.size hinside _).waits fun heq => absurd (hclear.symm.trans heq) (by decide)
  rw [if_neg hclear]
  by_cases hequals : buttons i j = charEquals
  · rw [if_pos hequals]
    rw [hequals] at htyped hlen ⊢
    have hentered : Entered (Calculator.pressed x y s).display t [charEquals] :=
      ⟨.inr rfl, htyped.holds, h.noEquals, by simp, htyped.size, hinside, hlen⟩
    cases hvalue : evaluateText t with
    | none =>
      obtain ⟨cut, -, -, -, hcalc⟩ := hentered.cut garbage
      rw [hcalc, hvalue]
      exact ⟨(fun hno => by cases hno), fun s' hs' => by cases hs'⟩
    | some v =>
      obtain ⟨d, -, hsize, hfits, hcalc⟩ := hentered.appends garbage hvalue
      have hresult := hroom.2 hequals v hvalue
      rw [hcalc, if_pos hresult]
      refine ⟨ok_ne _, fun s' hs' => ?_⟩
      cases hs'
      exact waits_equals hsize (hfits hresult) _
  · rw [if_neg hequals]
    refine ⟨ok_ne _, fun s' hs' => ?_⟩
    cases hs'
    exact (h.grown htyped hlen hclear hequals).reads hequals

/-- A click beside the buttons reads the last character again. -/
theorem Ready.beside (h : Ready (emptied s) t) (hbeside : Beside x y) (hne : t ≠ []) :
    click garbage x y s ≠ .error .outside ∧ ∀ s', click garbage x y s = .ok s' → Waits s' := by
  have htyped := h.pressed x y
  rw [hitLabels_nil_iff.mpr hbeside.2, List.append_nil] at htyped
  obtain ⟨u, b, rfl⟩ := (List.eq_nil_or_concat t).resolve_left hne
  rw [List.concat_eq_append] at htyped h
  have hlast : b ∈ u ++ [b] := List.mem_append_right u (List.mem_singleton_self b)
  have hclear : b ≠ charClear := fun heq => h.noClear (heq ▸ hlast)
  have hequals : b ≠ charEquals := fun heq => h.noEquals (heq ▸ hlast)
  rw [click_last htyped h.room, if_neg hclear, if_neg hequals]
  refine ⟨ok_ne _, fun s' hs' => ?_⟩
  cases hs'
  have hready : Ready (Calculator.pressed x y s) (u ++ [b]) := ⟨htyped, h.room, h.noEquals, h.noClear⟩
  exact hready.reads hequals

end

/-! ### Runs -/

section
variable {garbage} {s : State}

/-- A click in range is exact, and the next click can wait for it. -/
theorem Waits.inRange (h : Waits s) {e : Event} (hin : InRange s e) :
    Exact garbage s e ∧ ∀ s', step garbage s e = some s' → Waits s' := by
  obtain ⟨t, ht⟩ := h
  match e with
  | .keypress .. => exact ⟨trivial, fun s' hs' => by cases hs'; exact ⟨t, ht⟩⟩
  | .mouse false .. => exact ⟨trivial, fun s' hs' => by cases hs'; exact ⟨t, ht⟩⟩
  | .mouse true _ x y =>
    have hold : shown (emptied s) = t := ht.toTyped.shown ht.room
    have hnew := ht.toTyped.pressed x y
    change (∃ i < 4, ∃ j < 4, _ ∧ HasRoom (shown (emptied s)) _) ∨ (_ ∧ shown (emptied s) ≠ []) at hin
    change (_ ∧ Appends x y (shown (emptied s)) _) ∧ ∀ s', (click garbage x y s).toOption = some s' → _
    rw [hold] at hin ⊢
    have hstays : ∀ {s'}, (∀ s', click garbage x y s = .ok s' → Waits s') →
        (click garbage x y s).toOption = some s' → Waits s' := fun {s'} hall hs' => by
      cases hclick : click garbage x y s with
      | error f => rw [hclick] at hs'; cases hs'
      | ok u => rw [hclick] at hs'; cases hs'; exact hall _ hclick
    rcases hin with ⟨i, hi, j, hj, haimed, hroom⟩ | ⟨hbeside, hne⟩
    · obtain ⟨hinside, hwaits⟩ := ht.aimed hi hj haimed hroom
      rw [haimed.labels hi hj] at hnew
      rw [hnew.shown (by rw [List.length_append, List.length_singleton]; exact Nat.succ_lt_succ hroom.1)]
      refine ⟨⟨hinside, fun i' _ j' _ hd => ?_, fun hno => absurd haimed.1 (hno i hi j hj)⟩,
        fun s' => hstays hwaits⟩
      obtain ⟨rfl, rfl⟩ := haimed.1.unique hd
      rfl
    · obtain ⟨hinside, hwaits⟩ := ht.beside hbeside hne
      rw [hitLabels_nil_iff.mpr hbeside.2, List.append_nil] at hnew
      rw [hnew.shown ht.room]
      exact ⟨⟨hinside, fun i hi j hj hd => absurd hd (hbeside.1 i hi j hj), fun _ => rfl⟩,
        fun s' => hstays hwaits⟩

theorem Waits.exact (h : Waits s) {e : Event} (he : Exact garbage s e) : InRange s e := by
  obtain ⟨t, ht⟩ := h
  match e with
  | .keypress .. => trivial
  | .mouse false .. => trivial
  | .mouse true _ x y =>
    obtain ⟨hinside, happends⟩ := he
    have hnew := ht.toTyped.pressed x y
    have hlen : (t ++ hitLabels x y).length < 100 := by
      by_contra hlong
      exact hinside (click_outside hnew (.inr hlong))
    have hne : t ++ hitLabels x y ≠ [] := fun hnil => hinside (click_outside hnew (.inl hnil))
    rw [ht.toTyped.shown ht.room, hnew.shown hlen] at happends
    change (∃ i < 4, ∃ j < 4, _ ∧ HasRoom (shown (emptied s)) _) ∨ (_ ∧ shown (emptied s) ≠ [])
    rw [ht.toTyped.shown ht.room]
    by_cases hdrawn : ∃ i < 4, ∃ j < 4, Drawn x y i j
    · obtain ⟨i, hi, j, hj, hd⟩ := hdrawn
      have hlabels : hitLabels x y = [buttons i j] :=
        List.append_cancel_left (happends.button i hi j hj hd)
      rw [hlabels] at hnew hlen
      refine .inl ⟨i, hi, j, hj, hd.aimed hi hj hlabels, ?_, fun hequals v hv => ?_⟩
      · rw [List.length_append, List.length_singleton] at hlen
        omega
      · by_contra hlong
        rw [hequals] at hnew hlen
        have hentered : Entered (pressed x y s).display t [charEquals] :=
          ⟨.inr rfl, hnew.holds, ht.noEquals, by simp, hnew.size, hnew.inside.mpr hlen, hlen⟩
        obtain ⟨d, -, -, -, hcalc⟩ := hentered.appends garbage hv
        rw [click_last hnew hlen, if_neg (by decide), if_pos rfl, hcalc, if_neg hlong] at hinside
        exact hinside rfl
    · have hno : ∀ i < 4, ∀ j < 4, ¬Drawn x y i j := fun i hi j hj hd => hdrawn ⟨i, hi, j, hj, hd⟩
      have hlabels : hitLabels x y = [] := List.append_right_eq_self.mp (happends.none hno)
      refine .inr ⟨⟨hno, hitLabels_nil_iff.mp hlabels⟩, ?_⟩
      rwa [hlabels, List.append_nil] at hne

end

/-- Every click of a run does what is drawn, within the display, if and only if all are in range. -/
theorem clicks_exact_iff (bytes : Nat → UInt8) (c : UInt8) (es : List Event) :
    Guarded (step garbage) (Exact garbage) es (started bytes c) ↔
      Guarded (step garbage) InRange es (started bytes c) :=
  guarded_iff Waits (fun _ _ hs => ⟨fun he => hs.exact he, fun hin => (hs.inRange hin).1⟩)
    (fun _ _ _ hs hin he => (hs.inRange hin).2 _ he) es (started_waits bytes c)

/-- A first click on the lower edge of the button 7 types 7 and 4, and one beside the buttons reads
display[-1]. -/
theorem lowerEdge_types_twice :
    Drawn 10 80 0 0 ∧ shown (pressed 10 80 (started (fun _ => 255) 0)) = [55, 52] ∧
      ¬Guarded (step fun _ => 0) (Exact fun _ => 0) [.mouse true 1 10 80] (started (fun _ => 255) 0) ∧
      click (fun _ => 0) 0 0 (started (fun _ => 255) 0) = .error .outside := by
  have hstart : Typed (emptied (started (fun _ => 255) 0)) [] := (ready_nil rfl (Nat.zero_le _) 0).toTyped
  have htwo : shown (pressed 10 80 (started (fun _ => 255) 0)) = [55, 52] :=
    (hstart.pressed 10 80).shown (by decide)
  refine ⟨by decide, htwo, fun hrun => ?_, click_outside (hstart.pressed 0 0) (.inl (by decide))⟩
  have hnew := hrun.1.2.button 0 (by decide) 0 (by decide) (by decide)
  rw [htwo, hstart.shown (by decide)] at hnew
  exact absurd hnew (by decide)

end AdamOS.Calculator
