import AdamOS.Lib.Loop
import Mathlib.Data.List.TakeDrop

/-! terminal.c: the cells of the text terminal, its cursor and the floor that backspace stops at,
against a screen of rows that scrolls. -/
namespace AdamOS.TextTerminal
open AdamOS.Loop

def terminalCols : Nat := 50
def terminalRows : Nat := 33
def terminalSize : Nat := terminalCols * terminalRows
def tabSize : Nat := 4
def white : UInt8 := 0x0F

def charNewline : UInt8 := 10
def charTab : UInt8 := 9
def charBackspace : UInt8 := 8
def charSpace : UInt8 := 32

/- (color << TERMINAL_COLOR_SHIFT) | c; a char is signed, so one from 128 on sets the upper byte. -/
def cellOf (color c : UInt8) : Nat := if c < 128 then color.toNat * 256 + c.toNat else 0xFF00 + c.toNat

/- terminal_t; cells are counted from terminal->buffer, also those beyond it. -/
structure Terminal where
  buffer : Nat → Nat
  cursorRow : Nat
  cursorColumn : Nat
  cursorFloor : Nat
  /- one more than the largest index of a cell that was read or written -/
  extent : Nat

/- init_terminal: nothing clears the cells that kmalloc returns. -/
def initTerminal (buffer : Nat → Nat) : Terminal := ⟨buffer, 0, 0, 0, 0⟩

def Terminal.touch (i : Nat) (t : Terminal) : Terminal := { t with extent := max t.extent (i + 1) }

def Terminal.store (i x : Nat) (t : Terminal) : Terminal :=
  { t.touch i with buffer := fun j => if j = i then x else t.buffer j }

/- Each cell is read; what window_draw_char does with it is left out. -/
def renderTerminal (t : Terminal) : Terminal :=
  loop terminalRows (fun i t => loop terminalCols (fun j t => t.touch (i * terminalCols + j)) t) t

def scrollCell (i : Nat) (t : Terminal) : Terminal :=
  if i > terminalSize - terminalCols then t.store i (cellOf white charSpace)
  else (t.touch (i + terminalCols)).store i (t.buffer (i + terminalCols))

def scroll (t : Terminal) : Terminal := loop terminalSize scrollCell t

def Terminal.index (t : Terminal) : Nat := terminalCols * t.cursorRow + t.cursorColumn

def tabSpaces (i : Nat) : Nat := tabSize - i % tabSize

def putAt (x : Nat) (r : Nat × Terminal) : Nat × Terminal := (r.1 + 1, r.2.store r.1 x)

def printAt (c color : UInt8) (i : Nat) (t : Terminal) : Nat × Terminal :=
  if c = charNewline then ((i / terminalCols + 1) * terminalCols, t)
  else if c = charBackspace then
    if 0 < i ∧ t.cursorFloor < i then (i - 1, t.store (i - 1) (cellOf color charSpace)) else (i, t)
  else if c = charTab then
    loop (tabSpaces i) (fun _ => putAt (cellOf color charSpace)) (i, t)
  else putAt (cellOf color c) (i, t)

def setCursor (r : Nat × Terminal) : Terminal :=
  { r.2 with cursorRow := r.1 / terminalCols, cursorColumn := r.1 % terminalCols }

def terminalPrintCharColor (c color : UInt8) (t : Terminal) : Terminal :=
  renderTerminal <| setCursor <|
    if t.index ≥ terminalSize then printAt c color (terminalSize - terminalCols) (scroll t)
    else printAt c color t.index t

def clearTerminal (t : Terminal) : Terminal :=
  { buffer := fun i => if i < terminalSize then 0 else t.buffer i
    cursorRow := 0
    cursorColumn := 0
    cursorFloor := 0
    extent := max t.extent terminalSize }

/- What changes the terminal; `written` is the end of a write to FD_STDOUT. -/
inductive TerminalCall where
  | print (c color : UInt8)
  | clear
  | written
deriving DecidableEq, Repr

def terminalStep (t : Terminal) : TerminalCall → Terminal
  | .print c color => terminalPrintCharColor c color t
  | .clear => clearTerminal t
  | .written => { t with cursorFloor := t.index }

/-! ### A screen that scrolls -/

structure Screen where
  cell : Nat → Nat → Nat
  row : Nat
  column : Nat
  floor : Nat

def Screen.index (s : Screen) : Nat := terminalCols * s.row + s.column

/- Every row moves up, the last one is blank, and the floor moves with its row. -/
def Screen.scrolled (s : Screen) : Screen where
  cell := fun r c => if r + 1 < terminalRows then s.cell (r + 1) c else cellOf white charSpace
  row := terminalRows - 1
  column := 0
  floor := s.floor - terminalCols

def Screen.settled (s : Screen) : Screen := if terminalRows ≤ s.row then s.scrolled else s

def Screen.write (x : Nat) (s : Screen) : Screen :=
  { s with cell := fun r c => if r = s.row ∧ c = s.column then x else s.cell r c }

def Screen.advance (s : Screen) : Screen :=
  if s.column + 1 < terminalCols then { s with column := s.column + 1 }
  else { s with row := s.row + 1, column := 0 }

def Screen.retreat (s : Screen) : Screen :=
  if s.column = 0 then { s with row := s.row - 1, column := terminalCols - 1 }
  else { s with column := s.column - 1 }

def Screen.put (x : Nat) (s : Screen) : Screen := (s.settled.write x).advance

def Screen.print (c color : UInt8) (s : Screen) : Screen :=
  let s := s.settled
  if c = charNewline then { s with row := s.row + 1, column := 0 }
  else if c = charBackspace then
    if s.floor < s.index then s.retreat.write (cellOf color charSpace) else s
  else if c = charTab then
    loop (tabSpaces s.index) (fun _ => Screen.put (cellOf color charSpace)) s
  else s.put (cellOf color c)

def screenStep (s : Screen) : TerminalCall → Screen
  | .print c color => s.print c color
  | .clear => ⟨fun _ _ => 0, 0, 0, 0⟩
  | .written => { s with floor := s.index }

def initScreen (buffer : Nat → Nat) : Screen := ⟨fun r c => buffer (terminalCols * r + c), 0, 0, 0⟩

/-! ### Runs -/

structure Shows (t : Terminal) (s : Screen) : Prop where
  cell {r c : Nat} : r < terminalRows → c < terminalCols → t.buffer (terminalCols * r + c) = s.cell r c
  row : t.cursorRow = s.row
  column : t.cursorColumn = s.column
  floor : t.cursorFloor = s.floor

def InCells (t : Terminal) : Prop := t.extent ≤ terminalSize

def runTerminal (calls : List TerminalCall) (t : Terminal) : Terminal := calls.foldl terminalStep t

def runScreen (calls : List TerminalCall) (s : Screen) : Screen := calls.foldl screenStep s

/- A character is printed before the end of the screen, and a tab ends on it. -/
def PrintFits (t : Terminal) : TerminalCall → Prop
  | .print c _ => t.index < terminalSize ∧ (c = charTab → t.index + tabSpaces t.index ≤ terminalSize)
  | .clear => True
  | .written => True

instance (t : Terminal) : (call : TerminalCall) → Decidable (PrintFits t call)
  | .print .. => inferInstanceAs (Decidable (_ ∧ _))
  | .clear => .isTrue trivial
  | .written => .isTrue trivial

def AllFit : List TerminalCall → Terminal → Prop
  | [], _ => True
  | call :: calls, t => PrintFits t call ∧ AllFit calls (terminalStep t call)

/-! ### Single cells -/

section Cells
variable {t : Terminal} {s : Screen} {i x : Nat}

/- The terminal shows the screen while a character is printed; i is the local cursor_index. -/
structure ShowsAt (i : Nat) (t : Terminal) (s : Screen) : Prop where
  cell {r c : Nat} : r < terminalRows → c < terminalCols → t.buffer (terminalCols * r + c) = s.cell r c
  index : i = s.index
  column : s.column < terminalCols
  floor : t.cursorFloor = s.floor
  inCells : InCells t

theorem ShowsAt.row_lt (h : ShowsAt i t s) (hi : i < terminalSize) : s.row < terminalRows := by
  have hidx := h.index
  unfold Screen.index terminalCols at hidx
  unfold terminalSize terminalRows terminalCols at hi
  unfold terminalRows
  omega

theorem ShowsAt.settled (h : ShowsAt i t s) (hi : i < terminalSize) : s.settled = s :=
  if_neg (Nat.not_le.mpr (h.row_lt hi))

theorem store_inCells (h : InCells t) (hi : i < terminalSize) (x : Nat) : InCells (t.store i x) :=
  Nat.max_le.mpr ⟨h, hi⟩

theorem store_cell (hcell : ∀ {r c : Nat}, r < terminalRows → c < terminalCols →
      t.buffer (terminalCols * r + c) = s.cell r c) (hcol : s.column < terminalCols) {r c : Nat}
    (hr : r < terminalRows) (hc : c < terminalCols) (x : Nat) :
    (t.store s.index x).buffer (terminalCols * r + c) = (s.write x).cell r c := by
  have hsame : terminalCols * r + c = s.index ↔ r = s.row ∧ c = s.column := by
    unfold Screen.index terminalCols at *
    omega
  change (if terminalCols * r + c = s.index then x else t.buffer (terminalCols * r + c)) =
    if r = s.row ∧ c = s.column then x else s.cell r c
  rw [hcell hr hc]
  exact if_congr hsame rfl rfl

theorem advance_cell (s : Screen) : s.advance.cell = s.cell ∧ s.advance.floor = s.floor := by
  unfold Screen.advance
  split <;> exact ⟨rfl, rfl⟩

theorem advance_index (h : s.column < terminalCols) :
    s.advance.index = s.index + 1 ∧ s.advance.column < terminalCols := by
  unfold Screen.advance Screen.index terminalCols at *
  split
  · exact ⟨by dsimp only; omega, by assumption⟩
  · exact ⟨by dsimp only; omega, Nat.zero_lt_succ _⟩

theorem ShowsAt.put (h : ShowsAt i t s) (hi : i < terminalSize) (x : Nat) :
    ShowsAt (i + 1) (t.store i x) (s.put x) := by
  have hidx := h.index
  have hadv := @advance_index (s.write x) h.column
  rw [Screen.put, h.settled hi]
  refine ⟨fun hr hc => ?_, ?_, hadv.2, ?_, store_inCells h.inCells hi x⟩
  · rw [(advance_cell _).1, hidx]
    exact store_cell h.cell h.column hr hc x
  · rw [hadv.1, hidx]
    rfl
  · rw [(advance_cell _).2]
    exact h.floor

theorem retreat_index (h : s.column < terminalCols) (hpos : 0 < s.index) :
    s.retreat.index = s.index - 1 ∧ s.retreat.column < terminalCols := by
  unfold Screen.retreat Screen.index terminalCols at *
  split
  · exact ⟨by dsimp only; omega, Nat.lt_succ_self _⟩
  · exact ⟨by dsimp only; omega, by dsimp only; omega⟩

theorem retreat_cell (s : Screen) : s.retreat.cell = s.cell ∧ s.retreat.floor = s.floor := by
  unfold Screen.retreat
  split <;> exact ⟨rfl, rfl⟩

theorem ShowsAt.back (h : ShowsAt i t s) (hpos : 0 < i) (hi : i ≤ terminalSize) (x : Nat) :
    ShowsAt (i - 1) (t.store (i - 1) x) (s.retreat.write x) := by
  have hidx := h.index
  obtain ⟨hret, hcol⟩ := retreat_index h.column (hidx ▸ hpos)
  obtain ⟨hcell, hfloor⟩ := retreat_cell s
  rw [← hidx] at hret
  refine ⟨fun hr hc => ?_, hret.symm, hcol, h.floor.trans hfloor.symm,
    store_inCells h.inCells (by omega) x⟩
  rw [← hret]
  exact store_cell (fun hr hc => by rw [hcell, h.cell hr hc]) hcol hr hc x

theorem ShowsAt.printAt (h : ShowsAt i t s) (c color : UInt8) (hi : i < terminalSize)
    (htab : c = charTab → i + tabSpaces i ≤ terminalSize) :
    ShowsAt (TextTerminal.printAt c color i t).1 (TextTerminal.printAt c color i t).2 (s.print c color) := by
  have hidx := h.index
  unfold TextTerminal.printAt Screen.print
  dsimp only
  rw [h.settled hi]
  by_cases hnl : c = charNewline
  · rw [if_pos hnl, if_pos hnl]
    refine ⟨h.cell, ?_, Nat.zero_lt_succ _, h.floor, h.inCells⟩
    have hcol := h.column
    unfold Screen.index terminalCols at *
    dsimp only
    omega
  rw [if_neg hnl, if_neg hnl]
  by_cases hbs : c = charBackspace
  · rw [if_pos hbs, if_pos hbs, h.floor, hidx]
    by_cases hback : s.floor < s.index
    · have hpos : 0 < s.index := Nat.zero_lt_of_lt hback
      rw [if_pos ⟨hpos, hback⟩, if_pos hback]
      exact (hidx ▸ h).back hpos (by omega) _
    · rw [if_neg fun hand => hback hand.2, if_neg hback]
      exact hidx ▸ h
  rw [if_neg hbs, if_neg hbs]
  by_cases ht : c = charTab
  · rw [if_pos ht, if_pos ht, ← hidx]
    have hend := htab ht
    let rel (k : Nat) (r : Nat × Terminal) (s : Screen) : Prop := r.1 = i + k ∧ ShowsAt r.1 r.2 s
    refine (loop_relates rel ⟨rfl, h⟩ fun k hk r s' hr => ?_).2
    obtain ⟨hat, hr⟩ := hr
    have hlt : r.1 < terminalSize := by omega
    exact ⟨by rw [putAt, hat, Nat.add_assoc], hr.put hlt _⟩
  · rw [if_neg ht, if_neg ht]
    exact h.put hi _

/-! ### A whole print -/

theorem touch_inCells (h : InCells t) (hi : i < terminalSize) : InCells (t.touch i) :=
  Nat.max_le.mpr ⟨h, hi⟩

/-- Rendering changes nothing and reads no cell beyond the buffer. -/
theorem renderTerminal_keeps (t : Terminal) :
    renderTerminal t = { t with extent := (renderTerminal t).extent } ∧
      t.extent ≤ (renderTerminal t).extent ∧ (InCells t → InCells (renderTerminal t)) := by
  let inv (b : Terminal) : Prop :=
    b = { t with extent := b.extent } ∧ t.extent ≤ b.extent ∧ (InCells t → InCells b)
  refine loop_keeps inv ⟨rfl, Nat.le_refl _, id⟩ fun i hi b hb => loop_keeps inv hb fun j hj b hb => ?_
  obtain ⟨heq, hle, hin⟩ := hb
  have hcell : i * terminalCols + j < terminalSize := by
    unfold terminalSize terminalCols terminalRows at *
    omega
  refine ⟨?_, Nat.le_trans hle (Nat.le_max_left _ _), fun h => touch_inCells (hin h) hcell⟩
  rw [heq]
  rfl

theorem setCursor_shows {r : Nat × Terminal} (h : ShowsAt r.1 r.2 s) : Shows (setCursor r) s := by
  have hidx := h.index
  have hcol := h.column
  unfold Screen.index terminalCols at *
  refine ⟨h.cell, ?_, ?_, h.floor⟩
  · change r.1 / 50 = s.row
    omega
  · change r.1 % 50 = s.column
    omega

theorem Shows.render (h : Shows t s) : Shows (renderTerminal t) s := by
  rw [(renderTerminal_keeps t).1]
  exact ⟨h.cell, h.row, h.column, h.floor⟩

structure Stands (t : Terminal) (s : Screen) : Prop where
  shows : Shows t s
  inCells : InCells t
  column : s.column < terminalCols

theorem Stands.at (h : Stands t s) : ShowsAt t.index t s := by
  refine ⟨h.shows.cell, ?_, h.column, h.shows.floor, h.inCells⟩
  rw [Terminal.index, Screen.index, h.shows.row, h.shows.column]

theorem initTerminal_stands (buffer : Nat → Nat) : Stands (initTerminal buffer) (initScreen buffer) :=
  ⟨⟨fun _ _ => rfl, rfl, rfl, rfl⟩, Nat.zero_le _, Nat.zero_lt_succ _⟩

/-- A call that fits keeps the terminal and the screen the same. -/
theorem Stands.step (h : Stands t s) {call : TerminalCall} (hfit : PrintFits t call) :
    Stands (terminalStep t call) (screenStep s call) := by
  cases call with
  | print c color =>
    obtain ⟨hidx, htab⟩ := hfit
    have hprint := h.at.printAt c color hidx htab
    have hbefore : ¬t.index ≥ terminalSize := Nat.not_le.mpr hidx
    rw [terminalStep, terminalPrintCharColor, if_neg hbefore]
    exact ⟨(setCursor_shows hprint).render, (renderTerminal_keeps _).2.2 hprint.inCells, hprint.column⟩
  | clear =>
    refine ⟨⟨fun {r c} hr hc => if_pos ?_, rfl, rfl, rfl⟩, ?_, Nat.zero_lt_succ _⟩
    · unfold terminalSize terminalCols terminalRows at *
      omega
    · exact Nat.max_le.mpr ⟨h.inCells, Nat.le_refl _⟩
  | written => exact ⟨⟨h.shows.cell, h.shows.row, h.shows.column, h.at.index⟩, h.inCells, h.column⟩

/-! ### What a call that does not fit reaches -/

theorem scroll_reaches (t : Terminal) : terminalSize < (scroll t).extent := by
  have hinv := @loop_invariant _ (fun i b => terminalSize - terminalCols < i → terminalSize < b.extent)
    terminalSize scrollCell t (fun h => absurd h (Nat.not_lt_zero _)) fun i hi b hb hnext => ?_
  · exact hinv (by decide)
  · unfold scrollCell
    split
    · exact Nat.lt_of_lt_of_le (hb (by assumption)) (Nat.le_max_left _ _)
    · have hlast : i + terminalCols = terminalSize := by
        unfold terminalSize terminalCols terminalRows at *
        omega
      refine Nat.lt_of_lt_of_le ?_ (Nat.le_max_left _ _)
      rw [hlast]
      exact Nat.le_max_right _ _

theorem printAt_grows (c color : UInt8) (i : Nat) (t : Terminal) :
    t.extent ≤ (printAt c color i t).2.extent := by
  have hstore : ∀ (i x : Nat) (t : Terminal), t.extent ≤ (t.store i x).extent := fun _ _ _ =>
    Nat.le_max_left _ _
  unfold printAt
  split
  · exact Nat.le_refl _
  split
  · split
    · exact hstore ..
    · exact Nat.le_refl _
  split
  · exact loop_keeps (fun r : Nat × Terminal => t.extent ≤ r.2.extent) (Nat.le_refl _)
      fun k _ r hr => Nat.le_trans hr (hstore ..)
  · exact hstore ..

theorem printAt_tab (color : UInt8) (i : Nat) (t : Terminal) : printAt charTab color i t =
    loop (tabSpaces i) (fun _ => putAt (cellOf color charSpace)) (i, t) := by
  rw [printAt, if_neg (by decide), if_neg (by decide), if_pos rfl]

theorem tab_reaches {n : Nat} (hn : 0 < n) (x i : Nat) (t : Terminal) :
    i + n ≤ (loop n (fun _ => putAt x) (i, t)).2.extent := by
  let inv (k : Nat) (r : Nat × Terminal) : Prop := r.1 = i + k ∧ (0 < k → i + k ≤ r.2.extent)
  refine (loop_invariant inv ⟨rfl, fun h => absurd h (Nat.not_lt_zero 0)⟩ fun k hk r hr => ?_).2 hn
  refine ⟨by rw [putAt, hr.1, Nat.add_assoc], fun _ => ?_⟩
  have hlast : i + (k + 1) = r.1 + 1 := by
    rw [hr.1]
    rfl
  rw [hlast]
  exact Nat.le_max_right _ _

/-- A call that does not fit uses an index beyond the buffer. -/
theorem outside_of_not_fits {call : TerminalCall} (h : ¬PrintFits t call) :
    ¬InCells (terminalStep t call) := by
  cases call with
  | print c color =>
    have hprinted : terminalSize < (if t.index ≥ terminalSize then
        printAt c color (terminalSize - terminalCols) (scroll t) else printAt c color t.index t).2.extent := by
      split
      · exact Nat.lt_of_lt_of_le (scroll_reaches t) (printAt_grows ..)
      · rename_i hidx
        have hnot : ¬(c = charTab → t.index + tabSpaces t.index ≤ terminalSize) := fun htab =>
          h ⟨Nat.not_le.mp hidx, htab⟩
        obtain ⟨rfl, hend⟩ := Classical.not_imp.mp hnot
        have hpos : 0 < tabSpaces t.index := Nat.sub_pos_of_lt (Nat.mod_lt _ (by decide))
        have hreach := tab_reaches hpos (cellOf color charSpace) t.index t
        rw [printAt_tab]
        omega
    rw [terminalStep, terminalPrintCharColor, InCells, Nat.not_le]
    exact Nat.lt_of_lt_of_le hprinted (renderTerminal_keeps (setCursor _)).2.1
  | clear => exact absurd trivial h
  | written => exact absurd trivial h

end Cells

/-- In a run of calls on a new terminal every index is in the buffer and the cells, the cursor and the
floor are those of the screen after every call, if and only if no call scrolls and no tab ends beyond
the last cell. -/
theorem terminal_is_screen_iff (calls : List TerminalCall) (buffer : Nat → Nat) :
    (∀ k, InCells (runTerminal (calls.take k) (initTerminal buffer)) ∧
        Shows (runTerminal (calls.take k) (initTerminal buffer))
          (runScreen (calls.take k) (initScreen buffer))) ↔
      AllFit calls (initTerminal buffer) := by
  have hgen : ∀ (calls : List TerminalCall) (t : Terminal) (s : Screen), Stands t s →
      ((∀ k, InCells (runTerminal (calls.take k) t) ∧
        Shows (runTerminal (calls.take k) t) (runScreen (calls.take k) s)) ↔ AllFit calls t) := by
    intro calls
    induction calls with
    | nil =>
      intro t s h
      exact iff_of_true (fun k => by simpa [runTerminal, runScreen] using ⟨h.inCells, h.shows⟩) trivial
    | cons call calls ih =>
      intro t s h
      constructor
      · intro hall
        have hfit : PrintFits t call := by
          refine Decidable.byContradiction fun hno => outside_of_not_fits hno ?_
          exact (hall 1).1
        exact ⟨hfit, (ih _ _ (h.step hfit)).mp fun k => hall (k + 1)⟩
      · rintro ⟨hfit, hrest⟩ k
        cases k with
        | zero => exact ⟨h.inCells, h.shows⟩
        | succ k => exact (ih _ _ (h.step hfit)).mpr hrest k
  exact hgen calls _ _ (initTerminal_stands buffer)

/-! ### A scroll -/

theorem scroll_buffer (t : Terminal) (i : Nat) : (scroll t).buffer i =
    if i < terminalSize then
      if i > terminalSize - terminalCols then cellOf white charSpace else t.buffer (i + terminalCols)
    else t.buffer i := by
  let inv (k : Nat) (b : Terminal) : Prop := ∀ i, b.buffer i =
    if i < k then
      if i > terminalSize - terminalCols then cellOf white charSpace else t.buffer (i + terminalCols)
    else t.buffer i
  refine loop_invariant inv (fun i => rfl) (fun k hk b hb i => ?_) i
  have hread : b.buffer (k + terminalCols) = t.buffer (k + terminalCols) := by
    rw [hb, if_neg (Nat.not_lt.mpr (Nat.le_add_right _ _))]
  unfold scrollCell
  split
  · change (if i = k then _ else b.buffer i) = _
    rw [hb]
    grind
  · change (if i = k then b.buffer (k + terminalCols) else b.buffer i) = _
    rw [hb i, hread]
    grind

/-- A scroll moves the rows of the screen up; the first cell of the last row is what lies beyond the
buffer, and the floor stays. -/
theorem scroll_shows {t : Terminal} {s : Screen} (h : Shows t s) {r c : Nat} (hr : r < terminalRows)
    (hc : c < terminalCols) : (scroll t).buffer (terminalCols * r + c) =
      if terminalCols * r + c = terminalSize - terminalCols then t.buffer terminalSize
      else s.scrolled.cell r c := by
  have hcell : (scroll t).buffer (terminalCols * r + c) = _ := scroll_buffer t _
  rw [hcell, Screen.scrolled]
  dsimp only
  by_cases hlast : r + 1 < terminalRows
  · rw [← h.cell hlast hc]
    unfold terminalSize terminalCols terminalRows at *
    rw [if_pos (by omega), if_neg (by omega), if_neg (by omega), if_pos hlast]
    congr 1
    omega
  · unfold terminalSize terminalCols terminalRows at *
    rw [if_pos (by omega), if_neg hlast]
    by_cases hfirst : c = 0
    · rw [if_neg (by omega), if_pos (by omega)]
      congr 1
      omega
    · rw [if_pos (by omega), if_neg (by omega)]

/-! ### 33 lines -/

theorem newline_index {t : Terminal} (color : UInt8) (h : t.index < terminalSize) :
    (terminalPrintCharColor charNewline color t).index = (t.index / terminalCols + 1) * terminalCols := by
  have hbefore : ¬t.index ≥ terminalSize := Nat.not_le.mpr h
  rw [terminalPrintCharColor, if_neg hbefore, (renderTerminal_keeps _).1, printAt, if_pos rfl]
  unfold setCursor Terminal.index terminalCols
  dsimp only
  omega

theorem runTerminal_cons (call : TerminalCall) (calls : List TerminalCall) (t : Terminal) :
    runTerminal (call :: calls) t = runTerminal calls (terminalStep t call) := rfl

theorem newlines_index (color : UInt8) (n : Nat) {t : Terminal} (hrow : t.index % terminalCols = 0)
    (hn : t.index + terminalCols * n ≤ terminalSize) :
    (runTerminal (List.replicate n (.print charNewline color)) t).index = t.index + terminalCols * n := by
  induction n generalizing t with
  | zero => rfl
  | succ n ih =>
    have hlt : t.index < terminalSize := by
      unfold terminalCols at *
      omega
    have hnext := newline_index color hlt
    have hstep : (terminalPrintCharColor charNewline color t).index = t.index + terminalCols := by
      unfold terminalCols at *
      omega
    rw [List.replicate_succ, runTerminal_cons, terminalStep]
    rw [ih (by unfold terminalCols at *; omega) (by unfold terminalCols at *; omega), hstep]
    unfold terminalCols
    omega

/-- After 33 lines the next character reads the cell after the last one. -/
theorem scroll_reads_beyond : ¬ ∀ (calls : List TerminalCall) (buffer : Nat → Nat) (k : Nat),
    InCells (runTerminal (calls.take k) (initTerminal buffer)) ∧
      Shows (runTerminal (calls.take k) (initTerminal buffer))
        (runScreen (calls.take k) (initScreen buffer)) := by
  intro hall
  let lines := List.replicate 33 (TerminalCall.print charNewline white)
  have hindex : (runTerminal lines (initTerminal fun _ => 0)).index = terminalSize :=
    newlines_index white 33 rfl (Nat.le_refl _)
  have hlen : (lines ++ [TerminalCall.print 65 white]).length ≤ 34 := by simp [lines]
  have hin := (hall (lines ++ [.print 65 white]) (fun _ => 0) 34).1
  rw [List.take_of_length_le hlen, runTerminal, List.foldl_append, List.foldl_cons, List.foldl_nil] at hin
  have hfit := Decidable.byContradiction fun hno => outside_of_not_fits hno hin
  exact Nat.ne_of_lt hfit.1 hindex

end AdamOS.TextTerminal
