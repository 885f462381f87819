import AdamOS.Display.AnsiEscape
import AdamOS.Display.Pixels
import Mathlib.Tactic.SplitIfs

/-! tetris.c: the game, and a renderer that redraws the cells whose color changed. -/
namespace AdamOS.Tetris
open AdamOS.Drawing AdamOS.Fat16 AdamOS.Loop AdamOS.Transition AdamOS.Windows AdamOS.Word

def bw : Nat := 10
def bh : Nat := 20
def cell : Nat := 10
def boardX : Nat := 5
def boardY : Nat := 5
def sidebarX : Nat := 115
def winW : Nat := 200
def winH : Nat := 215

def colBg : UInt8 := 0x08
def colGhost : UInt8 := 0x07
def colSidebar : UInt8 := 0x00
def colText : UInt8 := 0x0F
def colLabel : UInt8 := 0x07

/- 0 is an empty cell, p + 1 a cell of piece p. -/
def pieceColors (i : Fin 8) : UInt8 :=
  [colBg, 0x0B, 0x0E, 0x0D, 0x0A, 0x0C, 0x09, 0x06].get i

def pieceTable : List (List Nat) :=
  [[0x0F00, 0x2222, 0x00F0, 0x4444], [0x6600, 0x6600, 0x6600, 0x6600],
    [0x0E40, 0x4C40, 0x4E00, 0x4640], [0x06C0, 0x8C40, 0x6C00, 0x4620],
    [0x0C60, 0x4C80, 0xC600, 0x2640], [0x0E80, 0xC440, 0x2E00, 0x44C0],
    [0x0E20, 0x4460, 0x8E00, 0xC880]]

def pieces (p : Fin 7) (r : Fin 4) : Nat := (pieceTable.getD p []).getD r 0

/- A row and a column; board[y][x] and display[y][x]. -/
abbrev Grid (α : Type) := Nat → Nat → α

def setCell {α : Type} (y x : Nat) (v : α) (g : Grid α) : Grid α :=
  fun y' x' => if y' = y ∧ x' = x then v else g y' x'

/-! ### The game -/

structure Game where
  board : Grid (Fin 8)
  (cp np : Fin 7)
  cr : Fin 4
  (cx cy : Int)
  (score totalLines level : Int)
  gameOver : Bool
  dropInterval : Int
  rng : UInt32

def rand7 (rng : UInt32) : Fin 7 × UInt32 :=
  let rng := rng * 1103515245 + 12345
  (⟨((rng >>> 16) &&& 0x7FFF).toNat % 7, Nat.mod_lt _ (by decide)⟩, rng)

def pcell (p : Fin 7) (r : Fin 4) (gx gy : Nat) : Bool :=
  (pieces p r >>> (15 - gy * 4 - gx)) &&& 1 ≠ 0

def onBoard (x y : Int) : Prop := 0 ≤ y ∧ y < bh ∧ 0 ≤ x ∧ x < bw

instance (x y : Int) : Decidable (onBoard x y) := inferInstanceAs (Decidable (_ ∧ _))

/- One cell of a piece is beyond the sides or the floor, or on a locked cell. -/
def blocked (board : Grid (Fin 8)) (x y : Int) : Bool :=
  x < 0 || x ≥ bw || y ≥ bh || (y ≥ 0 && board y.toNat x.toNat != 0)

def collides (board : Grid (Fin 8)) (p : Fin 7) (r : Fin 4) (px py : Int) : Bool :=
  (List.range 4).any fun gy => (List.range 4).any fun gx =>
    pcell p r gx gy && blocked board (px + gx) (py + gy)

/- The loops over gy and gx that write v to the cells of a piece on the board, where `may` lets
   them. -/
def stamp {α : Type} (p : Fin 7) (r : Fin 4) (px py : Int) (v : α) (may : α → Bool) (g : Grid α) :
    Grid α :=
  loop 4 (fun gy g => loop 4 (fun gx g =>
    if pcell p r gx gy ∧ onBoard (px + gx) (py + gy) ∧ may (g (py + gy).toNat (px + gx).toNat) then
      setCell (py + gy).toNat (px + gx).toNat v g
    else g) g) g

def lockPiece (g : Game) : Game :=
  { g with board := stamp g.cp g.cr g.cx g.cy g.cp.succ (fun _ => true) g.board }

def rowFull (board : Grid (Fin 8)) (y : Nat) : Bool := (List.range bw).all fun x => board y x != 0

/- Every row from y upwards is copied from the row above it, and row 0 is cleared. -/
def shiftRows (y : Nat) (board : Grid (Fin 8)) : Grid (Fin 8) :=
  let board := loop y (fun i b yy => if yy = y - i then b (yy - 1) else b yy) board
  fun yy => if yy = 0 then fun _ => 0 else board yy

/- `rows` is y + 1 in the loop of clear_rows; a row that was cleared is looked at again. -/
def clearFrom : Nat → Nat → Nat → Grid (Fin 8) → Option (Nat × Grid (Fin 8))
  | _, 0, cleared, board => some (cleared, board)
  | 0, _ + 1, _, _ => none
  | n + 1, y + 1, cleared, board =>
    if rowFull board y then clearFrom n (y + 1) (cleared + 1) (shiftRows y board)
    else clearFrom n y cleared board

def clearRows (board : Grid (Fin 8)) : Option (Nat × Grid (Fin 8)) := clearFrom (2 * bh) bh 0 board

def spawn (g : Game) : Game :=
  let next := rand7 g.rng
  let g := { g with cp := g.np, np := next.1, rng := next.2, cr := 0, cx := 3, cy := -1 }
  if collides g.board g.cp g.cr g.cx g.cy then { g with gameOver := true } else g

def pts : List Int := [0, 100, 300, 500, 800]

/- none reads past pts. -/
def awardLines (n : Nat) (g : Game) : Option Game :=
  pts[n]?.map fun points =>
    let total := int32 (g.totalLines + n)
    let level := total.tdiv 10
    let drop := int32 (20 - int32 (level * 2))
    { g with
      score := int32 (g.score + int32 (points * int32 (g.level + 1)))
      totalLines := total
      level := level
      dropInterval := if drop < 2 then 2 else drop }

/- while (!collides(cp, cr, cx, y + 1)) y++ -/
def dropFrom (g : Game) : Nat → Int → Int
  | 0, y => y
  | n + 1, y => if collides g.board g.cp g.cr g.cx (y + 1) then y else dropFrom g n (y + 1)

def landing (g : Game) : Int := dropFrom g (bh - g.cy).toNat g.cy

def isKey (c : Nat) (lower upper : Char) : Bool := c = lower.toNat || c = upper.toNat

def steer (c : Nat) (g : Game) : Game :=
  if isKey c 'a' 'A' then
    if collides g.board g.cp g.cr (g.cx - 1) g.cy then g else { g with cx := g.cx - 1 }
  else if isKey c 'd' 'D' then
    if collides g.board g.cp g.cr (g.cx + 1) g.cy then g else { g with cx := g.cx + 1 }
  else if isKey c 'w' 'W' then
    let nr := g.cr + 1
    if !collides g.board g.cp nr g.cx g.cy then { g with cr := nr }
    else if !collides g.board g.cp nr (g.cx - 1) g.cy then { g with cx := g.cx - 1, cr := nr }
    else if !collides g.board g.cp nr (g.cx + 1) g.cy then { g with cx := g.cx + 1, cr := nr }
    else g
  else if isKey c 's' 'S' then
    if collides g.board g.cp g.cr g.cx (g.cy + 1) then g else { g with cy := g.cy + 1 }
  else if c = ' '.toNat then { g with cy := landing g }
  else g

/- none is q, which ends the program. -/
def handleInput (c : Nat) (g : Game) : Option Game :=
  if isKey c 'q' 'Q' then none else if g.gameOver then some g else some (steer c g)

/- A piece that cannot fall is locked; the next one enters. -/
def fall (g : Game) : Option Game :=
  if !collides g.board g.cp g.cr g.cx (g.cy + 1) then some { g with cy := g.cy + 1 }
  else
    let g := lockPiece g
    (clearRows g.board).bind fun (cl, board) =>
      let g := { g with board := board }
      (if cl > 0 then awardLines cl g else some g).map spawn

/-! ### Drawing -/

structure Screen where
  window : Canvas
  display : Grid UInt8
  sidebarDrawn : Bool
  (prevScore prevLines prevLevel prevNp : Int)

def drawRect (x y w h : Nat) (color : UInt8) (s : Screen) : Screen :=
  { s with window := windowDrawRect x y w h color s.window }

variable (font : Font)

def drawText (x y : Nat) (str : CString) (color : UInt8) (s : Screen) : Screen :=
  { s with window := windowDrawString font x y str color s.window }

def literal (str : String) : CString where
  chars := (str.toList.map fun c => UInt8.ofNat c.toNat).filter fun c => c != 0
  noNul := fun _ h => by simpa using (List.mem_filter.mp h).2

/- The digits of n from the last on; the loop ends when n is not above 0. -/
def itosDigits : Nat → Int → List UInt8
  | 0, _ => []
  | k + 1, n =>
    UInt8.ofNat (48 + n.tmod 10).toNat ::
      if n.tdiv 10 > 0 then itosDigits k (n.tdiv 10) else []

/-- The loop of string.c that the escape sequences use. -/
theorem itosDigits_eq (k : Nat) (n : Int) : itosDigits k n = Ansi.itosLoop k n := by
  induction k generalizing n with
  | zero => rfl
  | succ k ih => rw [itosDigits, Ansi.itosLoop, ih]

theorem itosDigits_noNul (k : Nat) (n : Int) : ∀ c ∈ itosDigits k n, c ≠ 0 :=
  itosDigits_eq k n ▸ Ansi.itosLoop_noNul k n

/- An int has ten digits at most. -/
def itos (n : Int) : CString where
  chars := (if n < 0 then itosDigits 10 (int32 (-n)) ++ [45] else itosDigits 10 n).reverse
  noNul := by
    intro c hc
    rw [List.mem_reverse] at hc
    split at hc
    · rcases List.mem_append.mp hc with h | h
      · exact itosDigits_noNul _ _ c h
      · rw [List.mem_singleton.mp h]
        decide
    · exact itosDigits_noNul _ _ c hc

theorem itos_length (n : Int) : (itos n).chars.length ≤ 11 := by
  have hchars : (itos n).chars = Ansi.itos n := by
    change (if n < 0 then itosDigits 10 (int32 (-n)) ++ [45] else itosDigits 10 n).reverse = _
    rw [itosDigits_eq, itosDigits_eq]
    exact apply_ite List.reverse _ _ _
  rw [hchars]
  exact Ansi.itos_le n

def drawNum (x y : Nat) (n : Int) (color : UInt8) (s : Screen) : Screen :=
  drawText font x y (itos n) color s

def lockedColors (g : Game) : Grid UInt8 := fun y x =>
  if g.board y x ≠ 0 then pieceColors (g.board y x) else colBg

def withGhost (g : Game) (w : Grid UInt8) : Grid UInt8 :=
  if landing g ≠ g.cy then stamp g.cp g.cr g.cx (landing g) colGhost (fun v => v == colBg) w else w

def wanted (g : Game) : Grid UInt8 :=
  stamp g.cp g.cr g.cx g.cy (pieceColors g.cp.succ) (fun _ => true) (withGhost g (lockedColors g))

def cellRect (w : Grid UInt8) (y x : Nat) (c : Canvas) : Canvas :=
  windowDrawRect (boardX + x * cell : Nat) (boardY + y * cell : Nat) cell cell (w y x) c

def renderCell (w : Grid UInt8) (y x : Nat) (s : Screen) : Screen :=
  if w y x ≠ s.display y x then
    drawRect (boardX + x * cell) (boardY + y * cell) cell cell (w y x)
      { s with display := setCell y x (w y x) s.display }
  else s

def renderBoard (g : Game) (s : Screen) : Screen :=
  loop bh (fun y => loop bw (renderCell (wanted g) y)) s

def labels : List (Nat × String × UInt8) :=
  [(8, "TETRIS", colText), (24, "Score", colLabel), (48, "Lines", colLabel), (72, "Level", colLabel),
    (100, "Next", colLabel), (152, "a/d move", colLabel), (162, "w   spin", colLabel),
    (172, "s   drop", colLabel), (182, "spc slam", colLabel), (192, "q   quit", colLabel)]

def drawLabels (s : Screen) : Screen :=
  labels.foldl (fun s l => drawText font sidebarX l.1 (literal l.2.1) l.2.2 s) s

def redrawNum (y : Nat) (n : Int) (s : Screen) : Screen :=
  drawNum font sidebarX y n colText (drawRect sidebarX y 80 10 colSidebar s)

def redrawNext (np : Fin 7) (s : Screen) : Screen :=
  loop 4 (fun py s => loop 4 (fun px s =>
    if pcell np 0 px py then
      drawRect (sidebarX + px * 8) (112 + py * 8) 7 7 (pieceColors np.succ) s
    else s) s) (drawRect sidebarX 112 35 35 colSidebar s)

def refreshLabels (s : Screen) : Screen :=
  if s.sidebarDrawn then s else { drawLabels font s with sidebarDrawn := true }

def refreshScore (g : Game) (s : Screen) : Screen :=
  if g.score ≠ s.prevScore then { redrawNum font 34 g.score s with prevScore := g.score } else s

def refreshLines (g : Game) (s : Screen) : Screen :=
  if g.totalLines ≠ s.prevLines then
    { redrawNum font 58 g.totalLines s with prevLines := g.totalLines }
  else s

def refreshLevel (g : Game) (s : Screen) : Screen :=
  if g.level ≠ s.prevLevel then
    { redrawNum font 82 (int32 (g.level + 1)) s with prevLevel := g.level }
  else s

def refreshNext (g : Game) (s : Screen) : Screen :=
  if (g.np.val : Int) ≠ s.prevNp then { redrawNext g.np s with prevNp := g.np.val } else s

def renderSidebar (g : Game) (s : Screen) : Screen :=
  refreshNext g (refreshLevel font g (refreshLines font g (refreshScore font g (refreshLabels font s))))

def gameOverText (s : Screen) : Screen :=
  drawText font (boardX + 10) (boardY + 95) (literal "GAME OVER") colText s

def render (g : Game) (s : Screen) : Screen :=
  let s := renderSidebar font g (renderBoard g s)
  if g.gameOver then gameOverText font s else s

def renderInitial (g : Game) (s : Screen) : Screen :=
  let s := drawRect 0 0 winW winH colSidebar s
  let s := drawRect boardX boardY (bw * cell) (bh * cell) colBg s
  render font g { s with
    display := fun _ _ => colBg
    sidebarDrawn := false
    prevScore := -1
    prevLines := -1
    prevLevel := -1
    prevNp := -1 }

/-! ### The main loop -/

structure Program where
  game : Game
  screen : Screen
  tick : Nat

def windowRequest : CreateWindow := ⟨200, 50, 200, 215, literal "TETRIS"⟩

/- The static variables are zero; the seed is sys_uptime's result. -/
def newGame (uptime : UInt32) : Game :=
  let next := rand7 uptime
  spawn ⟨fun _ _ => 0, 0, next.1, 0, 0, 0, 0, 0, 0, false, 20, next.2⟩

/- main up to the first spawn, with the first piece given. -/
def openGame (np : Fin 7) (rng : UInt32) : Game :=
  spawn ⟨fun _ _ => 0, 0, np, 0, 0, 0, 0, 0, 0, false, 20, rng⟩

def start (uptime : UInt32) (window : Canvas) : Program where
  game := newGame uptime
  screen := renderInitial font (newGame uptime) ⟨window, fun _ _ => 0, false, 0, 0, 0, 0⟩
  tick := 0

/- What sys_get_event returns in one frame: events, and at last 0, or -1 when the window is gone. -/
structure Polled where
  events : List Event
  gone : Bool

def drainEvents : List Event → Game × Bool → Option (Game × Bool)
  | [], s => some s
  | .keypress _ c :: es, s => (handleInput c s.1).bind fun g => drainEvents es (g, true)
  | .mouse .. :: es, s => drainEvents es s

def gravity (p : Program) (dirty : Bool) : Option (Program × Bool) :=
  if p.game.gameOver then some (p, dirty)
  else if (p.tick + 1 : Nat) ≥ p.game.dropInterval then
    (fall p.game).map fun g => ({ p with game := g, tick := 0 }, true)
  else some ({ p with tick := p.tick + 1 }, dirty)

/- One round of while (1); none ends the program. -/
def frame (p : Program) (i : Polled) : Option Program :=
  (drainEvents i.events (p.game, false)).bind fun (g, dirty) =>
    if i.gone then none
    else
      (gravity { p with game := g } dirty).map fun (p, dirty) =>
        if dirty then { p with screen := render font p.game p.screen } else p

/- No cell of the active piece is beyond the walls, below the floor or on a locked cell. Cells above
   the top are on no cell of the board. -/
def PieceFree (g : Game) : Prop :=
  ∀ gy < 4, ∀ gx < 4, pcell g.cp g.cr gx gy = true →
    (0 ≤ g.cx + gx ∧ g.cx + gx < bw) ∧ g.cy + gy < bh ∧
      (0 ≤ g.cy + gy → g.board (g.cy + gy).toNat (g.cx + gx).toNat = 0)

/-! ### The loops of the game end -/

section game
variable {b b' : Grid (Fin 8)} {g g' : Game}

theorem pcell_exists (p : Fin 7) (r : Fin 4) :
    ∃ gy ∈ List.range 4, ∃ gx ∈ List.range 4, pcell p r gx gy = true := by
  revert p r
  decide

theorem collides_floor (b : Grid (Fin 8)) (p : Fin 7) (r : Fin 4) (px : Int) {py : Int}
    (h : bh ≤ py) : collides b p r px py = true := by
  obtain ⟨gy, hgy, gx, hgx, hcell⟩ := pcell_exists p r
  have hblocked : blocked b (px + gx) (py + gy) = true := by
    unfold blocked
    rw [show decide (py + (gy : Int) ≥ bh) = true from decide_eq_true (by omega)]
    simp
  refine List.any_eq_true.mpr ⟨gy, hgy, List.any_eq_true.mpr ⟨gx, hgx, ?_⟩⟩
  rw [hcell, hblocked]
  rfl

/-- The loop of a falling piece ends where the piece rests. -/
theorem dropFrom_rests (g : Game) (n : Nat) (y : Int) (hn : bh ≤ y + n) :
    collides g.board g.cp g.cr g.cx (dropFrom g n y + 1) = true := by
  induction n generalizing y with
  | zero => exact collides_floor _ _ _ _ (show (bh : Int) ≤ y + 1 by omega)
  | succ n ih =>
    rw [dropFrom]
    split
    · assumption
    · exact ih (y + 1) (by omega)

theorem landing_rests (g : Game) : collides g.board g.cp g.cr g.cx (landing g + 1) = true :=
  dropFrom_rests g _ _ (by omega)

def boardRow (b : Grid (Fin 8)) (y : Nat) : List (Fin 8) := (List.range bw).map (b y)

def topRows (b : Grid (Fin 8)) (m : Nat) : List (List (Fin 8)) := (List.range m).map (boardRow b)

def rows (b : Grid (Fin 8)) : List (List (Fin 8)) := topRows b bh

def occupied (v : Fin 8) : Bool := v != 0

def full (row : List (Fin 8)) : Bool := row.all occupied

def emptyRow : List (Fin 8) := List.replicate bw 0

theorem occupied_iff (v : Fin 8) : occupied v = true ↔ v ≠ 0 := bne_iff_ne

theorem topRows_succ (b : Grid (Fin 8)) (m : Nat) : topRows b (m + 1) = topRows b m ++ [boardRow b m] := by
  unfold topRows
  rw [List.range_succ, List.map_append, List.map_singleton]

theorem full_boardRow (b : Grid (Fin 8)) (y : Nat) : full (boardRow b y) = rowFull b y := by
  unfold full boardRow rowFull
  rw [List.all_map]
  rfl

theorem shiftRows_row (b : Grid (Fin 8)) (y k : Nat) : shiftRows y b k =
    if k = 0 then fun _ => 0 else if k ≤ y then b (k - 1) else b k := by
  have hcopy : ∀ n ≤ y, ∀ k, loop n (fun i b yy => if yy = y - i then b (yy - 1) else b yy) b k =
      if y - n < k ∧ k ≤ y then b (k - 1) else b k := by
    intro n
    induction n with
    | zero => exact fun _ k => (if_neg (by omega)).symm
    | succ n ih =>
      intro hn k
      rw [loop_succ]
      by_cases hk : k = y - n
      · rw [if_pos hk, ih (by omega), if_neg (by omega), if_pos (by omega)]
      · rw [if_neg hk, ih (by omega)]
        exact if_congr (by omega) rfl rfl
  unfold shiftRows
  by_cases h0 : k = 0
  · rw [if_pos h0, if_pos h0]
  · rw [if_neg h0, if_neg h0, hcopy y (Nat.le_refl y)]
    exact if_congr (by omega) rfl rfl

/-- Shifting puts an empty row on top and moves the rows above y down. -/
theorem topRows_shiftRows (b : Grid (Fin 8)) (y : Nat) :
    topRows (shiftRows y b) (y + 1) = emptyRow :: topRows b y := by
  unfold topRows
  rw [List.range_succ_eq_map, List.map_cons, List.map_map]
  refine congrArg₂ _ ?_ (List.map_congr_left fun k hk => ?_)
  · rw [boardRow, shiftRows_row, if_pos rfl]
    exact List.map_const' ..
  · have hk := List.mem_range.mp hk
    unfold Function.comp boardRow
    rw [shiftRows_row, if_neg (Nat.succ_ne_zero k), if_pos (Nat.succ_le_of_lt hk)]
    rfl

/-- The rows from y upwards are cleared of the full ones; those below stay. -/
theorem clearFrom_rows {n y : Nat} (cleared : Nat) (hn : y + (topRows b y).countP full ≤ n) :
    ∃ b', clearFrom n y cleared b = some (cleared + (topRows b y).countP full, b') ∧
      topRows b' y = List.replicate ((topRows b y).countP full) emptyRow ++
        (topRows b y).filter (fun row => !full row) ∧ ∀ k, y ≤ k → b' k = b k := by
  induction n generalizing y cleared b with
  | zero =>
    obtain rfl : y = 0 := by omega
    exact ⟨b, by rw [clearFrom]; rfl, rfl, fun _ _ => rfl⟩
  | succ n ih =>
    cases y with
    | zero => exact ⟨b, by rw [clearFrom]; rfl, rfl, fun _ _ => rfl⟩
    | succ y =>
      have hsucc := topRows_succ b y
      have hcount : (topRows b (y + 1)).countP full =
          (topRows b y).countP full + if rowFull b y then 1 else 0 := by
        rw [hsucc, List.countP_append, List.countP_singleton, full_boardRow]
      rw [clearFrom]
      by_cases hfull : rowFull b y = true
      · rw [if_pos hfull] at hcount ⊢
        have hempty : full emptyRow = false := by decide
        have hshift := topRows_shiftRows b y
        have hshift' : (topRows (shiftRows y b) (y + 1)).countP full = (topRows b y).countP full := by
          rw [hshift, List.countP_cons_of_neg (by rw [hempty]; exact Bool.false_ne_true)]
        obtain ⟨b', hb', htop, hbelow⟩ := @ih (shiftRows y b) (y + 1) (cleared + 1) (by omega)
        refine ⟨b', ?_, ?_, fun k hk => ?_⟩
        · rw [hb', hshift', hcount]
          congr 2
          omega
        · rw [htop, hshift', hcount, hsucc, List.filter_append, hshift,
            List.filter_cons_of_pos (by rw [hempty]; rfl), List.replicate_succ', List.append_assoc]
          rw [List.filter_cons_of_neg (by rw [full_boardRow, hfull]; exact Bool.false_ne_true),
            List.filter_nil, List.append_nil]
          rfl
        · rw [hbelow k hk, shiftRows_row, if_neg (by omega), if_neg (by omega)]
      · rw [if_neg hfull] at hcount ⊢
        have hnot := Bool.eq_false_iff.mpr hfull
        obtain ⟨b', hb', htop, hbelow⟩ := @ih b y cleared (by omega)
        refine ⟨b', ?_, ?_, fun k hk => hbelow k (Nat.le_of_succ_le hk)⟩
        · rw [hb', hcount]
          rfl
        · rw [topRows_succ b' y, htop, hcount, hsucc, List.filter_append, boardRow,
            hbelow y (Nat.le_refl y), ← boardRow,
            List.filter_cons_of_pos (by rw [full_boardRow, hnot]; rfl), List.append_assoc]
          rfl

theorem clearRows_cleared (b : Grid (Fin 8)) :
    ∃ b', clearRows b = some ((rows b).countP full, b') ∧
      rows b' = List.replicate ((rows b).countP full) emptyRow ++
        (rows b).filter fun row => !full row := by
  have hle : (topRows b bh).countP full ≤ bh := by
    have hlen : (topRows b bh).length = bh := by
      rw [topRows, List.length_map, List.length_range]
    exact hlen ▸ List.countP_le_length
  obtain ⟨b', hb', htop, -⟩ := @clearFrom_rows b (2 * bh) bh 0 (by omega)
  rw [Nat.zero_add] at hb'
  exact ⟨b', hb', htop⟩

def NoRowFull (b : Grid (Fin 8)) : Prop := ∀ y < bh, rowFull b y = false

theorem noRowFull_iff : NoRowFull b ↔ ∀ row ∈ rows b, full row = false := by
  constructor
  · intro h row hrow
    obtain ⟨y, hy, rfl⟩ := List.mem_map.mp hrow
    rw [full_boardRow]
    exact h y (List.mem_range.mp hy)
  · intro h y hy
    rw [← full_boardRow]
    exact h _ (List.mem_map.mpr ⟨y, List.mem_range.mpr hy, rfl⟩)

def fullRows (b : Grid (Fin 8)) (y : Nat) : Nat := (List.range y).countP (rowFull b)

theorem countP_topRows (b : Grid (Fin 8)) (y : Nat) : (topRows b y).countP full = fullRows b y := by
  rw [topRows, List.countP_map, fullRows]
  exact List.countP_congr fun k _ => by rw [Function.comp_apply, full_boardRow]

/-- clear_rows counts the full rows and leaves none. -/
theorem clearRows_returns (b : Grid (Fin 8)) :
    ∃ b', clearRows b = some (fullRows b bh, b') ∧ NoRowFull b' := by
  obtain ⟨b', hb', hrows⟩ := clearRows_cleared b
  refine ⟨b', by rw [hb', rows, countP_topRows], noRowFull_iff.mpr fun row hrow => ?_⟩
  rw [hrows] at hrow
  rcases List.mem_append.mp hrow with hempty | hkept
  · rw [List.eq_of_mem_replicate hempty]
    decide
  · simpa using (List.mem_filter.mp hkept).2

theorem stamp_row {α : Type} (p : Fin 7) (r : Fin 4) (px : Int) {py : Int} (v : α) (may : α → Bool)
    (g : Grid α) {y : Nat} (h : y < py ∨ py + 4 ≤ y) : stamp p r px py v may g y = g y := by
  refine loop_keeps (fun g' : Grid α => g' y = g y) rfl fun gy hgy g1 hg1 =>
    loop_keeps (fun g' : Grid α => g' y = g y) hg1 fun gx hgx g2 hg2 => ?_
  split
  · rename_i hin
    obtain ⟨-, ⟨hrow, -⟩, -⟩ := hin
    rw [← hg2]
    funext x
    exact if_neg fun hat => by omega
  · exact hg2

theorem countP_between (a : Int) (n : Nat) :
    ((List.range n).countP fun k : Nat => decide (a ≤ k ∧ k < a + 4) : Int) ≤
      max 0 (min 4 (n - a)) := by
  induction n with
  | zero => exact Int.le_max_left ..
  | succ n ih =>
    rw [List.range_succ, List.countP_append, List.countP_singleton]
    split
    · rename_i hin
      have := of_decide_eq_true hin
      omega
    · omega

theorem lockPiece_fullRows (hnone : NoRowFull g.board) : fullRows (lockPiece g).board bh ≤ 4 := by
  have hmono : fullRows (lockPiece g).board bh ≤
      (List.range bh).countP fun k : Nat => decide (g.cy ≤ k ∧ k < g.cy + 4) := by
    refine List.countP_mono_left fun k hk hfull => decide_eq_true ?_
    by_contra hout
    have hrow : (lockPiece g).board k = g.board k := by
      unfold lockPiece
      dsimp only
      rw [stamp_row _ _ _ _ _ _ (by omega)]
    have hempty := hnone k (List.mem_range.mp hk)
    unfold rowFull at hfull hempty
    rw [hrow, hempty] at hfull
    cases hfull
  have hbetween := countP_between g.cy bh
  omega

end game

/-! ### What the window has to show -/

def OnBoard (px py : Nat) : Prop :=
  (boardX ≤ px ∧ px < boardX + bw * cell) ∧ boardY ≤ py ∧ py < boardY + bh * cell

def rowOf (py : Nat) : Nat := (py - boardY) / cell
def colOf (px : Nat) : Nat := (px - boardX) / cell

def fillCells (w : Grid UInt8) (c : Canvas) : Canvas :=
  loop bh (fun y => loop bw (cellRect w y)) c

/- The board drawn from nothing. -/
def fullRender (g : Game) (c : Canvas) : Canvas :=
  let c := fillCells (wanted g) c
  if g.gameOver then
    windowDrawString font (boardX + 10 : Nat) (boardY + 95 : Nat) (literal "GAME OVER") colText c
  else c

/- The last frame is recorded, and the board looks as if it were drawn from nothing. -/
structure DrawnFully (g : Game) (s : Screen) : Prop where
  display : ∀ y < bh, ∀ x < bw, s.display y x = wanted g y x
  pixels : ∀ base, Sized winW winH base → ∀ px py, OnBoard px py →
    pixelAt s.window px py = pixelAt (fullRender font g base) px py

/-! ### Cells -/

variable {font} {g g' : Game} {s t : Screen} {ended : Prop}

theorem window_fits : Fits winW winH := ⟨by decide, by decide, by decide⟩

theorem cellRect_paints (w : Grid UInt8) {y x : Nat} (hy : y < bh) (hx : x < bw) :
    Paints winW winH (w y x) (fun px py => OnBoard px py ∧ rowOf py = y ∧ colOf px = x)
      (cellRect w y x) := by
  unfold bh at hy
  unfold bw at hx
  refine (drawRect_paints window_fits (w y x) ?_ ?_).of_iff fun px py _ _ => ?_
  · unfold boardX cell
    omega
  · unfold boardY cell
    omega
  · unfold OnBoard rowOf colOf boardX boardY cell bw bh
    omega

theorem onBoard_cell {px py : Nat} (h : OnBoard px py) :
    px < winW ∧ py < winH ∧ px < sidebarX ∧ rowOf py < bh ∧ colOf px < bw := by
  unfold OnBoard boardX boardY cell bw bh at h
  unfold winW winH sidebarX rowOf colOf boardX boardY cell bh bw
  omega

theorem fillCells_pixels (w : Grid UInt8) {c : Canvas} (hc : Sized winW winH c) :
    Sized winW winH (fillCells w c) ∧ ∀ px py, OnBoard px py →
      pixelAt (fillCells w c) px py = w (rowOf py) (colOf px) := by
  let post (y x : Nat) (c : Canvas) : Prop :=
    ∀ px py, OnBoard px py → rowOf py = y → colOf px = x → pixelAt c px py = w y x
  have hset : ∀ y < bh, ∀ x < bw, ∀ c, Sized winW winH c → post y x (cellRect w y x c) := by
    intro y hy x hx c hc px py hon hrow hcol
    obtain ⟨hpx, hpy, -⟩ := onBoard_cell hon
    exact (cellRect_paints w hy hx).inside hc hpx hpy ⟨hon, hrow, hcol⟩
  have hkeep : ∀ y < bh, ∀ x < bw, ∀ y' < bh, ∀ x' < bw, ∀ c, Sized winW winH c → post y x c →
      post y x (cellRect w y' x' c) := by
    intro y _ x _ y' hy' x' hx' c hc hpost px py hon hrow hcol
    obtain ⟨hpx, hpy, -⟩ := onBoard_cell hon
    by_cases hin : OnBoard px py ∧ rowOf py = y' ∧ colOf px = x'
    · rw [(cellRect_paints w hy' hx').inside hc hpx hpy hin, ← hin.2.1, ← hin.2.2, hrow, hcol]
    · rw [(cellRect_paints w hy' hx').outside hc hpx hpy hin]
      exact hpost px py hon hrow hcol
  have hall := loop_each_cell (Sized winW winH) post hc
    (fun y hy x hx c hc => (cellRect_paints w hy hx).sized hc) hset hkeep
  refine ⟨hall.1, fun px py hon => ?_⟩
  obtain ⟨-, -, -, hy, hx⟩ := onBoard_cell hon
  exact hall.2 _ hy _ hx px py hon rfl rfl

/-! ### One frame after another -/

def OverText (font : Font) (px py : Nat) : Prop :=
  TextPixel font (boardX + 10 : Nat) (boardY + 95 : Nat) (literal "GAME OVER") px py

/- The board shows the recorded cells, except where the text may be. -/
structure Tracks (font : Font) (ended : Prop) (s : Screen) : Prop where
  sized : Sized winW winH s.window
  pixels : ∀ px py, OnBoard px py → ¬(ended ∧ OverText font px py) →
    pixelAt s.window px py = s.display (rowOf py) (colOf px)

theorem renderCell_display (w : Grid UInt8) (y x : Nat) (s : Screen) :
    (renderCell w y x s).display = setCell y x (w y x) s.display := by
  unfold renderCell
  split
  · rfl
  · rename_i heq
    funext y' x'
    unfold setCell
    split
    · rename_i hat
      rw [hat.1, hat.2, not_not.mp heq]
    · rfl

theorem Tracks.renderCell (h : Tracks font ended s) (w : Grid UInt8) {y x : Nat} (hy : y < bh)
    (hx : x < bw) : Tracks font ended (renderCell w y x s) := by
  have hdisplay := renderCell_display w y x s
  unfold Tetris.renderCell at hdisplay ⊢
  split
  · rename_i hne
    rw [if_pos hne] at hdisplay
    have hpaint := cellRect_paints w hy hx
    refine ⟨hpaint.sized h.sized, fun px py hon hfree => ?_⟩
    obtain ⟨hpx, hpy, -⟩ := onBoard_cell hon
    rw [hdisplay]
    unfold setCell
    by_cases hin : rowOf py = y ∧ colOf px = x
    · rw [if_pos hin]
      exact hpaint.inside h.sized hpx hpy ⟨hon, hin⟩
    · rw [if_neg hin, ← h.pixels px py hon hfree]
      exact hpaint.outside h.sized hpx hpy fun hS => hin hS.2
  · exact h

/-- After the comparison every cell is recorded as it is wanted. -/
theorem Tracks.renderBoard (h : Tracks font ended s) (g : Game) :
    Tracks font ended (renderBoard g s) ∧
      ∀ y < bh, ∀ x < bw, (renderBoard g s).display y x = wanted g y x := by
  let post (y x : Nat) (s : Screen) : Prop := s.display y x = wanted g y x
  have hset : ∀ y < bh, ∀ x < bw, ∀ s, Tracks font ended s →
      post y x (Tetris.renderCell (wanted g) y x s) := by
    intro y _ x _ s _
    dsimp only [post]
    rw [renderCell_display, setCell, if_pos ⟨rfl, rfl⟩]
  have hkeep : ∀ y < bh, ∀ x < bw, ∀ y' < bh, ∀ x' < bw, ∀ s, Tracks font ended s → post y x s →
      post y x (Tetris.renderCell (wanted g) y' x' s) := by
    intro y _ x _ y' _ x' _ s _ hpost
    dsimp only [post]
    rw [renderCell_display, setCell]
    split
    · rename_i hat
      rw [hat.1, hat.2]
    · exact hpost
  unfold Tetris.renderBoard
  exact @loop_each_cell Screen (Tracks font ended) post bh bw (Tetris.renderCell (wanted g)) s h
    (fun y hy x hx s hs => hs.renderCell (wanted g) hy hx) hset hkeep

/-! ### The sidebar -/

structure SameBoard (s t : Screen) : Prop where
  sized : Sized winW winH t.window
  display : t.display = s.display
  pixels : ∀ px py, px < sidebarX → py < winH → pixelAt t.window px py = pixelAt s.window px py

theorem SameBoard.refl (h : Sized winW winH s.window) : SameBoard s s := ⟨h, rfl, fun _ _ _ _ => rfl⟩

theorem SameBoard.paint (h : SameBoard s t) {color : UInt8} {S : Nat → Nat → Prop}
    {f : Canvas → Canvas} (hf : Paints winW winH color S f) (hS : ∀ px py, S px py → sidebarX ≤ px) :
    SameBoard s { t with window := f t.window } := by
  refine ⟨hf.sized h.sized, h.display, fun px py hpx hpy => ?_⟩
  rw [← h.pixels px py hpx hpy]
  refine hf.outside h.sized (Nat.lt_trans hpx (by decide)) hpy fun hin => ?_
  exact absurd (hS px py hin) (Nat.not_le_of_lt hpx)

theorem SameBoard.drawRect (h : SameBoard s t) {x y w hgt : Nat} {color : UInt8} (hx : sidebarX ≤ x)
    (hx' : x + w < 2147483648) (hy : y + hgt < 2147483648) :
    SameBoard s (drawRect x y w hgt color t) :=
  h.paint (drawRect_paints window_fits color hx' hy) fun _ _ hin => Nat.le_trans hx hin.1.1

theorem SameBoard.drawText (h : SameBoard s t) (font : Font) {y : Nat} {str : CString} {color : UInt8}
    (hlen : str.chars.length ≤ 11) : SameBoard s (drawText font sidebarX y str color t) := by
  refine h.paint (drawString_paints window_fits color ..) fun px py hin => ?_
  have hleft := hin.left (Int.natCast_nonneg _) (by unfold sidebarX fontSpacing; omega)
  exact Int.ofNat_le.mp hleft

theorem SameBoard.redrawNum (h : SameBoard s t) (font : Font) {y : Nat} (hy : y < winH) (n : Int) :
    SameBoard s (redrawNum font y n t) := by
  unfold winH at hy
  exact (h.drawRect (Nat.le_refl _) (by decide) (by omega)).drawText font (itos_length n)

theorem SameBoard.redrawNext (h : SameBoard s t) (np : Fin 7) : SameBoard s (redrawNext np t) := by
  have herased : SameBoard s (Tetris.drawRect sidebarX 112 35 35 colSidebar t) :=
    h.drawRect (Nat.le_refl _) (by decide) (by decide)
  unfold Tetris.redrawNext
  refine loop_keeps (SameBoard s) herased fun py hpy t ht =>
    loop_keeps (SameBoard s) ht fun px hpx t ht => ?_
  split
  · exact ht.drawRect (Nat.le_add_right ..) (by unfold sidebarX; omega) (by omega)
  · exact ht

theorem SameBoard.drawLabels (h : SameBoard s t) (font : Font) : SameBoard s (drawLabels font t) := by
  have hlen : ∀ l ∈ labels, (literal l.2.1).chars.length ≤ 11 := by decide
  unfold Tetris.drawLabels
  generalize labels = ls at hlen
  induction ls generalizing t with
  | nil => exact h
  | cons l ls ih =>
    rw [List.foldl_cons]
    exact ih (h.drawText font (hlen l List.mem_cons_self)) fun l hl => hlen l (List.mem_cons_of_mem _ hl)

theorem renderSidebar_sameBoard (h : Sized winW winH s.window) (font : Font) (g : Game) :
    SameBoard s (renderSidebar font g s) := by
  have hlabels : SameBoard s (refreshLabels font s) := by
    have hstart := SameBoard.refl h
    have hdrawn := hstart.drawLabels font
    unfold refreshLabels
    split
    · exact hstart
    · exact ⟨hdrawn.sized, hdrawn.display, hdrawn.pixels⟩
  have hscore : ∀ {t}, SameBoard s t → SameBoard s (refreshScore font g t) := by
    intro t ht
    have hdrawn := ht.redrawNum font (show 34 < winH by decide) g.score
    unfold refreshScore
    split
    · exact ⟨hdrawn.sized, hdrawn.display, hdrawn.pixels⟩
    · exact ht
  have hlines : ∀ {t}, SameBoard s t → SameBoard s (refreshLines font g t) := by
    intro t ht
    have hdrawn := ht.redrawNum font (show 58 < winH by decide) g.totalLines
    unfold refreshLines
    split
    · exact ⟨hdrawn.sized, hdrawn.display, hdrawn.pixels⟩
    · exact ht
  have hlevel : ∀ {t}, SameBoard s t → SameBoard s (refreshLevel font g t) := by
    intro t ht
    have hdrawn := ht.redrawNum font (show 82 < winH by decide) (int32 (g.level + 1))
    unfold refreshLevel
    split
    · exact ⟨hdrawn.sized, hdrawn.display, hdrawn.pixels⟩
    · exact ht
  have hnext : ∀ {t}, SameBoard s t → SameBoard s (refreshNext g t) := by
    intro t ht
    have hdrawn := ht.redrawNext g.np
    unfold refreshNext
    split
    · exact ⟨hdrawn.sized, hdrawn.display, hdrawn.pixels⟩
    · exact ht
  exact hnext (hlevel (hlines (hscore hlabels)))

theorem Tracks.sameBoard (h : Tracks font ended s) (hst : SameBoard s t) : Tracks font ended t := by
  refine ⟨hst.sized, fun px py hon hfree => ?_⟩
  obtain ⟨-, hpy, hpx, -⟩ := onBoard_cell hon
  rw [hst.pixels px py hpx hpy, hst.display]
  exact h.pixels px py hon hfree

/-! ### A frame -/

structure Rendered (font : Font) (g : Game) (s : Screen) : Prop where
  tracks : Tracks font (g.gameOver = true) s
  display : ∀ y < bh, ∀ x < bw, s.display y x = wanted g y x
  text : g.gameOver = true → ∀ px py, OnBoard px py → OverText font px py →
    pixelAt s.window px py = colText

/-- It does not matter what the window showed before, save that a text that was drawn is drawn
again. -/
theorem Tracks.render (h : Tracks font ended s) (hover : ended → g.gameOver = true) :
    Rendered font g (render font g s) := by
  obtain ⟨hboard, hdisplay⟩ := h.renderBoard g
  have hside := renderSidebar_sameBoard hboard.sized font g
  have htracks := hboard.sameBoard hside
  rw [← hside.display] at hdisplay
  unfold Tetris.render
  dsimp only
  split
  · rename_i hg
    have hpaint : Paints winW winH colText (OverText font) _ :=
      drawString_paints window_fits colText font (boardX + 10 : Nat) (boardY + 95 : Nat) (literal "GAME OVER")
    refine ⟨⟨hpaint.sized htracks.sized, fun px py hon hfree => ?_⟩, hdisplay,
      fun _ px py hon htext => ?_⟩
    · obtain ⟨hpx, hpy, -⟩ := onBoard_cell hon
      have houtside : ¬OverText font px py := fun htext => hfree ⟨hg, htext⟩
      exact (hpaint.outside htracks.sized hpx hpy houtside).trans
        (htracks.pixels px py hon fun hin => houtside hin.2)
    · obtain ⟨hpx, hpy, -⟩ := onBoard_cell hon
      exact hpaint.inside htracks.sized hpx hpy htext
  · rename_i hg
    have hnot : ¬ended := fun h => hg (hover h)
    exact ⟨⟨htracks.sized, fun px py hon _ => htracks.pixels px py hon fun hin => hnot hin.1⟩,
      hdisplay, fun h => absurd h hg⟩

theorem Rendered.next (h : Rendered font g s) (hover : g.gameOver = true → g'.gameOver = true) :
    Rendered font g' (render font g' s) := h.tracks.render hover

theorem renderInitial_rendered (g : Game) (h : Sized winW winH s.window) :
    Rendered font g (renderInitial font g s) := by
  have hall := drawRect_paints window_fits colSidebar (show 0 + winW < 2147483648 by decide)
    (show 0 + winH < 2147483648 by decide)
  have hboard := drawRect_paints window_fits colBg (show boardX + bw * cell < 2147483648 by decide)
    (show boardY + bh * cell < 2147483648 by decide)
  have hcleared := hall.sized h
  -- every cell shows the background and is recorded as background
  refine (show Tracks font False _ from
    ⟨hboard.sized hcleared, fun px py hon _ => ?_⟩).render False.elim
  obtain ⟨hpx, hpy, -⟩ := onBoard_cell hon
  exact hboard.inside hcleared hpx hpy hon

theorem Rendered.drawnFully (h : Rendered font g s) : DrawnFully font g s := by
  refine ⟨h.display, fun base hbase px py hon => ?_⟩
  obtain ⟨hpx, hpy, -, hrow, hcol⟩ := onBoard_cell hon
  obtain ⟨hfilled, hpixels⟩ := fillCells_pixels (wanted g) hbase
  have hcell : ¬(g.gameOver = true ∧ OverText font px py) →
      pixelAt s.window px py = pixelAt (fillCells (wanted g) base) px py := fun hfree => by
    rw [hpixels px py hon, ← h.display _ hrow _ hcol]
    exact h.tracks.pixels px py hon hfree
  unfold fullRender
  dsimp only
  split
  · rename_i hg
    have hpaint : Paints winW winH colText (OverText font) _ :=
      drawString_paints window_fits colText font (boardX + 10 : Nat) (boardY + 95 : Nat) (literal "GAME OVER")
    by_cases htext : OverText font px py
    · rw [h.text hg px py hon htext]
      exact (hpaint.inside hfilled hpx hpy htext).symm
    · rw [hcell fun hin => htext hin.2]
      exact (hpaint.outside hfilled hpx hpy htext).symm
  · rename_i hg
    exact hcell fun hin => hg hin.1

/-! ### The game between two frames -/

theorem steer_kept (c : Nat) (g : Game) : (steer c g).gameOver = g.gameOver ∧ (steer c g).board = g.board := by
  unfold steer
  dsimp only
  split_ifs <;> exact ⟨rfl, rfl⟩

theorem handleInput_gameOver {c : Nat} (h : handleInput c g = some g') :
    g'.gameOver = g.gameOver := by
  unfold handleInput at h
  split_ifs at h
  · cases h; rfl
  · cases h
    exact (steer_kept c g).1

theorem spawn_gameOver (h : g.gameOver = true) : (spawn g).gameOver = true := by
  unfold spawn
  dsimp only
  split
  · rfl
  · exact h

theorem awardLines_gameOver {n : Nat} (h : awardLines n g = some g') : g'.gameOver = g.gameOver := by
  obtain ⟨points, -, rfl⟩ := Option.map_eq_some_iff.mp h
  rfl

theorem fall_gameOver (hf : fall g = some g') (h : g.gameOver = true) : g'.gameOver = true := by
  unfold fall at hf
  split at hf
  · cases hf
    exact h
  · obtain ⟨⟨cl, board⟩, -, hf⟩ := Option.bind_eq_some_iff.mp hf
    obtain ⟨g1, hg1, rfl⟩ := Option.map_eq_some_iff.mp hf
    refine spawn_gameOver ?_
    split at hg1
    · rw [awardLines_gameOver hg1]
      exact h
    · cases hg1
      exact h

/-- Without a key the game is as it was; the game is never taken up again. -/
theorem drainEvents_cases {es : List Event} {dirty dirty' : Bool}
    (h : drainEvents es (g, dirty) = some (g', dirty')) :
    g'.gameOver = g.gameOver ∧ (dirty' = false → g' = g ∧ dirty = false) := by
  induction es generalizing g dirty with
  | nil =>
    cases h
    exact ⟨rfl, fun hd => ⟨rfl, hd⟩⟩
  | cons e es ih =>
    cases e with
    | keypress scancode c =>
      obtain ⟨g1, hg1, hes⟩ := Option.bind_eq_some_iff.mp h
      obtain ⟨hover, hclean⟩ := ih hes
      exact ⟨hover.trans (handleInput_gameOver hg1), fun hd => nomatch (hclean hd).2⟩
    | mouse click button x y => exact ih h

theorem gravity_cases {p p' : Program} {dirty dirty' : Bool}
    (h : gravity p dirty = some (p', dirty')) :
    p'.screen = p.screen ∧ (p.game.gameOver = true → p'.game.gameOver = true) ∧
      (dirty' = false → p'.game = p.game ∧ dirty = false) := by
  unfold gravity at h
  split at h
  · cases h
    exact ⟨rfl, id, fun hd => ⟨rfl, hd⟩⟩
  · split at h
    · obtain ⟨g1, hg1, he⟩ := Option.map_eq_some_iff.mp h
      cases he
      exact ⟨rfl, fall_gameOver hg1, fun hd => nomatch hd⟩
    · cases h
      exact ⟨rfl, id, fun hd => ⟨rfl, hd⟩⟩

/-- A frame renders a changed game, and leaves the screen of an unchanged one alone. -/
theorem frame_cases {p p' : Program} {i : Polled} (h : frame font p i = some p') :
    (p.game.gameOver = true → p'.game.gameOver = true) ∧
      (p'.screen = render font p'.game p.screen ∨ p'.game = p.game ∧ p'.screen = p.screen) := by
  obtain ⟨⟨g1, dirty⟩, hdrain, h⟩ := Option.bind_eq_some_iff.mp h
  dsimp only at h
  split at h
  · cases h
  · obtain ⟨⟨p1, dirty1⟩, hgrav, he⟩ := Option.map_eq_some_iff.mp h
    obtain ⟨hover, hclean⟩ := drainEvents_cases hdrain
    obtain ⟨hscreen, hover1, hclean1⟩ := gravity_cases hgrav
    have hkept : p.game.gameOver = true → p1.game.gameOver = true := fun h => hover1 (hover ▸ h)
    dsimp only at he
    split at he
    · cases he
      exact ⟨hkept, .inl (by rw [hscreen])⟩
    · rename_i hd
      obtain ⟨hgame1, hd⟩ := hclean1 (Bool.eq_false_iff.mpr hd)
      cases he
      exact ⟨hkept, .inr ⟨hgame1.trans (hclean hd).1, hscreen⟩⟩

/-! ### A frame returns -/

theorem awardLines_isSome {n : Nat} (g : Game) (hn : n ≤ 4) : (awardLines n g).isSome = true := by
  have hlt : n < pts.length := Nat.lt_succ_of_le hn
  rw [awardLines, List.getElem?_eq_getElem hlt]
  rfl

theorem spawn_board (g : Game) : (spawn g).board = g.board := by
  unfold spawn
  dsimp only
  split <;> rfl

/-- A board without full rows falls into one again; at most four rows were cleared. -/
theorem fall_returns (h : NoRowFull g.board) : ∃ g', fall g = some g' ∧ NoRowFull g'.board := by
  unfold fall
  split
  · exact ⟨_, rfl, h⟩
  · obtain ⟨b, hb, hnone⟩ := clearRows_returns (lockPiece g).board
    dsimp only
    rw [hb, Option.bind_some]
    dsimp only
    split
    · obtain ⟨g1, hg1⟩ := Option.isSome_iff_exists.mp
        (awardLines_isSome { lockPiece g with board := b } (lockPiece_fullRows h))
      have hboard : g1.board = b := by
        obtain ⟨points, -, rfl⟩ := Option.map_eq_some_iff.mp hg1
        rfl
      exact ⟨spawn g1, by rw [hg1]; rfl, by rw [spawn_board, hboard]; exact hnone⟩
    · exact ⟨_, rfl, by rw [spawn_board]; exact hnone⟩

def Quits (e : Event) : Prop := ∃ scancode c, e = .keypress scancode c ∧ isKey c 'q' 'Q' = true

theorem drainEvents_returns (es : List Event) (g : Game) (dirty : Bool) :
    (drainEvents es (g, dirty) = none ∧ ∃ e ∈ es, Quits e) ∨
      ∃ g' dirty', drainEvents es (g, dirty) = some (g', dirty') ∧ g'.board = g.board := by
  induction es generalizing g dirty with
  | nil => exact .inr ⟨g, dirty, rfl, rfl⟩
  | cons e es ih =>
    cases e with
    | keypress scancode c =>
      by_cases hq : isKey c 'q' 'Q' = true
      · refine .inl ⟨?_, _, List.mem_cons_self, scancode, c, rfl, hq⟩
        rw [drainEvents, handleInput, if_pos hq]
        rfl
      · have hkey : ∃ g1, handleInput c g = some g1 ∧ g1.board = g.board := by
          unfold handleInput
          rw [if_neg hq]
          split
          · exact ⟨g, rfl, rfl⟩
          · exact ⟨steer c g, rfl, (steer_kept c g).2⟩
        obtain ⟨g1, hg1, hboard⟩ := hkey
        rw [drainEvents, hg1, Option.bind_some]
        rcases ih g1 true with ⟨hnone, e, he, hquit⟩ | ⟨g', dirty', hes, hboard'⟩
        · exact .inl ⟨hnone, e, List.mem_cons_of_mem _ he, hquit⟩
        · exact .inr ⟨g', dirty', hes, hboard'.trans hboard⟩
    | mouse click button x y =>
      rcases ih g dirty with ⟨hnone, e, he, hquit⟩ | hrest
      · exact .inl ⟨hnone, e, List.mem_cons_of_mem _ he, hquit⟩
      · exact .inr hrest

theorem gravity_returns {p : Program} (dirty : Bool) (h : NoRowFull p.game.board) :
    ∃ p' dirty', gravity p dirty = some (p', dirty') ∧ NoRowFull p'.game.board := by
  unfold gravity
  split
  · exact ⟨p, dirty, rfl, h⟩
  · split
    · obtain ⟨g', hg', hnone⟩ := fall_returns h
      exact ⟨_, true, by rw [hg']; rfl, hnone⟩
    · exact ⟨_, dirty, rfl, h⟩

theorem frame_returns {p : Program} (font : Font) (i : Polled) (h : NoRowFull p.game.board) :
    (frame font p i = none ∧ (i.gone = true ∨ ∃ e ∈ i.events, Quits e)) ∨
      ∃ p', frame font p i = some p' ∧ NoRowFull p'.game.board := by
  unfold frame
  rcases drainEvents_returns i.events p.game false with ⟨hnone, hquit⟩ | ⟨g1, dirty, hdrain, hboard⟩
  · exact .inl ⟨by rw [hnone]; rfl, .inr hquit⟩
  · rw [hdrain, Option.bind_some]
    dsimp only
    split
    · exact .inl ⟨rfl, .inl ‹_›⟩
    · obtain ⟨p1, dirty1, hgrav, hnone⟩ :=
        gravity_returns (p := { p with game := g1 }) dirty (hboard ▸ h)
      rw [hgrav, Option.map_some]
      refine .inr ⟨_, rfl, ?_⟩
      dsimp only
      split <;> exact hnone

theorem newGame_noRowFull (uptime : UInt32) : NoRowFull (newGame uptime).board := by
  have hboard : (newGame uptime).board = fun _ _ => 0 := spawn_board _
  intro y _
  rw [hboard]
  exact List.all_eq_false.mpr ⟨0, List.mem_range.mpr (by decide), Bool.false_ne_true⟩

theorem start_game (font : Font) (uptime : UInt32) (c : Canvas) :
    (start font uptime c).game = newGame uptime := rfl

/-- The game goes on until q is pressed or its window is gone. -/
theorem game_goes_on {uptime : UInt32} {c : Canvas} {p : Program}
    (hr : Reach (frame font) anyStep (start font uptime c) p) (i : Polled) :
    (frame font p i).isSome = true ∨ i.gone = true ∨ ∃ e ∈ i.events, Quits e := by
  have hstart : NoRowFull (start font uptime c).game.board :=
    start_game font uptime c ▸ newGame_noRowFull uptime
  have hnone := hr.invariant (fun p => NoRowFull p.game.board) hstart
    fun p i p' hp _ hs => by
      rcases frame_returns font i hp with ⟨hend, -⟩ | ⟨p1, hp1, hnone⟩
      · rw [hs] at hend
        cases hend
      · rw [hs] at hp1
        cases hp1
        exact hnone
  rcases frame_returns font i hnone with ⟨-, hend⟩ | ⟨p', hp', -⟩
  · exact .inr hend
  · exact .inl (by rw [hp']; rfl)

theorem createCanvas_sized {heap : List Kmalloc.HeapBlock} {c : Canvas}
    (h : createCanvas heap windowRequest = some c) : Sized winW winH c := by
  unfold createCanvas at h
  dsimp only at h
  split at h
  · cases h
  · cases h
    exact ⟨rfl, rfl⟩

/-- After the first frame and after every later one, whatever keys are pressed, the board area of
the window is what drawing all its cells would give. -/
theorem board_drawn_fully {heap : List Kmalloc.HeapBlock} {c : Canvas} {uptime : UInt32}
    {p : Program} (hc : createCanvas heap windowRequest = some c)
    (hr : Reach (frame font) anyStep (start font uptime c) p) : DrawnFully font p.game p.screen := by
  have hinit : Rendered font (start font uptime c).game (start font uptime c).screen :=
    renderInitial_rendered _ (createCanvas_sized hc)
  refine (hr.invariant (fun p => Rendered font p.game p.screen) hinit
    fun p i p' hp _ hs => ?_).drawnFully
  obtain ⟨hover, hscreen | ⟨hgame, hscreen⟩⟩ := frame_cases hs
  · rw [hscreen]
    exact hp.next hover
  · rw [hgame, hscreen]
    exact hp

def leftKey : Polled := ⟨[.keypress 0x1E 97], false⟩

theorem leftKey_drawnFully : ∃ c p, createCanvas Kmalloc.initHeap windowRequest = some c ∧
    frame solidFont (start solidFont 5 c) leftKey = some p ∧ DrawnFully solidFont p.game p.screen := by
  have hserved : (createCanvas Kmalloc.initHeap windowRequest).isSome = true := by decide +kernel
  obtain ⟨c, hc⟩ := Option.isSome_iff_exists.mp hserved
  have hquit : ¬∃ e ∈ leftKey.events, Quits e := by
    rintro ⟨e, he, scancode, ch, rfl, hkey⟩
    cases List.mem_singleton.mp he
    exact absurd hkey (by decide)
  rcases game_goes_on (.refl : Reach (frame solidFont) anyStep (start solidFont 5 c) _) leftKey with
    hsome | hgone | hq
  · obtain ⟨p, hp⟩ := Option.isSome_iff_exists.mp hsome
    exact ⟨c, p, hc, hp, board_drawn_fully hc (.tail leftKey .refl trivial hp)⟩
  · cases hgone
  · exact absurd hq hquit

end AdamOS.Tetris
