import AdamOS.Programs.TetrisGame
import Mathlib.Algebra.BigOperators.Group.Finset.Piecewise
import Mathlib.Algebra.BigOperators.Group.Finset.Sigma
import Mathlib.Data.Finset.Prod
import Mathlib.Tactic.Ring

/-! The board of tetris.c row by row: what clear_rows leaves of it, and how many cells a lock fills. -/
namespace AdamOS.Tetris
open AdamOS.Loop AdamOS.Transition
variable {b b' : Grid (Fin 8)} {g g' : Game}

/-- clear_rows returns the number of full rows and leaves as many empty rows on top of the others, which keep
their order. -/
theorem clearRows_rows (b : Grid (Fin 8)) : ∃ b', clearRows b = some ((rows b).countP full, b') ∧
    rows b' = List.replicate ((rows b).countP full) emptyRow ++ (rows b).filter fun row => !full row :=
  clearRows_cleared b

/-! ### Filled cells -/

def cells (row : List (Fin 8)) : Nat := row.countP occupied

def filled (b : Grid (Fin 8)) : Nat := ((rows b).map cells).sum

def cellsAbove (g : Game) : Nat :=
  ((Finset.range 4 ×ˢ Finset.range 4).filter fun q => pcell g.cp g.cr q.2 q.1 ∧ g.cy + q.1 < 0).card

theorem cells_full {row : List (Fin 8)} (h : full row = true) : cells row = row.length :=
  List.countP_eq_length.mpr fun v hv => List.all_eq_true.mp h v hv

/-- Taking the full rows out takes out bw cells for each. -/
theorem sum_cells_filter (rs : List (List (Fin 8))) (hlen : ∀ row ∈ rs, row.length = bw) :
    ((rs.filter fun row => !full row).map cells).sum + bw * rs.countP full = (rs.map cells).sum := by
  induction rs with
  | nil => rfl
  | cons row rs ih =>
    have hrest := ih fun r hr => hlen r (List.mem_cons_of_mem _ hr)
    rw [List.map_cons, List.sum_cons, ← hrest, List.countP_cons]
    by_cases hfull : full row = true
    · rw [List.filter_cons_of_neg (by rw [hfull]; exact Bool.false_ne_true), if_pos hfull, cells_full hfull,
        hlen row List.mem_cons_self]
      ring
    · rw [List.filter_cons_of_pos (by rw [Bool.eq_false_iff.mpr hfull]; rfl), if_neg hfull, List.map_cons,
        List.sum_cons, Nat.add_zero, Nat.add_assoc]

theorem rows_length (b : Grid (Fin 8)) : ∀ row ∈ rows b, row.length = bw := by
  intro row hrow
  obtain ⟨y, -, rfl⟩ := List.mem_map.mp hrow
  rw [boardRow, List.length_map, List.length_range]

theorem filled_clear {k : Nat} (h : rows b' = List.replicate k emptyRow ++ (rows b).filter fun row => !full row) :
    filled b' = (((rows b).filter fun row => !full row).map cells).sum := by
  have hempty : cells emptyRow = 0 := by decide
  rw [filled, h, List.map_append, List.sum_append, List.map_replicate, hempty, List.sum_replicate_nat,
    Nat.mul_zero, Nat.zero_add]

/-! ### The cells of a lock -/

def boardCells : Finset (Nat × Nat) := Finset.range bh ×ˢ Finset.range bw
def filledCells (b : Grid (Fin 8)) : Finset (Nat × Nat) := boardCells.filter fun q => occupied (b q.1 q.2)

theorem sum_range_list (f : Nat → Nat) (n : Nat) :
    ∑ y ∈ Finset.range n, f y = ((List.range n).map f).sum := rfl

theorem countP_range (p : Nat → Bool) (n : Nat) :
    (List.range n).countP p = ∑ x ∈ Finset.range n, if p x then 1 else 0 := by
  induction n with
  | zero => rfl
  | succ n ih => rw [Finset.sum_range_succ, ← ih, List.range_succ, List.countP_append, List.countP_singleton]

theorem filled_eq_card (b : Grid (Fin 8)) : filled b = (filledCells b).card := by
  have hrow : ∀ y, cells (boardRow b y) = ∑ x ∈ Finset.range bw, if occupied (b y x) then 1 else 0 := fun y => by
    rw [cells, boardRow, List.countP_map, countP_range]
    rfl
  rw [filledCells, Finset.card_filter, boardCells, Finset.sum_product, filled, rows, topRows, List.map_map,
    ← sum_range_list]
  exact Finset.sum_congr rfl fun y _ => hrow y

def pieceCells (g : Game) : Finset (Nat × Nat) :=
  (Finset.range 4 ×ˢ Finset.range 4).filter fun q => pcell g.cp g.cr q.2 q.1

def placed (g : Game) (q : Nat × Nat) : Nat × Nat := ((g.cy + q.1).toNat, (g.cx + q.2).toNat)

theorem mem_pieceCells {q : Nat × Nat} :
    q ∈ pieceCells g ↔ (q.1 < 4 ∧ q.2 < 4) ∧ pcell g.cp g.cr q.2 q.1 = true := by
  rw [pieceCells, Finset.mem_filter, Finset.mem_product, Finset.mem_range, Finset.mem_range]

theorem card_pieceCells (g : Game) : (pieceCells g).card = 4 := by
  have hall : ∀ (p : Fin 7) (r : Fin 4),
      ((Finset.range 4 ×ˢ Finset.range 4).filter fun q => pcell p r q.2 q.1).card = 4 := by decide +kernel
  exact hall g.cp g.cr

/-- A lock writes to the cells of the piece that are on the board, and to no other. -/
theorem lockPiece_cells (g : Game) :
    (∀ y x, (∀ q ∈ pieceCells g, onBoard (g.cx + q.2) (g.cy + q.1) → placed g q ≠ (y, x)) →
        (lockPiece g).board y x = g.board y x) ∧
      ∀ gy < 4, ∀ gx < 4, pcell g.cp g.cr gx gy = true → onBoard (g.cx + gx) (g.cy + gy) →
        (lockPiece g).board (g.cy + gy).toNat (g.cx + gx).toNat = g.cp.succ := by
  let inv (b : Grid (Fin 8)) : Prop := ∀ y x,
    (∀ q ∈ pieceCells g, onBoard (g.cx + q.2) (g.cy + q.1) → placed g q ≠ (y, x)) → b y x = g.board y x
  let post (gy gx : Nat) (b : Grid (Fin 8)) : Prop :=
    pcell g.cp g.cr gx gy = true → onBoard (g.cx + gx) (g.cy + gy) →
      b (g.cy + gy).toNat (g.cx + gx).toNat = g.cp.succ
  unfold lockPiece stamp
  refine loop_each_cell inv post (fun _ _ _ => rfl) (fun gy hgy gx hgx b hb y x hfree => ?_)
    (fun gy _ gx _ b _ hcell hon => ?_) fun gy _ gx _ gy' _ gx' _ b _ hpost hcell hon => ?_
  · split
    · rename_i hset
      have hother := hfree (gy, gx) (mem_pieceCells.mpr ⟨⟨hgy, hgx⟩, hset.1⟩) hset.2.1
      refine (if_neg fun hat => hother ?_).trans (hb y x hfree)
      rw [hat.1, hat.2, placed]
    · exact hb y x hfree
  · rw [if_pos ⟨hcell, hon, rfl⟩]
    exact if_pos ⟨rfl, rfl⟩
  · split
    · unfold setCell
      split
      · rfl
      · exact hpost hcell hon
    · exact hpost hcell hon

/-- The cells of a piece that fits are on the board or above it. -/
theorem PieceFree.onBoard_iff (h : PieceFree g) {q : Nat × Nat} (hq : q ∈ pieceCells g) :
    onBoard (g.cx + q.2) (g.cy + q.1) ↔ ¬g.cy + q.1 < 0 := by
  obtain ⟨⟨hgy, hgx⟩, hcell⟩ := mem_pieceCells.mp hq
  obtain ⟨hcol, hrow, -⟩ := h q.1 hgy q.2 hgx hcell
  unfold onBoard
  omega

/-- Locking a piece that fits fills the cells that were free under it. -/
theorem filledCells_lock (h : PieceFree g) : filledCells (lockPiece g).board =
    filledCells g.board ∪ ((pieceCells g).filter fun q => ¬g.cy + q.1 < 0).image (placed g) := by
  obtain ⟨hkept, hset⟩ := lockPiece_cells g
  ext ⟨y, x⟩
  rw [Finset.mem_union, Finset.mem_image, filledCells, filledCells, Finset.mem_filter, Finset.mem_filter]
  by_cases hat : ∃ q ∈ pieceCells g, onBoard (g.cx + q.2) (g.cy + q.1) ∧ placed g q = (y, x)
  · obtain ⟨q, hq, hon, hplace⟩ := hat
    obtain ⟨⟨hgy, hgx⟩, hcell⟩ := mem_pieceCells.mp hq
    have hv := hset q.1 hgy q.2 hgx hcell hon
    obtain ⟨hy, hx⟩ := Prod.mk.inj hplace
    rw [hy, hx] at hv
    refine iff_of_true ⟨?_, ?_⟩ (.inr ⟨q, Finset.mem_filter.mpr ⟨hq, (h.onBoard_iff hq).mp hon⟩, hplace⟩)
    · unfold onBoard at hon
      rw [boardCells, Finset.mem_product, Finset.mem_range, Finset.mem_range]
      dsimp only
      omega
    · rw [hv]
      exact (occupied_iff _).mpr (Fin.succ_ne_zero _)
  · have hsame := hkept y x fun q hq hon hplace => hat ⟨q, hq, hon, hplace⟩
    dsimp only
    rw [hsame]
    refine ⟨.inl, fun hor => hor.resolve_right ?_⟩
    rintro ⟨q, hq, hplace⟩
    obtain ⟨hq, hbelow⟩ := Finset.mem_filter.mp hq
    exact hat ⟨q, hq, (h.onBoard_iff hq).mpr hbelow, hplace⟩

/-- A lock fills four cells, but for those above the board. -/
theorem filled_lock (h : PieceFree g) : filled (lockPiece g).board + cellsAbove g = filled g.board + 4 := by
  have hinj : Set.InjOn (placed g) ((pieceCells g).filter fun q => ¬g.cy + q.1 < 0) := by
    intro q hq q' hq' he
    obtain ⟨hq, hbelow⟩ := Finset.mem_filter.mp hq
    obtain ⟨hq', hbelow'⟩ := Finset.mem_filter.mp hq'
    have hon := (h.onBoard_iff hq).mpr hbelow
    have hon' := (h.onBoard_iff hq').mpr hbelow'
    obtain ⟨hy, hx⟩ := Prod.mk.inj he
    unfold onBoard at hon hon'
    exact Prod.ext (by omega) (by omega)
  have hdisjoint : Disjoint (filledCells g.board)
      (((pieceCells g).filter fun q => ¬g.cy + q.1 < 0).image (placed g)) := by
    rw [Finset.disjoint_right]
    intro c hc hfilled
    obtain ⟨q, hq, rfl⟩ := Finset.mem_image.mp hc
    obtain ⟨hq, hbelow⟩ := Finset.mem_filter.mp hq
    obtain ⟨⟨hgy, hgx⟩, hcell⟩ := mem_pieceCells.mp hq
    have hempty := (h q.1 hgy q.2 hgx hcell).2.2 (Int.not_lt.mp hbelow)
    exact (occupied_iff _).mp (Finset.mem_filter.mp hfilled).2 hempty
  have habove : cellsAbove g = ((pieceCells g).filter fun q => g.cy + q.1 < 0).card := by
    rw [cellsAbove, pieceCells, Finset.filter_filter]
  rw [filled_eq_card, filled_eq_card, filledCells_lock h, Finset.card_union_of_disjoint hdisjoint,
    Finset.card_image_of_injOn hinj, habove]
  have hall := Finset.card_filter_add_card_filter_not (s := pieceCells g) fun q => g.cy + q.1 < 0
  rw [card_pieceCells] at hall
  omega

/-! ### A lock in a game -/

theorem fall_board {k : Nat} (hlock : collides g.board g.cp g.cr g.cx (g.cy + 1) = true)
    (hb : clearRows (lockPiece g).board = some (k, b)) (hf : fall g = some g') : g'.board = b := by
  unfold fall at hf
  rw [hlock] at hf
  obtain ⟨⟨n, b1⟩, hclear, hf⟩ := Option.bind_eq_some_iff.mp hf
  obtain ⟨rfl, rfl⟩ := Prod.mk.inj (Option.some.inj (hb.symm.trans hclear))
  obtain ⟨g1, hg1, rfl⟩ := Option.map_eq_some_iff.mp hf
  rw [spawn_board]
  split at hg1
  · obtain ⟨points, -, rfl⟩ := Option.map_eq_some_iff.mp hg1
    rfl
  · cases hg1
    rfl

/-- A piece that gravity locks adds its four cells, but for those above the board, and every full row
takes bw cells away. -/
theorem lock_counts {font : Drawing.Font} {uptime : UInt32} {c : Drawing.Canvas} {p : Program}
    {es : List Windows.Event} {dirty : Bool} (h : Reach (frame font) anyStep (start font uptime c) p)
    (hdrain : drainEvents es (p.game, false) = some (g, dirty)) (hover : g.gameOver = false)
    (hlock : collides g.board g.cp g.cr g.cx (g.cy + 1) = true) :
    ∃ k b g', clearRows (lockPiece g).board = some (k, b) ∧ fall g = some g' ∧ g'.board = b ∧
      filled b + 10 * k + cellsAbove g = filled g.board + 4 := by
  have hkept : RulesKept g := (drainEvents_turns hdrain).invariant RulesKept (frames_keep_rules h)
    fun _ _ _ hk _ ht => hk.next ht
  obtain ⟨b, hb, hrows⟩ := clearRows_cleared (lockPiece g).board
  obtain ⟨g', hg', -⟩ := fall_returns hkept.rows
  have hclear := sum_cells_filter _ (rows_length (lockPiece g).board)
  rw [← filled_clear hrows] at hclear
  refine ⟨_, b, g', hb, hg', fall_board hlock hb hg', ?_⟩
  rw [← filled_lock (hkept.free hover)]
  exact congrArg (· + cellsAbove g) hclear

/-! ### A tower in column 0 -/

def tetrisWindow : Drawing.Canvas :=
  (Drawing.createCanvas Kmalloc.initHeap windowRequest).getD ⟨[], 0, 0, 0, fun _ => 0, 0⟩

/- 694877 ticks after the start of the clock the first six pieces are I. -/
def towerStart : Program := start Drawing.solidFont 694877 tetrisWindow

def typed (keys : String) : Polled := ⟨keys.toList.map fun c => .keypress 0 c.toNat, false⟩
def idle (n : Nat) : List Polled := List.replicate n ⟨[], false⟩

/- An I that lies on the floor, up to the frame that locks it. -/
def lyingTurns : List Polled := typed "aaa " :: idle 18

/- Four more that stand on its left end, and a fifth that ends in row -1. -/
def towerTurns : List Polled :=
  lyingTurns ++ (List.replicate 5 (idle 1 ++ typed "waaaaa " :: idle 18)).flatten

theorem lyingTurns_counts : ∃ p, Reach (frame Drawing.solidFont) anyStep towerStart p ∧
    ∃ k b g', clearRows (lockPiece p.game).board = some (k, b) ∧ fall p.game = some g' ∧ g'.board = b ∧
      filled b + 10 * k + cellsAbove p.game = filled p.game.board + 4 := by
  obtain ⟨p, hr, hover, hlock⟩ : ∃ p, Reach (frame Drawing.solidFont) anyStep towerStart p ∧
      p.game.gameOver = false ∧
        collides p.game.board p.game.cp p.game.cr p.game.cx (p.game.cy + 1) = true :=
    reach_of_test lyingTurns (guarded_anyStep _ _) (by decide +kernel)
  have hdrain : drainEvents [] (p.game, false) = some (p.game, false) := rfl
  exact ⟨p, hr, lock_counts hr hdrain hover hlock⟩

/-- The fifth piece of the tower loses a cell, and the game goes on. -/
theorem towerTurns_lose : Drawing.createCanvas Kmalloc.initHeap windowRequest = some tetrisWindow ∧
    ∃ p k b g', Reach (frame Drawing.solidFont) anyStep towerStart p ∧ p.game.gameOver = false ∧
      collides p.game.board p.game.cp p.game.cr p.game.cx (p.game.cy + 1) = true ∧
      clearRows (lockPiece p.game).board = some (k, b) ∧ fall p.game = some g' ∧ g'.gameOver = false ∧
      filled b + 10 * k ≠ filled p.game.board + 4 := by
  have hserved : (Drawing.createCanvas Kmalloc.initHeap windowRequest).isSome = true := by decide +kernel
  obtain ⟨c, hc⟩ := Option.isSome_iff_exists.mp hserved
  refine ⟨by rw [tetrisWindow, hc, Option.getD_some], ?_⟩
  obtain ⟨p, hr, hover, hlock, hcells, hgoes⟩ :
      ∃ p, Reach (frame Drawing.solidFont) anyStep towerStart p ∧ p.game.gameOver = false ∧
        collides p.game.board p.game.cp p.game.cr p.game.cx (p.game.cy + 1) = true ∧
        ((clearRows (lockPiece p.game).board).any fun r =>
          decide (filled r.2 + 10 * r.1 ≠ filled p.game.board + 4)) = true ∧
        ((fall p.game).any fun g' => !g'.gameOver) = true :=
    reach_of_test towerTurns (guarded_anyStep _ _) (by decide +kernel)
  obtain ⟨⟨k, b⟩, hclear, hcells⟩ := (Option.any_eq_true _ _).mp hcells
  obtain ⟨g', hg', hgoes⟩ := (Option.any_eq_true _ _).mp hgoes
  exact ⟨p, k, b, g', hr, hover, hlock, hclear, hg', Bool.not_eq_true' _ ▸ hgoes, of_decide_eq_true hcells⟩

end AdamOS.Tetris
