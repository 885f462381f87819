import AdamOS.Programs.Tetris

/-! The rules of tetris.c along whole games, whatever the random numbers are: the active piece is
clear of walls, floor and locked cells while the game goes on, and a lock finds no full row. -/
namespace AdamOS.Tetris
open AdamOS.Transition

/- A key that is not q, or one step of gravity. The state of the random number generator is an
   input, so that every sequence of pieces is played. -/
inductive Turn where
  | key (c : Nat)
  | gravity (rng : UInt32)

def turn (g : Game) : Turn → Option Game
  | .key c => handleInput c g
  | .gravity rng => if g.gameOver then some g else fall { g with rng := rng }

structure RulesKept (g : Game) : Prop where
  free : g.gameOver = false → PieceFree g
  rows : NoRowFull g.board
  /- what clear_rows and award_lines do if the piece is locked now -/
  lock : ∃ n b, clearRows (lockPiece g).board = some (n, b) ∧ n ≤ 4 ∧
    (awardLines n { lockPiece g with board := b }).isSome = true

section rules
variable {g g' : Game}

/-- Every piece is drawn for some state of the generator. -/
theorem rand7_surjective (p : Fin 7) : ∃ rng, (rand7 rng).1 = p := by
  have hsome : ∀ p : Fin 7, ∃ k < 40, (rand7 (UInt32.ofNat k)).1 = p := by decide +kernel
  obtain ⟨k, -, hk⟩ := hsome p
  exact ⟨_, hk⟩

theorem blocked_iff {b : Grid (Fin 8)} {x y : Int} : blocked b x y = false ↔
    (0 ≤ x ∧ x < bw) ∧ y < bh ∧ (0 ≤ y → b y.toNat x.toNat = 0) := by
  unfold blocked
  simp only [Bool.or_eq_false_iff, Bool.and_eq_false_iff, decide_eq_false_iff_not,
    bne_eq_false_iff_eq, Int.not_lt, ge_iff_le, Int.not_le]
  constructor
  · rintro ⟨⟨⟨hl, hr⟩, hy⟩, hcell⟩
    exact ⟨⟨hl, hr⟩, hy, fun h => hcell.resolve_left (Int.not_lt.mpr h)⟩
  · rintro ⟨⟨hl, hr⟩, hy, hcell⟩
    exact ⟨⟨⟨hl, hr⟩, hy⟩, (Int.lt_or_le y 0).imp id hcell⟩

theorem pieceFree_iff : PieceFree g ↔ collides g.board g.cp g.cr g.cx g.cy = false := by
  unfold PieceFree collides
  rw [List.any_eq_false]
  constructor
  · intro h gy hgy
    refine Bool.eq_false_iff.mp (List.any_eq_false.mpr fun gx hgx hhit => ?_)
    obtain ⟨hcell, hblocked⟩ := (Bool.and_eq_true _ _).mp hhit
    have hfree := h gy (List.mem_range.mp hgy) gx (List.mem_range.mp hgx) hcell
    rw [blocked_iff.mpr hfree] at hblocked
    cases hblocked
  · intro h gy hgy gx hgx hcell
    refine blocked_iff.mp (Bool.eq_false_iff.mpr fun hblocked => ?_)
    refine h gy (List.mem_range.mpr hgy) (List.any_eq_true.mpr ⟨gx, List.mem_range.mpr hgx, ?_⟩)
    rw [hcell, hblocked]
    rfl

/-! ### Keys -/

/-- The loop of a falling piece never enters a place that is taken. -/
theorem dropFrom_free {n : Nat} {y : Int} (h : collides g.board g.cp g.cr g.cx y = false) :
    collides g.board g.cp g.cr g.cx (dropFrom g n y) = false := by
  induction n generalizing y with
  | zero => exact h
  | succ n ih =>
    rw [dropFrom]
    split
    · exact h
    · rename_i hnext
      exact ih (Bool.eq_false_iff.mpr hnext)

theorem landing_free (h : collides g.board g.cp g.cr g.cx g.cy = false) :
    collides g.board g.cp g.cr g.cx (landing g) = false := by
  unfold landing
  exact dropFrom_free h

theorem steer_free (c : Nat) (h : collides g.board g.cp g.cr g.cx g.cy = false) :
    collides (steer c g).board (steer c g).cp (steer c g).cr (steer c g).cx (steer c g).cy = false := by
  unfold steer
  split
  · by_cases hleft : collides g.board g.cp g.cr (g.cx - 1) g.cy = true
    · rw [if_pos hleft]
      exact h
    · rw [if_neg hleft]
      exact Bool.eq_false_iff.mpr hleft
  split
  · by_cases hright : collides g.board g.cp g.cr (g.cx + 1) g.cy = true
    · rw [if_pos hright]
      exact h
    · rw [if_neg hright]
      exact Bool.eq_false_iff.mpr hright
  split
  · dsimp only
    -- in place, or one cell to the left or to the right
    split
    · rename_i hturn
      simpa using hturn
    split
    · rename_i hleft
      simpa using hleft
    split
    · rename_i hright
      simpa using hright
    · exact h
  split
  · by_cases hdown : collides g.board g.cp g.cr g.cx (g.cy + 1) = true
    · rw [if_pos hdown]
      exact h
    · rw [if_neg hdown]
      exact Bool.eq_false_iff.mpr hdown
  split
  · have hland := landing_free h
    generalize landing g = y at hland ⊢
    exact hland
  · exact h

/-! ### Gravity -/

theorem spawn_free (h : (spawn g).gameOver = false) : PieceFree (spawn g) := by
  rw [pieceFree_iff]
  unfold spawn at h ⊢
  dsimp only at h ⊢
  split at h
  · cases h
  · rename_i hfree
    rw [if_neg hfree]
    exact Bool.eq_false_iff.mpr hfree

/-- A lock fills no more than four rows, and the table of award_lines has an entry for each. -/
theorem lock_awarded (h : NoRowFull g.board) : ∃ n b, clearRows (lockPiece g).board = some (n, b) ∧
    n ≤ 4 ∧ (awardLines n { lockPiece g with board := b }).isSome = true := by
  obtain ⟨b, hb, -⟩ := clearRows_returns (lockPiece g).board
  have hfew := lockPiece_fullRows h
  exact ⟨_, b, hb, hfew, awardLines_isSome _ hfew⟩

theorem fall_free (hf : fall g = some g') (hover : g'.gameOver = false) :
    PieceFree g' := by
  unfold fall at hf
  split at hf
  · rename_i hfree
    cases hf
    exact pieceFree_iff.mpr (by simpa using hfree)
  · obtain ⟨⟨cl, board⟩, -, hf⟩ := Option.bind_eq_some_iff.mp hf
    obtain ⟨g1, -, rfl⟩ := Option.map_eq_some_iff.mp hf
    exact spawn_free hover

theorem openGame_kept (np : Fin 7) (rng : UInt32) : RulesKept (openGame np rng) := by
  have hrows : NoRowFull (openGame np rng).board := by
    have hboard : (openGame np rng).board = fun _ _ => 0 := spawn_board _
    intro y _
    rw [hboard]
    exact List.all_eq_false.mpr ⟨0, List.mem_range.mpr (by decide), Bool.false_ne_true⟩
  exact ⟨spawn_free, hrows, lock_awarded hrows⟩

theorem RulesKept.next {i : Turn} (h : RulesKept g) (ht : turn g i = some g') : RulesKept g' := by
  cases i with
  | key c =>
    unfold turn handleInput at ht
    dsimp only at ht
    split at ht
    · cases ht
    split at ht
    · cases ht
      exact h
    · rename_i hover
      cases ht
      have hrows : NoRowFull (steer c g).board := by
        rw [(steer_kept ..).2]
        exact h.rows
      have hfree := pieceFree_iff.mp (h.free (Bool.eq_false_iff.mpr hover))
      exact ⟨fun _ => pieceFree_iff.mpr (steer_free c hfree), hrows, lock_awarded hrows⟩
  | gravity rng =>
    unfold turn at ht
    dsimp only at ht
    split at ht
    · cases ht
      exact h
    · obtain ⟨g1, hg1, hrows⟩ := @fall_returns { g with rng := rng } h.rows
      rw [hg1] at ht
      cases ht
      exact ⟨fall_free hg1, hrows, lock_awarded hrows⟩

/-- In every game, whatever keys are pressed and whatever pieces come, the active piece fits while
the game goes on, and a lock clears four rows at most. -/
theorem rules_kept {np : Fin 7} {rng : UInt32} (h : Reach turn anyStep (openGame np rng) g) :
    RulesKept g :=
  h.invariant RulesKept (openGame_kept np rng) fun _ _ _ hk _ ht => hk.next ht

/-! ### The program's frames are turns -/

theorem drainEvents_turns {es : List Windows.Event} {s s' : Game × Bool}
    (h : drainEvents es s = some s') : Reach turn anyStep s.1 s'.1 := by
  induction es generalizing s with
  | nil =>
    cases h
    exact .refl
  | cons e es ih =>
    cases e with
    | keypress scancode c =>
      obtain ⟨g1, hg1, hes⟩ := Option.bind_eq_some_iff.mp h
      exact (Reach.tail (.key c) .refl trivial hg1).trans (ih hes)
    | mouse click button x y => exact ih h

theorem gravity_turns {p p' : Program} {dirty dirty' : Bool}
    (h : gravity p dirty = some (p', dirty')) : Reach turn anyStep p.game p'.game := by
  unfold gravity at h
  split at h
  · cases h
    exact .refl
  · rename_i hover
    split at h
    · obtain ⟨g1, hg1, he⟩ := Option.map_eq_some_iff.mp h
      cases he
      refine .tail (.gravity p.game.rng) .refl trivial ?_
      unfold turn
      dsimp only
      rw [if_neg hover]
      exact hg1
    · cases h
      exact .refl

/-- A frame is the keys of its events, then gravity with the program's own random number. -/
theorem frame_turns {font : Drawing.Font} {p p' : Program} {i : Polled} (h : frame font p i = some p') :
    Reach turn anyStep p.game p'.game := by
  obtain ⟨⟨g1, dirty⟩, hdrain, h⟩ := Option.bind_eq_some_iff.mp h
  dsimp only at h
  split at h
  · cases h
  · obtain ⟨⟨p1, dirty1⟩, hgrav, he⟩ := Option.map_eq_some_iff.mp h
    have hgame : p'.game = p1.game := by
      rw [← he]
      dsimp only
      split <;> rfl
    exact hgame ▸ (drainEvents_turns hdrain).trans (gravity_turns hgrav)

/-- The rules hold after every frame of the program. -/
theorem frames_keep_rules {font : Drawing.Font} {uptime : UInt32} {c : Drawing.Canvas} {p : Program}
    (h : Reach (frame font) anyStep (start font uptime c) p) : RulesKept p.game := by
  refine h.invariant (fun p => RulesKept p.game) (openGame_kept _ _) fun p i p' hk _ hf => ?_
  exact (frame_turns hf).invariant RulesKept hk fun _ _ _ hk _ ht => hk.next ht

end rules

/-! ### A game -/

/- A rotation, two moves, a slam and the lock, which another piece follows. -/
def slamTurns : List Turn := [.key 119, .key 97, .key 97, .key 32, .gravity 3, .gravity 7]

theorem slamTurns_kept : ∃ g, Reach turn anyStep (openGame 0 1) g ∧ g.gameOver = false ∧
    RulesKept g := by
  obtain ⟨g, hr, hover⟩ : ∃ g, Reach turn anyStep (openGame 0 1) g ∧ g.gameOver = false :=
    reach_of_test slamTurns (guarded_anyStep _ _) (by decide +kernel)
  exact ⟨g, hr, hover, rules_kept hr⟩

end AdamOS.Tetris
