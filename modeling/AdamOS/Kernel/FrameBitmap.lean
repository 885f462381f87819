import AdamOS.Kernel.Frame
import AdamOS.Lib.BitArray
import AdamOS.Lib.Transition
import Mathlib.Data.Finset.Basic
import Mathlib.Order.Bounds.Defs

/-! frame.c on the words of frames_bitmap: the frames handed out and not taken back are a set, and
allocate_frame takes the least frame outside it. -/
namespace AdamOS.Frames
open AdamOS.BitArray AdamOS.Loop AdamOS.Transition
open AdamOS.Paging (numFrames)

def pageSize : Nat := 4096

/- The mask of a frame is 1 << frame % 32, as a word of frames_bitmap. -/
def testFrame (frame : Nat) (words : Nat → BitVec 32) : Bool :=
  words (frame / 32) &&& mask 32 frame != 0#32

def setFrame (frame : Nat) (words : Nat → BitVec 32) : Nat → BitVec 32 :=
  modify words frame (· ||| mask 32 frame)

def clearFrame (frame : Nat) (words : Nat → BitVec 32) : Nat → BitVec 32 :=
  modify words frame (· &&& ~~~mask 32 frame)

def initFrames (words : Nat → BitVec 32) : Nat → BitVec 32 :=
  setFrame 0 (loop numFrames clearFrame words)

def allocateFrom : Nat → Nat → (Nat → BitVec 32) → Nat × (Nat → BitVec 32)
  | 0, _, words => (0, words)
  | k+1, i, words =>
    if testFrame i words then allocateFrom k (i + 1) words else (i * pageSize, setFrame i words)

def allocateFrame (words : Nat → BitVec 32) : Nat × (Nat → BitVec 32) :=
  allocateFrom (numFrames - 1) 1 words

def freeFrame (frame : Nat) (words : Nat → BitVec 32) : Nat → BitVec 32 :=
  if frame = 0 then words else clearFrame (frame / pageSize) words

/-! ### Calls -/

inductive Call where
  | allocate
  | free (frame : Nat)
deriving DecidableEq

structure State where
  words : Nat → BitVec 32
  /- the frames that allocate_frame has returned and free_frame has not been given -/
  allocated : Finset Nat

def start (words : Nat → BitVec 32) : State := ⟨initFrames words, ∅⟩

/- free_frame is given 0 or the address of an allocated frame. -/
def step (s : State) : Call → Option State
  | .allocate =>
    let r := allocateFrame s.words
    some ⟨r.2, if r.1 = 0 then s.allocated else insert (r.1 / pageSize) s.allocated⟩
  | .free frame =>
    if frame = 0 then some ⟨freeFrame frame s.words, s.allocated⟩
    else if frame % pageSize = 0 ∧ frame / pageSize ∈ s.allocated then
      some ⟨freeFrame frame s.words, s.allocated.erase (frame / pageSize)⟩
    else none

/-! ### One frame -/

structure FirstClear (words : Nat → BitVec 32) (lo hi f : Nat) : Prop where
  low : lo ≤ f
  lt : f < hi
  clear : testFrame f words = false
  set : ∀ g, lo ≤ g → g < f → testFrame g words = true

section
variable {words : Nat → BitVec 32} {f g : Nat}

theorem testFrame_bit : testFrame f words = bit words f := and_mask (by decide) f

@[simp] theorem testFrame_setFrame :
    testFrame g (setFrame f words) = if g = f then true else testFrame g words := by
  rw [testFrame_bit, testFrame_bit]
  exact bit_or (by decide)

@[simp] theorem testFrame_clearFrame :
    testFrame g (clearFrame f words) = if g = f then false else testFrame g words := by
  rw [testFrame_bit, testFrame_bit]
  exact bit_andNot (by decide)

theorem testFrame_initFrames (hf : f < numFrames) : testFrame f (initFrames words) = decide (f = 0) := by
  have hclear : ∀ f < numFrames, testFrame f (loop numFrames clearFrame words) = false :=
    loop_invariant (fun k words => ∀ f < k, testFrame f words = false)
      (fun f hf => absurd hf (Nat.not_lt_zero f)) fun i _ words h f hf => by
        rw [testFrame_clearFrame]
        split
        · rfl
        · exact h f (by omega)
  rw [initFrames, testFrame_setFrame, hclear f hf]
  by_cases h : f = 0
  · rw [if_pos h, decide_eq_true h]
  · rw [if_neg h, decide_eq_false h]

theorem FirstClear.next {lo hi : Nat} (h : FirstClear words (lo + 1) hi f) (hlo : testFrame lo words = true) :
    FirstClear words lo hi f where
  low := Nat.le_of_succ_le h.low
  lt := h.lt
  clear := h.clear
  set g hg hgf := by
    rcases Nat.eq_or_lt_of_le hg with rfl | hlt
    · exact hlo
    · exact h.set g hlt hgf

/-- The search ends at the first clear bit, or finds all bits set. -/
theorem allocateFrom_cases (k i : Nat) (words : Nat → BitVec 32) :
    (∃ f, FirstClear words i (i + k) f ∧ allocateFrom k i words = (f * pageSize, setFrame f words)) ∨
    ((∀ g, i ≤ g → g < i + k → testFrame g words = true) ∧ allocateFrom k i words = (0, words)) := by
  induction k generalizing i with
  | zero => exact .inr ⟨fun g h h' => by omega, rfl⟩
  | succ k ih =>
    rw [allocateFrom]
    cases hi : testFrame i words with
    | false => exact .inl ⟨i, ⟨Nat.le_refl i, by omega, hi, fun g h h' => by omega⟩, rfl⟩
    | true =>
      have hend : i + 1 + k = i + (k + 1) := by omega
      have hrest := ih (i + 1)
      rw [hend] at hrest
      rw [if_pos rfl]
      rcases hrest with ⟨f, hfirst, heq⟩ | ⟨hset, heq⟩
      · exact .inl ⟨f, hfirst.next hi, heq⟩
      · refine .inr ⟨fun g hg hg' => ?_, heq⟩
        rcases Nat.eq_or_lt_of_le hg with rfl | hlt
        · exact hi
        · exact hset g hlt hg'

theorem allocateFrame_cases (words : Nat → BitVec 32) :
    (∃ f, FirstClear words 1 numFrames f ∧ allocateFrame words = (f * pageSize, setFrame f words)) ∨
    ((∀ g, 0 < g → g < numFrames → testFrame g words = true) ∧ allocateFrame words = (0, words)) :=
  allocateFrom_cases (numFrames - 1) 1 words

theorem freeFrame_address (hf : 0 < f) (words : Nat → BitVec 32) :
    freeFrame (f * pageSize) words = clearFrame f words := by
  have hpos : 0 < pageSize := by decide
  rw [freeFrame, if_neg (Nat.mul_pos hf hpos).ne', Nat.mul_div_cancel f hpos]

end

/-! ### Every run -/

structure Tracks (s : State) : Prop where
  bits : ∀ f < numFrames, testFrame f s.words = true ↔ f = 0 ∨ f ∈ s.allocated
  frames : ∀ f ∈ s.allocated, 0 < f ∧ f < numFrames

section
variable {s t : State} {f : Nat}

theorem tracks_start (words : Nat → BitVec 32) : Tracks (start words) where
  bits f hf := by
    rw [start, testFrame_initFrames hf, decide_eq_true_iff]
    exact (or_iff_left (Finset.notMem_empty f)).symm
  frames f hf := absurd hf (Finset.notMem_empty f)

theorem Tracks.set (h : Tracks s) (hpos : 0 < f) (hlt : f < numFrames) :
    Tracks ⟨setFrame f s.words, insert f s.allocated⟩ where
  bits g hg := by
    rw [testFrame_setFrame, Finset.mem_insert]
    by_cases hgf : g = f
    · exact iff_of_true (if_pos hgf) (.inr (.inl hgf))
    · rw [if_neg hgf, h.bits g hg, or_iff_right hgf]
  frames g hg := by
    rcases Finset.mem_insert.mp hg with rfl | hg
    · exact ⟨hpos, hlt⟩
    · exact h.frames g hg

theorem Tracks.clear (h : Tracks s) (hpos : 0 < f) :
    Tracks ⟨clearFrame f s.words, s.allocated.erase f⟩ where
  bits g hg := by
    rw [testFrame_clearFrame, Finset.mem_erase]
    by_cases hgf : g = f
    · rw [if_pos hgf]
      exact iff_of_false Bool.false_ne_true fun hor => hor.elim (by omega) fun hmem => hmem.1 hgf
    · rw [if_neg hgf, h.bits g hg, and_iff_right hgf]
  frames g hg := h.frames g (Finset.mem_of_mem_erase hg)

theorem Tracks.step (h : Tracks s) {c : Call} (hs : step s c = some t) : Tracks t := by
  cases c with
  | allocate =>
    cases hs
    rcases allocateFrame_cases s.words with ⟨f, hfirst, heq⟩ | ⟨-, heq⟩
    · have hne : f * pageSize ≠ 0 := (Nat.mul_pos hfirst.low (by decide)).ne'
      rw [heq, if_neg hne, Nat.mul_div_cancel f (by decide)]
      exact h.set hfirst.low hfirst.lt
    · rw [heq, if_pos rfl]
      exact h
  | free frame =>
    rw [Frames.step] at hs
    split at hs
    · cases hs
      rw [freeFrame, if_pos ‹_›]
      exact h
    · split at hs
      · cases hs
        obtain ⟨-, hmem⟩ := ‹_ ∧ _›
        rw [freeFrame, if_neg ‹_›]
        exact h.clear (h.frames _ hmem).1
      · cases hs

theorem reach_tracks {words : Nat → BitVec 32} (h : Reach step anyStep (start words) s) : Tracks s :=
  h.invariant Tracks (tracks_start words) fun _ _ _ h _ hs => h.step hs

/-- What allocate_frame returns in terms of the allocated frames. -/
theorem Tracks.allocateFrame (h : Tracks s) :
    (∃ f, IsLeast {f | 0 < f ∧ f < numFrames ∧ f ∉ s.allocated} f ∧
      allocateFrame s.words = (f * pageSize, setFrame f s.words)) ∨
    ((∀ f, 0 < f → f < numFrames → f ∈ s.allocated) ∧ allocateFrame s.words = (0, s.words)) := by
  have hmem : ∀ f, 0 < f → f < numFrames → (testFrame f s.words = true ↔ f ∈ s.allocated) :=
    fun f hpos hlt => (h.bits f hlt).trans (or_iff_right hpos.ne')
  rcases allocateFrame_cases s.words with ⟨f, hfirst, heq⟩ | ⟨hset, heq⟩
  · refine .inl ⟨f, ⟨⟨hfirst.low, hfirst.lt, ?_⟩, fun g ⟨hgpos, hglt, hfree⟩ => ?_⟩, heq⟩
    · rw [← hmem f hfirst.low hfirst.lt, hfirst.clear]
      exact Bool.false_ne_true
    · by_contra hgf
      exact hfree ((hmem g hgpos hglt).mp (hfirst.set g hgpos (Nat.lt_of_not_le hgf)))
  · exact .inr ⟨fun f hpos hlt => (hmem f hpos hlt).mp (hset f hpos hlt), heq⟩

end

/-- After every sequence of calls the bitmap is the set of the allocated frames: allocate_frame takes the
least frame outside it, and each call changes the bit of its frame only. -/
theorem frames_refine_set (words : Nat → BitVec 32) (s : State) (h : Reach step anyStep (start words) s) :
    (∀ f < numFrames, testFrame f s.words = true ↔ f = 0 ∨ f ∈ s.allocated) ∧
    ((allocateFrame s.words).1 = 0 ↔ ∀ f, 0 < f → f < numFrames → f ∈ s.allocated) ∧
    ((allocateFrame s.words).1 = 0 → (allocateFrame s.words).2 = s.words) ∧
    ((allocateFrame s.words).1 ≠ 0 → ∃ f, (allocateFrame s.words).1 = f * pageSize ∧
      IsLeast {f | 0 < f ∧ f < numFrames ∧ f ∉ s.allocated} f ∧
      ∀ g, testFrame g (allocateFrame s.words).2 = if g = f then true else testFrame g s.words) ∧
    (∀ f ∈ s.allocated, ∀ g, testFrame g (freeFrame (f * pageSize) s.words) =
      if g = f then false else testFrame g s.words) ∧
    freeFrame 0 s.words = s.words := by
  have htracks := reach_tracks h
  refine ⟨htracks.bits, ?_, ?_, ?_, fun f hf g => ?_, rfl⟩
  · rcases htracks.allocateFrame with ⟨f, ⟨⟨hpos, hlt, hfree⟩, -⟩, heq⟩ | ⟨hall, heq⟩
    · rw [heq]
      exact iff_of_false (Nat.mul_pos hpos (by decide)).ne' fun hall => hfree (hall f hpos hlt)
    · rw [heq]
      exact iff_of_true rfl hall
  · rcases htracks.allocateFrame with ⟨f, ⟨⟨hpos, -⟩, -⟩, heq⟩ | ⟨-, heq⟩
    · rw [heq]
      exact fun hzero => absurd hzero (Nat.mul_pos hpos (by decide)).ne'
    · rw [heq]
      exact fun _ => rfl
  · rcases htracks.allocateFrame with ⟨f, hleast, heq⟩ | ⟨-, heq⟩
    · rw [heq]
      exact fun _ => ⟨f, rfl, hleast, fun _ => testFrame_setFrame⟩
    · rw [heq]
      exact fun hne => absurd rfl hne
  · rw [freeFrame_address (htracks.frames f hf).1]
    exact testFrame_clearFrame

/-- Frame 2 comes after frame 1, also when 0 was freed between. -/
theorem second_frame : ∃ s, Reach step anyStep (start fun _ => 0) s ∧ s.allocated = {1} ∧
    (allocateFrame s.words).1 = 2 * pageSize := by
  have hclear : testFrame 1 (initFrames fun _ => 0) = false := testFrame_initFrames (by decide)
  have hfirst : allocateFrame (initFrames fun _ => 0) = (1 * pageSize, setFrame 1 (initFrames fun _ => 0)) := by
    change allocateFrom (32766 + 1) 1 _ = _
    rw [allocateFrom, hclear]
    rfl
  have hallocate : step (start fun _ => 0) .allocate = some ⟨setFrame 1 (initFrames fun _ => 0), {1}⟩ := by
    rw [step, start]
    dsimp only
    rw [hfirst]
    rfl
  have hreach : Reach step anyStep (start fun _ => 0) ⟨setFrame 1 (initFrames fun _ => 0), {1}⟩ :=
    .tail (.free 0) (.tail .allocate .refl trivial hallocate) trivial rfl
  obtain ⟨-, hzero, -, hnext, -⟩ := frames_refine_set (fun _ => 0) _ hreach
  have htwo : 2 ∉ ({1} : Finset Nat) := by decide
  refine ⟨_, hreach, rfl, ?_⟩
  obtain ⟨f, heq, ⟨⟨hpos, -, hfree⟩, hleast⟩, -⟩ :=
    hnext fun h0 => htwo (hzero.mp h0 2 (by decide) (by decide))
  have hle : f ≤ 2 := hleast ⟨by decide, by decide, htwo⟩
  have hne : f ≠ 1 := fun h1 => hfree (Finset.mem_singleton.mpr h1)
  rw [heq, show f = 2 by omega]

end AdamOS.Frames
