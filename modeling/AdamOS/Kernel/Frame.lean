import AdamOS.Kernel.Process
import AdamOS.Lib.Loop

/-! frame.c: the bitmap of physical frames, with the memory the frames hold. A frame stands for
its address divided by PAGE_SIZE, so the address 0 that a failed allocation returns is frame 0. -/
namespace AdamOS.Paging
open AdamOS.Process AdamOS.Word AdamOS.Loop

def numFrames : Nat := 32768

structure Memory where
  /- test_frame -/
  bitmap : Nat → Bool
  /- the words of each frame -/
  phys : Nat → Nat → Nat
  /- allocate_frame has returned 0 -/
  exhausted : Bool
  /- identity_map_in has used a page-directory entry that is not present -/
  nullTable : Bool

namespace Memory

def mark (m : Memory) (f : Nat) (used : Bool) : Memory :=
  { m with bitmap := fun g => if g = f then used else m.bitmap g }

def put (m : Memory) (f j e : Nat) : Memory :=
  { m with phys := fun g k => if g = f ∧ k = j then e else m.phys g k }

def fill (m : Memory) (f : Nat) (w : Nat → Nat) : Memory :=
  { m with phys := fun g => if g = f then w else m.phys g }

/- These stay propositional: unfolding a state that a loop computed is hopeless. -/
@[simp] theorem mark_phys (m : Memory) (f : Nat) (b : Bool) : (m.mark f b).phys = m.phys := (rfl)
@[simp] theorem mark_exhausted (m : Memory) (f : Nat) (b : Bool) :
    (m.mark f b).exhausted = m.exhausted := (rfl)
@[simp] theorem mark_nullTable (m : Memory) (f : Nat) (b : Bool) :
    (m.mark f b).nullTable = m.nullTable := (rfl)
@[simp] theorem put_bitmap (m : Memory) (f j e : Nat) : (m.put f j e).bitmap = m.bitmap := (rfl)
@[simp] theorem put_exhausted (m : Memory) (f j e : Nat) :
    (m.put f j e).exhausted = m.exhausted := (rfl)
@[simp] theorem put_nullTable (m : Memory) (f j e : Nat) :
    (m.put f j e).nullTable = m.nullTable := (rfl)
@[simp] theorem fill_bitmap (m : Memory) (f : Nat) (w : Nat → Nat) :
    (m.fill f w).bitmap = m.bitmap := (rfl)
@[simp] theorem fill_exhausted (m : Memory) (f : Nat) (w : Nat → Nat) :
    (m.fill f w).exhausted = m.exhausted := (rfl)
@[simp] theorem fill_nullTable (m : Memory) (f : Nat) (w : Nat → Nat) :
    (m.fill f w).nullTable = m.nullTable := (rfl)

@[simp] theorem mark_self (m : Memory) (f : Nat) (b : Bool) : (m.mark f b).bitmap f = b := if_pos rfl

theorem mark_of_ne (m : Memory) {f g : Nat} (b : Bool) (h : g ≠ f) :
    (m.mark f b).bitmap g = m.bitmap g := if_neg h

@[simp] theorem put_self (m : Memory) (f j e : Nat) : (m.put f j e).phys f j = e := if_pos ⟨rfl, rfl⟩

theorem put_frame_ne (m : Memory) {f g : Nat} (j e : Nat) (h : g ≠ f) :
    (m.put f j e).phys g = m.phys g := funext fun _ => if_neg fun hg => h hg.1

theorem put_word_ne (m : Memory) (f : Nat) {j k : Nat} (e : Nat) (h : k ≠ j) :
    (m.put f j e).phys f k = m.phys f k := if_neg fun hk => h hk.2

@[simp] theorem fill_self (m : Memory) (f : Nat) (w : Nat → Nat) : (m.fill f w).phys f = w :=
  if_pos rfl

theorem fill_ne (m : Memory) {f g : Nat} (w : Nat → Nat) (h : g ≠ f) :
    (m.fill f w).phys g = m.phys g := if_neg h

end Memory

/- The bitmap after init_frames; `phys` is whatever memory holds. -/
def initFrames (phys : Nat → Nat → Nat) : Memory where
  bitmap := fun f => decide (f = 0)
  phys := phys
  exhausted := false
  nullTable := false

def firstFree (m : Memory) : Option Nat :=
  (List.range' 1 (numFrames - 1)).find? fun f => !m.bitmap f

def allocateFrame (m : Memory) : Nat × Memory :=
  match firstFree m with
  | some f => (f, m.mark f true)
  | none => (0, { m with exhausted := true })

def freeFrame (f : Nat) (m : Memory) : Memory := if f = 0 then m else m.mark f false

/-! ### What allocation returns -/

theorem firstFree_some {m : Memory} {f : Nat} (h : firstFree m = some f) :
    0 < f ∧ f < numFrames ∧ m.bitmap f = false := by
  have hm := List.mem_of_find?_eq_some h
  have hb := List.find?_some h
  rw [List.mem_range'_1] at hm
  simp only [numFrames] at hm ⊢
  exact ⟨by omega, by omega, by simpa using hb⟩

theorem firstFree_le {m : Memory} {f g : Nat} (h : firstFree m = some f) (h0 : 0 < g)
    (hb : m.bitmap g = false) : f ≤ g := by
  by_contra hlt
  rw [firstFree, List.find?_range'_eq_some] at h
  have := h.2.2 g (by omega) (by omega)
  simp [hb] at this

theorem firstFree_none {m : Memory} (h : firstFree m = none) {g : Nat} (h0 : 0 < g)
    (hg : g < numFrames) : m.bitmap g = true := by
  have := List.find?_eq_none.mp h g (List.mem_range'_1.mpr ⟨h0, by simp only [numFrames] at *; omega⟩)
  simpa using this

structure Allocated (m : Memory) (f : Nat) (m' : Memory) : Prop where
  pos : 0 < f
  lt : f < numFrames
  free : m.bitmap f = false
  eq : m' = m.mark f true

/-- Without exhaustion an allocation hands out a free frame and changes only its bit. -/
theorem allocateFrame_spec {m : Memory} (h : (allocateFrame m).2.exhausted = false) :
    Allocated m (allocateFrame m).1 (allocateFrame m).2 := by
  unfold allocateFrame at h ⊢
  cases hf : firstFree m with
  | none => simp [hf] at h
  | some f =>
    obtain ⟨h0, hlt, hb⟩ := firstFree_some hf
    exact ⟨h0, hlt, hb, rfl⟩

/-! ### Nothing clears the record of a failed allocation -/

theorem allocateFrame_exhausted {m : Memory} (h : m.exhausted = true) :
    (allocateFrame m).2.exhausted = true := by
  unfold allocateFrame
  cases firstFree m with
  | none => rfl
  | some f => exact h

@[simp] theorem freeFrame_exhausted (f : Nat) (m : Memory) :
    (freeFrame f m).exhausted = m.exhausted := by
  unfold freeFrame
  split <;> simp

@[simp] theorem freeFrame_phys (f : Nat) (m : Memory) : (freeFrame f m).phys = m.phys := by
  unfold freeFrame
  split <;> simp

@[simp] theorem freeFrame_nullTable (f : Nat) (m : Memory) :
    (freeFrame f m).nullTable = m.nullTable := by
  unfold freeFrame
  split <;> simp

theorem freeFrame_bitmap (f : Nat) (m : Memory) {g : Nat} (h : g ≠ f ∨ g = 0) :
    (freeFrame f m).bitmap g = m.bitmap g := by
  unfold freeFrame
  by_cases h0 : f = 0
  · rw [if_pos h0]
  · rw [if_neg h0]
    exact m.mark_of_ne false (by omega)

end AdamOS.Paging
