import AdamOS.Kernel.KmallocReuse

/-! The kernel heap as its users see it: the blocks in use are those that were requested and not
given back. A request that is served adds one, and kfree of a block in use takes it away. -/
namespace AdamOS.Kmalloc
open AdamOS.Layout AdamOS.Word

structure KernelHeap where
  state : HeapState
  /- the arguments kfree was called with that were no block in use -/
  misfreed : List Nat
  /- the sizes for which kmalloc had no block, or none with room for the header of a split -/
  refused : List Nat

def serves (size : Nat) (bs : List HeapBlock) : Bool :=
  (bs.find? (fits size)).any fun b => decide (size + headerSize ≤ b.size)

theorem HeapLaid.payload_bounds {lo : Nat} {bs : List HeapBlock} (h : HeapLaid lo bs) {b : HeapBlock}
    (hb : b ∈ bs) : 0 < b.payload ∧ b.payload ≤ 4194304 := by
  have hstop := h.stop_lt hb
  simp only [HeapBlock.payload, headerSize] at *
  omega

theorem HeapInv.nodup {s : HeapState} (hi : HeapInv s) : (s.live.map Prod.fst).Nodup := by
  refine (hi.owns.map Prod.fst).nodup_iff.mpr ?_
  rw [allocated, List.map_map]
  refine List.Pairwise.map _ ?_ (hi.laid.pairwise.filter _)
  intro b c hbc he
  simp only [Function.comp_apply, HeapBlock.payload, HeapBlock.stop, headerSize] at hbc he
  omega

namespace KernelHeap

def start : KernelHeap := ⟨Kmalloc.start, [], []⟩

/- A request for 0 bytes gets NULL. -/
def kmalloc (size : Nat) (h : KernelHeap) : Nat × KernelHeap :=
  let r := Kmalloc.kmalloc size h.state.blocks
  (r.1, { h with
    state := ⟨r.2, if r.1 = 0 then h.state.live else (r.1, size) :: h.state.live⟩
    refused := if size = 0 ∨ serves size h.state.blocks then h.refused else size :: h.refused })

def kfree (ptr : Nat) (h : KernelHeap) : KernelHeap :=
  { h with
    state := ⟨Kmalloc.kfree ptr h.state.blocks, h.state.live.filter fun a => a.1 ≠ ptr⟩
    misfreed := if ptr ∈ h.state.live.map Prod.fst then h.misfreed else ptr :: h.misfreed }

def kmallocAll : List Nat → KernelHeap → List Nat × KernelHeap
  | [], h => ([], h)
  | size :: sizes, h =>
    let p := h.kmalloc size
    let ps := kmallocAll sizes p.2
    (p.1 :: ps.1, ps.2)

def kfreeAll (ptrs : List Nat) (h : KernelHeap) : KernelHeap := ptrs.foldl (fun h p => h.kfree p) h

structure Owns (h : KernelHeap) (owned : List Nat) : Prop where
  inv : HeapInv h.state
  exact : (h.state.live.map Prod.fst).Perm owned
  misfreed : h.misfreed = []
  served : h.refused = []

section Rules
variable {h : KernelHeap} {owned xs ys ptrs sizes : List Nat} {p n : Nat}

theorem start_owns : Owns start [] := ⟨start_inv, List.Perm.refl _, rfl, rfl⟩

theorem Owns.perm (ho : Owns h xs) (hp : xs.Perm ys) : Owns h ys :=
  ⟨ho.inv, ho.exact.trans hp, ho.misfreed, ho.served⟩

theorem Owns.nodup (ho : Owns h xs) : xs.Nodup := ho.exact.nodup_iff.mp ho.inv.nodup

theorem Owns.bounds (ho : Owns h xs) (hp : p ∈ xs) : 0 < p ∧ p ≤ 4194304 := by
  obtain ⟨a, ha, rfl⟩ := List.mem_map.mp (ho.exact.mem_iff.mpr hp)
  obtain ⟨b, hb, -, rfl⟩ := ho.inv.live_block ha
  exact ho.inv.laid.payload_bounds hb

/-! ### Requests -/

theorem kmalloc_refused (hr : (h.kmalloc n).2.refused = []) :
    h.refused = [] ∧ (n = 0 ∨ serves n h.state.blocks = true) := by
  unfold kmalloc at hr
  dsimp only at hr
  by_cases hs : n = 0 ∨ serves n h.state.blocks = true
  · rw [if_pos hs] at hr
    exact ⟨hr, hs⟩
  · rw [if_neg hs] at hr
    cases hr

theorem Owns.kmalloc (ho : Owns h xs) (hn : n ≠ 0) (hr : (h.kmalloc n).2.refused = []) :
    Owns (h.kmalloc n).2 ((h.kmalloc n).1 :: xs) := by
  obtain ⟨b, hb, hroom⟩ := (Option.any_eq_true _ _).mp ((kmalloc_refused hr).2.resolve_left hn)
  obtain ⟨cs, hk⟩ : ∃ cs, Kmalloc.kmalloc n h.state.blocks = (b.payload, cs) := by
    rcases kmalloc_cases (Nat.pos_of_ne_zero hn) h.state.blocks with ⟨-, hno⟩ | ⟨pre, c, post, hfound⟩
    · have hfits := List.find?_some hb
      rw [hno b (List.mem_of_find?_eq_some hb)] at hfits
      cases hfits
    · obtain rfl : c = b := Option.some.inj (hfound.find.symm.trans hb)
      exact ⟨_, hfound.taken (Nat.pos_of_ne_zero hn)⟩
  have hne : b.payload ≠ 0 := Nat.succ_ne_zero _
  have hfit : SplitFits h.state (.kmalloc n) := fun _ c hc => by
    rw [hb] at hc
    exact Option.some.inj hc ▸ of_decide_eq_true hroom
  have hstep : heapStep h.state (.kmalloc n) = some (h.kmalloc n).2.state := rfl
  refine ⟨heapStep_inv _ ho.inv hfit hstep, ?_, ho.misfreed, hr⟩
  have hlive : (h.kmalloc n).2.state.live = (b.payload, n) :: h.state.live := by
    unfold KernelHeap.kmalloc
    dsimp only
    rw [hk, if_neg hne]
  have hptr : (h.kmalloc n).1 = b.payload := congrArg Prod.fst hk
  rw [hlive, hptr, List.map_cons]
  exact ho.exact.cons _

theorem Owns.fresh (ho : Owns h (p :: xs)) : p ∉ xs := (List.nodup_cons.mp ho.nodup).1

theorem kmallocAll_refused (hr : (kmallocAll sizes h).2.refused = []) : h.refused = [] := by
  induction sizes generalizing h with
  | nil => exact hr
  | cons size sizes ih => exact (kmalloc_refused (ih hr)).1

theorem Owns.kmallocAll (ho : Owns h xs) (hs : ∀ n ∈ sizes, n ≠ 0)
    (hr : (kmallocAll sizes h).2.refused = []) :
    Owns (kmallocAll sizes h).2 ((kmallocAll sizes h).1 ++ xs) := by
  induction sizes generalizing h xs with
  | nil => exact ho
  | cons size sizes ih =>
    have hone := ho.kmalloc (hs size List.mem_cons_self) (kmallocAll_refused hr)
    refine (ih hone (fun n hn => hs n (List.mem_cons_of_mem _ hn)) hr).perm ?_
    exact List.perm_middle

/-! ### Releases -/

@[simp] theorem kfree_refused (p : Nat) (h : KernelHeap) : (h.kfree p).refused = h.refused := rfl

theorem Owns.kfree (ho : Owns h (p :: xs)) : Owns (h.kfree p) xs := by
  have hlive : p ∈ h.state.live.map Prod.fst := ho.exact.mem_iff.mpr List.mem_cons_self
  have hstep : heapStep h.state (.kfree p) = some (h.kfree p).state := if_pos (.inr hlive)
  refine ⟨heapStep_inv (.kfree p) ho.inv trivial hstep, ?_, ?_, ho.served⟩
  · have hfilter : (h.kfree p).state.live.map Prod.fst =
        (h.state.live.map Prod.fst).filter fun q => decide (q ≠ p) := by
      rw [List.filter_map]
      rfl
    rw [hfilter]
    refine (ho.exact.filter _).trans (List.Perm.of_eq ?_)
    rw [List.filter_cons_of_neg (by simp)]
    exact List.filter_eq_self.mpr fun q hq => decide_eq_true fun he => ho.fresh (he ▸ hq)
  · exact (if_pos hlive).trans ho.misfreed

@[simp] theorem kfreeAll_refused (ptrs : List Nat) (h : KernelHeap) :
    (kfreeAll ptrs h).refused = h.refused := by
  induction ptrs generalizing h with
  | nil => rfl
  | cons p ptrs ih => exact ih (h.kfree p)

theorem kfreeAll_append (ptrs qs : List Nat) (h : KernelHeap) :
    kfreeAll (ptrs ++ qs) h = kfreeAll qs (kfreeAll ptrs h) := List.foldl_append

theorem Owns.kfreeAll (ho : Owns h (ptrs ++ xs)) : Owns (kfreeAll ptrs h) xs := by
  induction ptrs generalizing h with
  | nil => exact ho
  | cons p ptrs ih => exact ih ho.kfree

/-- A block that is given back at once changes nothing. -/
theorem Owns.scratch (ho : Owns h xs) (hn : n ≠ 0) (hr : (h.kmalloc n).2.refused = []) :
    Owns ((h.kmalloc n).2.kfree (h.kmalloc n).1) xs := (ho.kmalloc hn hr).kfree

end Rules
end KernelHeap
end AdamOS.Kmalloc
