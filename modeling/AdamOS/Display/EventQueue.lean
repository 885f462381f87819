import AdamOS.Display.Window
import AdamOS.Lib.Fifo
import AdamOS.Lib.Ring

/-! event.c: the queue of a window. The ring of 64 events with its two indexes and its counter
delivers what a list of at most 64 events does. -/
namespace AdamOS.Windows
open AdamOS.Fifo AdamOS.Ring

def queueOp : Op Event → EventQueue → Option Event × EventQueue
  | .push e, q => (none, eventQueuePush e q)
  | .pop, q => eventQueuePop q

def EventQueue.hasRoom (q : EventQueue) : Bool := decide (q.size < eventQueueSize)

/- The ring holds the list: from the tail to the head. -/
structure EventQueue.Holds (q : EventQueue) (xs : List Event) : Prop where
  size : q.size = xs.length
  short : xs.length ≤ eventQueueSize
  tail : q.tailIndex < eventQueueSize
  head : q.headIndex = (q.tailIndex + q.size) % eventQueueSize
  events : contents eventQueueSize q.events q.tailIndex q.size = xs

theorem emptyQueue_holds : emptyQueue.Holds [] where
  size := rfl
  short := Nat.zero_le _
  tail := Nat.zero_lt_succ _
  head := rfl
  events := rfl

section Step
variable {q : EventQueue} {xs : List Event}

theorem EventQueue.Holds.push (h : q.Holds xs) (e : Event) (hroom : q.size < eventQueueSize) :
    (eventQueuePush e q).Holds (xs ++ [e]) := by
  have hlen : (xs ++ [e]).length = xs.length + 1 := by simp
  have hsize := h.size
  rw [eventQueuePush, if_neg (by omega)]
  refine ⟨?_, ?_, h.tail, ?_, ?_⟩
  · rw [hlen, hsize]
  · omega
  · change (q.headIndex + 1) % eventQueueSize = (q.tailIndex + (q.size + 1)) % eventQueueSize
    rw [h.head, Nat.mod_add_mod, Nat.add_assoc]
  · change contents eventQueueSize (fun i => if i = q.headIndex then e else q.events i) q.tailIndex
      (q.size + 1) = xs ++ [e]
    rw [contents_last, h.head, contents_write (Nat.le_refl _) hroom, h.events, if_pos rfl]

theorem EventQueue.Holds.pop {x : Event} (h : q.Holds (x :: xs)) :
    eventQueuePop q = (some x, (eventQueuePop q).2) ∧ (eventQueuePop q).2.Holds xs := by
  have hsize : q.size = xs.length + 1 := h.size
  have hshort : xs.length + 1 ≤ eventQueueSize := h.short
  have hcells := h.events
  rw [hsize, contents_succ h.tail, List.cons.injEq] at hcells
  rw [eventQueuePop, if_neg (by omega)]
  refine ⟨by rw [hcells.1], ?_, by omega, Nat.mod_lt _ (by decide), ?_, ?_⟩
  · change q.size - 1 = xs.length
    omega
  · change q.headIndex = ((q.tailIndex + 1) % eventQueueSize + (q.size - 1)) % eventQueueSize
    rw [h.head, Nat.mod_add_mod, hsize, Nat.add_sub_cancel, Nat.add_assoc, Nat.add_comm 1]
  · change contents eventQueueSize q.events ((q.tailIndex + 1) % eventQueueSize) (q.size - 1) = xs
    rw [hsize, Nat.add_sub_cancel, hcells.2]

/-- One call on the ring and one operation on the list. -/
theorem EventQueue.Holds.step (op : Op Event) (q : EventQueue) (xs : List Event) (h : q.Holds xs) :
    (queueOp op q).1 = (bounded eventQueueSize op xs).1 ∧
      (queueOp op q).2.Holds (bounded eventQueueSize op xs).2 := by
  have hsize := h.size
  cases op with
  | push e =>
    refine ⟨rfl, ?_⟩
    rw [bounded, queueOp]
    by_cases hroom : q.size < eventQueueSize
    · rw [if_pos (by omega)]
      exact h.push e hroom
    · rw [if_neg (by omega), eventQueuePush, if_pos (by omega)]
      exact h
  | pop =>
    cases xs with
    | nil =>
      have hempty : q.size = 0 := hsize
      rw [queueOp, eventQueuePop, if_pos hempty]
      exact ⟨rfl, h⟩
    | cons x xs =>
      obtain ⟨hout, hrest⟩ := h.pop
      exact ⟨congrArg Prod.fst hout, hrest⟩

end Step

/-- In every run of pushes and pops on the queue of a new window the counter and the indexes agree,
the events popped are those a list of at most 64 events delivers, and together with the events the
ring still holds they are what was pushed while fewer than 64 were queued. -/
theorem eventQueue_fifo (ops : List (Op Event)) :
    let popped := (perform queueOp ops emptyQueue).1
    let q := (perform queueOp ops emptyQueue).2
    let list := perform (bounded eventQueueSize) ops []
    q.size ≤ eventQueueSize ∧ q.headIndex = (q.tailIndex + q.size) % eventQueueSize ∧
      q.headIndex < eventQueueSize ∧ q.tailIndex < eventQueueSize ∧
      popped = list.1 ∧ q.Holds list.2 ∧
      popped ++ list.2 = accepted queueOp EventQueue.hasRoom ops emptyQueue := by
  have hroom : ∀ (q : EventQueue) (xs : List Event), q.Holds xs →
      q.hasRoom = decide (xs.length < eventQueueSize) := by
    intro q xs h
    rw [EventQueue.hasRoom, h.size]
  obtain ⟨hpopped, hq⟩ := perform_simulates EventQueue.Holds.step ops emptyQueue_holds
  have hsize := hq.size
  have hshort := hq.short
  refine ⟨by omega, hq.head, ?_, hq.tail, hpopped, hq, ?_⟩
  · rw [hq.head]
    exact Nat.mod_lt _ (by decide)
  · exact delivers_accepted EventQueue.Holds.step hroom ops emptyQueue_holds

end AdamOS.Windows
