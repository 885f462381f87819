import AdamOS.Files.Descriptors
import AdamOS.Kernel.AddressSpace
import AdamOS.Kernel.Waiting
import Mathlib.Algebra.GroupWithZero.Nat

/-! Where read, ps and get_event store what they return. The trace of a call is the list of its
stores in order, each of a byte or of a word; the first that touches an unmapped page faults and
halts the machine. The kernel runs in ring 0 with CR0.WP clear, so any mapped page can be stored
to. The walk uses the page tables as they are when the handler is entered. -/
namespace AdamOS.CopyOut
open AdamOS.Process AdamOS.Scheduler AdamOS.Lifecycle AdamOS.Word AdamOS.Paging AdamOS.Files
  AdamOS.Fat16

/- entry & 0x2 -/
def writable (e : Nat) : Bool := e / 2 % 2 = 1

def pageOf (a : Nat) : Nat := a / pageSize

def mapped (m : Memory) (pd a : Nat) : Bool :=
  present (m.phys pd (pageOf a / 1024)) && present (m.pte pd (pageOf a))

def userWritable (m : Memory) (pd a : Nat) : Bool :=
  accessible m pd (pageOf a) && writable (m.phys pd (pageOf a / 1024)) &&
    writable (m.pte pd (pageOf a))

/- One store of `width` bytes. What memcpy copies comes from an address, other values from the
   kernel's own variables. -/
structure Move where
  dst : Nat
  src : Option Nat
  width : Nat

def bytesFrom (a width : Nat) : List Nat := (List.range width).map fun i => wrap (a + i)

def completes (m : Memory) (pd : Nat) (mv : Move) : Bool :=
  (bytesFrom mv.dst mv.width).all (mapped m pd) &&
    mv.src.toList.all fun a => (bytesFrom a mv.width).all (mapped m pd)

/- The stores that are made before one faults. -/
def executed (m : Memory) (pd : Nat) (moves : List Move) : List Move :=
  moves.takeWhile (completes m pd)

/-! ### The handlers -/

/- rep movsl, then the bytes that are left -/
def memcpyMoves (dst : Nat) (src : Option Nat) (n : Nat) : List Move :=
  (List.range (n / 4)).map (fun k => ⟨wrap (dst + k * 4), src.map fun a => wrap (a + k * 4), 4⟩) ++
    (List.range (n % 4)).map fun k =>
      ⟨wrap (dst + (n / 4 * 4 + k)), src.map fun a => wrap (a + (n / 4 * 4 + k)), 1⟩

def stdinMoves (buf : Nat) : Nat → Nat → StdinBuffer → List Move
  | 0, _, _ => []
  | n+1, index, b =>
    let r := stdinReadOne b
    if r.1.isSome then ⟨wrap (buf + index), none, 1⟩ :: stdinMoves buf n (index + 1) r.2
    else stdinMoves buf n index r.2

def psMoves (buf : Nat) (max : Int) : Nat → List Pcb → List Move
  | _, [] => []
  | count, _ :: ps =>
    if (count : Int) < max then
      ⟨wrap (buf + 12 * count), none, 4⟩ :: ⟨wrap (buf + (12 * count + 4)), none, 4⟩ ::
        ⟨wrap (buf + (12 * count + 8)), none, 4⟩ :: psMoves buf max (count + 1) ps
    else []

structure Window where
  windowId : Nat
  eventCount : Nat

structure Io where
  kernel : Kernel
  /- the fat16_fd_t at an address, and its data pointer -/
  files : Nat → Fat16Fd
  dataPtr : Nat → Nat
  windows : List Window

structure Reply where
  eax : Option Nat
  moves : List Move

def fail : Reply := ⟨some minusOne, []⟩

def sizeofEvent : Nat := 20

def readReply (io : Io) (regs : Registers) (cur : Pcb) : Reply :=
  let stdin := io.kernel.sched.stdin
  match fdType regs.ebx cur with
  | some .stdin =>
    if readBlocks regs io.kernel.sched then ⟨none, []⟩
    else ⟨some (stdinRead (toInt32 regs.edx) stdin).1.length,
      stdinMoves regs.ecx (toInt32 regs.edx).toNat 0 stdin⟩
  | some .file =>
    let fd := cur.fds.getD regs.ebx closedFd
    let f := io.files fd.data
    if fd.isOpen = false then fail
    else if f.size ≤ fd.offset then ⟨some 0, []⟩
    else
      let size := min32 regs.edx (f.size - fd.offset)
      ⟨some size, memcpyMoves regs.ecx (some (io.dataPtr fd.data + fd.offset)) size⟩
  | _ => fail

def psReply (io : Io) (regs : Registers) : Reply :=
  ⟨some (handleSyscallPs regs io.kernel.sched).regs.eax,
    psMoves regs.ebx (toInt32 regs.ecx) 0 io.kernel.sched.procs⟩

def getEventReply (io : Io) (regs : Registers) : Reply :=
  match io.windows.find? fun w => w.windowId == regs.ebx with
  | none => fail
  | some w =>
    if w.eventCount = 0 then ⟨some 0, []⟩
    else ⟨some 1, memcpyMoves regs.ecx none sizeofEvent⟩

inductive Call where
  | read | ps | getEvent

def reply (io : Io) (call : Call) (regs : Registers) (cur : Pcb) : Reply :=
  match call with
  | .read => readReply io regs cur
  | .ps => psReply io regs
  | .getEvent => getEventReply io regs

/- All stores go to pages that the directory maps user-accessible and writable, or the call returns
   -1 and stores nothing. -/
def OnlyUser (m : Memory) (pd : Nat) (r : Reply) : Prop :=
  (∀ mv ∈ executed m pd r.moves, ∀ a ∈ bytesFrom mv.dst mv.width, userWritable m pd a = true) ∨
    (r.eax = some minusOne ∧ r.moves = [])

/-! ### What the registers ask for -/

structure Copy where
  dst : Nat
  src : Option Nat
  widths : List Nat

def Copy.reaches (m : Memory) (pd : Nat) (c : Copy) (j : Nat) : Prop :=
  mapped m pd (wrap (c.dst + j)) = true ∧ ∀ a ∈ c.src, mapped m pd (wrap (a + j)) = true

def Copy.Inside (m : Memory) (pd : Nat) (c : Copy) : Prop :=
  ∀ k < c.widths.length, (∀ j < (c.widths.take (k + 1)).sum, c.reaches m pd j) →
    ∀ j, (c.widths.take k).sum ≤ j → j < (c.widths.take (k + 1)).sum →
      userWritable m pd (wrap (c.dst + j)) = true

def ringIndex (b : StdinBuffer) (i : Nat) : Int :=
  if i = 0 then b.readIndex else (b.readIndex + i) % standardInBufferSize

/- How many of the next n characters are neither a backspace nor a newline. -/
def deliverable (n : Nat) (b : StdinBuffer) : Nat :=
  (List.range n).countP fun i =>
    b.buffer (ringIndex b i).toNat != charBackspace && b.buffer (ringIndex b i).toNat != charNewline

def words (n : Nat) : List Nat := List.replicate (n / 4) 4 ++ List.replicate (n % 4) 1

def destination (io : Io) (call : Call) (regs : Registers) (cur : Pcb) : Option Copy :=
  let s := io.kernel.sched
  match call with
  | .read =>
    match fdType regs.ebx cur with
    | some .stdin =>
      if readBlocks regs s then none
      else some ⟨regs.ecx, none, List.replicate (deliverable (toInt32 regs.edx).toNat s.stdin) 1⟩
    | some .file =>
      let fd := cur.fds.getD regs.ebx closedFd
      let size := (io.files fd.data).size
      if fd.isOpen = true ∧ fd.offset < size then
        some ⟨regs.ecx, some (io.dataPtr fd.data + fd.offset), words (min32 regs.edx (size - fd.offset))⟩
      else none
    | _ => none
  | .ps => some ⟨regs.ebx, none, words (12 * min s.procs.length (toInt32 regs.ecx).toNat)⟩
  | .getEvent =>
    if (io.windows.find? fun w => w.windowId == regs.ebx).any fun w => w.eventCount ≠ 0 then
      some ⟨regs.ecx, none, words sizeofEvent⟩
    else none

/-! ### A copy as a list of stores -/

def tile (dst : Nat) (src : Option Nat) : Nat → List Nat → List Move
  | _, [] => []
  | off, w :: ws => ⟨wrap (dst + off), src.map fun a => wrap (a + off), w⟩ :: tile dst src (off + w) ws

def Copy.moves (c : Copy) : List Move := tile c.dst c.src 0 c.widths

theorem tile_append (dst : Nat) (src : Option Nat) (off : Nat) (us ws : List Nat) :
    tile dst src off (us ++ ws) = tile dst src off us ++ tile dst src (off + us.sum) ws := by
  induction us generalizing off with
  | nil => rfl
  | cons u us ih => rw [List.cons_append, tile, tile, ih, List.sum_cons, Nat.add_assoc, List.cons_append]

theorem tile_replicate (dst : Nat) (src : Option Nat) (off w n : Nat) :
    tile dst src off (List.replicate n w) = (List.range n).map fun k =>
      ⟨wrap (dst + (off + k * w)), src.map fun a => wrap (a + (off + k * w)), w⟩ := by
  induction n generalizing off with
  | zero => rfl
  | succ n ih =>
    rw [List.replicate_succ, tile, ih, List.range_succ_eq_map, List.map_cons, List.map_map,
      Nat.zero_mul, Nat.add_zero]
    congr 1
    refine List.map_congr_left fun k _ => ?_
    have hk : off + w + k * w = off + (k + 1) * w := by rw [Nat.succ_mul]; omega
    simp only [Function.comp_apply, hk, Nat.succ_eq_add_one]

theorem memcpyMoves_eq (dst : Nat) (src : Option Nat) (n : Nat) :
    memcpyMoves dst src n = (Copy.mk dst src (words n)).moves := by
  have hsum : (List.replicate (n / 4) 4).sum = n / 4 * 4 := by
    rw [List.sum_replicate_nat]
  rw [Copy.moves, words, tile_append, tile_replicate, tile_replicate, hsum, memcpyMoves]
  simp only [Nat.zero_add, Nat.mul_one]

theorem psMoves_eq (buf : Nat) (max : Int) (count : Nat) (ps : List Pcb) :
    psMoves buf max count ps =
      tile buf none (12 * count) (List.replicate (3 * min ps.length (max - count).toNat) 4) := by
  induction ps generalizing count with
  | nil => rw [List.length_nil, Nat.zero_min]; rfl
  | cons p ps ih =>
    rw [psMoves]
    by_cases h : (count : Int) < max
    · have hmin : 3 * min (p :: ps).length (max - count).toNat =
          3 * min ps.length (max - (count + 1 : Nat)).toNat + 1 + 1 + 1 := by
        rw [List.length_cons]
        omega
      rw [if_pos h, ih, hmin, List.replicate_succ, List.replicate_succ, List.replicate_succ]
      rfl
    · have hmin : 3 * min (p :: ps).length (max - count).toNat = 0 := by omega
      rw [if_neg h, hmin]
      rfl

theorem ringIndex_succ (b : StdinBuffer) (i : Nat) :
    ringIndex b (i + 1) = ringIndex (stdinReadOne b).2 i := by
  have hr : (stdinReadOne b).2.readIndex = (b.readIndex + 1) % standardInBufferSize := rfl
  simp only [ringIndex, hr, standardInBufferSize]
  split
  · omega
  · split <;> omega

theorem stdinReadOne_isSome (b : StdinBuffer) : (stdinReadOne b).1.isSome =
    (b.buffer b.readIndex.toNat != charBackspace && b.buffer b.readIndex.toNat != charNewline) := by
  rw [stdinReadOne]
  dsimp only
  split
  · rename_i h
    rcases h with h | h <;> simp [h]
  · rename_i h
    obtain ⟨h1, h2⟩ := not_or.mp h
    simp [h1, h2]

theorem deliverable_succ (n : Nat) (b : StdinBuffer) :
    deliverable (n + 1) b =
      deliverable n (stdinReadOne b).2 + if (stdinReadOne b).1.isSome then 1 else 0 := by
  have hb : (stdinReadOne b).2.buffer = b.buffer := rfl
  rw [deliverable, List.range_succ_eq_map, List.countP_cons, List.countP_map, deliverable]
  congr 1
  · refine List.countP_congr fun i _ => ?_
    simp only [Function.comp_apply, Nat.succ_eq_add_one, ringIndex_succ, hb]
  · have h0 : ringIndex b 0 = b.readIndex := if_pos rfl
    rw [stdinReadOne_isSome, h0]

theorem stdinMoves_eq (buf n index : Nat) (b : StdinBuffer) :
    stdinMoves buf n index b = tile buf none index (List.replicate (deliverable n b) 1) := by
  induction n generalizing index b with
  | zero => rfl
  | succ n ih =>
    rw [stdinMoves, deliverable_succ]
    by_cases h : (stdinReadOne b).1.isSome
    · rw [if_pos h, if_pos h, List.replicate_succ, ih]
      rfl
    · rw [if_neg h, if_neg h, ih]
      rfl

/-- The stores of a call are the copy that its registers ask for. -/
theorem reply_moves (io : Io) (call : Call) (regs : Registers) (cur : Pcb) :
    (reply io call regs cur).moves =
      ((destination io call regs cur).map Copy.moves).getD [] := by
  cases call with
  | read =>
    simp only [reply, readReply, destination]
    cases hfd : fdType regs.ebx cur with
    | none => rfl
    | some t =>
      cases t with
      | stdin =>
        by_cases hb : readBlocks regs io.kernel.sched
        · simp only [if_pos hb, Option.map_none, Option.getD_none]
        · simp only [if_neg hb, Option.map_some, Option.getD_some]
          exact stdinMoves_eq ..
      | file =>
        by_cases ho : (cur.fds.getD regs.ebx closedFd).isOpen = false
        · simp only [ho, if_true, Bool.false_eq_true, false_and, if_false]
          rfl
        · by_cases hs : (io.files (cur.fds.getD regs.ebx closedFd).data).size ≤
              (cur.fds.getD regs.ebx closedFd).offset
          · simp only [if_neg ho, if_pos hs, Nat.not_lt.mpr hs, and_false, if_false]
            rfl
          · have hopen : (cur.fds.getD regs.ebx closedFd).isOpen = true := by simpa using ho
            simp only [if_neg hs, hopen, Nat.lt_of_not_le hs, and_self, if_true,
              Option.map_some, Option.getD_some]
            exact memcpyMoves_eq ..
      | none => rfl
      | pipe => rfl
      | stdout => rfl
  | ps =>
    simp only [reply, psReply, destination, Option.map_some, Option.getD_some]
    rw [psMoves_eq, Copy.moves, words]
    have hdiv : ∀ k, 12 * k / 4 = 3 * k := fun k => by omega
    have hmod : ∀ k, 12 * k % 4 = 0 := fun k => by omega
    rw [hdiv, hmod, List.replicate_zero, List.append_nil]
    have hzero : toInt32 regs.ecx - ((0 : Nat) : Int) = toInt32 regs.ecx := Int.sub_zero _
    rw [hzero]
  | getEvent =>
    simp only [reply, getEventReply, destination]
    cases hw : io.windows.find? fun w => w.windowId == regs.ebx with
    | none => rfl
    | some w =>
      by_cases h0 : w.eventCount = 0
      · simp only [h0, if_true, Option.any_some, ne_eq, not_true, decide_false, Bool.false_eq_true,
          if_false, Option.map_none, Option.getD_none]
      · simp only [h0, if_false, Option.any_some, ne_eq, not_false_eq_true, decide_true, if_true,
          Option.map_some, Option.getD_some]
        exact memcpyMoves_eq ..

/-! ### Which stores are made -/

theorem wrap_add (a i : Nat) : wrap (wrap a + i) = wrap (a + i) := Nat.mod_add_mod ..

theorem mem_bytesFrom {a b width : Nat} :
    b ∈ bytesFrom (wrap a) width ↔ ∃ i < width, b = wrap (a + i) := by
  simp only [bytesFrom, wrap_add, List.mem_map, List.mem_range, eq_comm]

section Walk
variable {m : Memory} {pd : Nat}

theorem completes_iff {dst off w : Nat} {src : Option Nat} :
    completes m pd ⟨wrap (dst + off), src.map fun a => wrap (a + off), w⟩ = true ↔
      ∀ j, off ≤ j → j < off + w → Copy.reaches m pd ⟨dst, src, []⟩ j := by
  have hall : ∀ a, (bytesFrom (wrap (a + off)) w).all (mapped m pd) = true ↔
      ∀ j, off ≤ j → j < off + w → mapped m pd (wrap (a + j)) = true := fun a => by
    rw [List.all_eq_true]
    constructor
    · intro h j h1 h2
      exact h _ (mem_bytesFrom.mpr ⟨j - off, by omega, by rw [show a + off + (j - off) = a + j by omega]⟩)
    · intro h b hb
      obtain ⟨i, hi, rfl⟩ := mem_bytesFrom.mp hb
      rw [Nat.add_assoc]
      exact h _ (Nat.le_add_right _ _) (by omega)
  rw [completes, Bool.and_eq_true, hall]
  cases src with
  | none => simp [Copy.reaches]
  | some a =>
    simp only [Option.map_some, Option.toList_some, List.all_cons, List.all_nil, Bool.and_true, hall,
      Copy.reaches, Option.mem_def, Option.some.injEq, forall_eq']
    exact ⟨fun h j h1 h2 => ⟨h.1 j h1 h2, h.2 j h1 h2⟩,
      fun h => ⟨fun j h1 h2 => (h j h1 h2).1, fun j h1 h2 => (h j h1 h2).2⟩⟩

/-- The stores made are those before which everything is mapped. -/
theorem executed_tile {dst : Nat} {src : Option Nat} (ws : List Nat) (off : Nat) :
    (∀ mv ∈ executed m pd (tile dst src off ws), ∀ a ∈ bytesFrom mv.dst mv.width,
      userWritable m pd a = true) ↔
    ∀ k < ws.length, (∀ j, off ≤ j → j < off + (ws.take (k + 1)).sum →
        Copy.reaches m pd ⟨dst, src, []⟩ j) →
      ∀ j, off + (ws.take k).sum ≤ j → j < off + (ws.take (k + 1)).sum →
        userWritable m pd (wrap (dst + j)) = true := by
  induction ws generalizing off with
  | nil => exact ⟨fun _ k hk => absurd hk (Nat.not_lt_zero k), fun _ mv hmv => absurd hmv List.not_mem_nil⟩
  | cons w ws ih =>
    have hsum : ∀ k, ((w :: ws).take (k + 1)).sum = w + (ws.take k).sum := fun k => by
      rw [List.take_succ_cons, List.sum_cons]
    by_cases hc : completes m pd ⟨wrap (dst + off), src.map fun a => wrap (a + off), w⟩ = true
    · have hfirst := completes_iff.mp hc
      rw [tile, executed, List.takeWhile_cons, if_pos hc, ← executed]
      constructor
      · intro h k hk hreach j h1 h2
        cases k with
        | zero =>
          rw [hsum 0] at h2
          simp only [List.take_zero, List.sum_nil, Nat.add_zero] at h1 h2
          have hmem : wrap (dst + j) ∈ bytesFrom (wrap (dst + off)) w :=
            mem_bytesFrom.mpr ⟨j - off, by omega, by rw [show dst + off + (j - off) = dst + j by omega]⟩
          exact h _ List.mem_cons_self _ hmem
        | succ k =>
          rw [hsum] at h1 h2 hreach
          refine (ih (off + w)).mp (fun mv hmv => h mv (List.mem_cons_of_mem _ hmv)) k
            (Nat.lt_of_succ_lt_succ hk) (fun j h1 h2 => hreach j (by omega) (by omega)) j (by omega)
            (by omega)
      · intro h mv hmv
        cases List.mem_cons.mp hmv with
        | inl he =>
          subst he
          intro a ha
          obtain ⟨i, hi, rfl⟩ := mem_bytesFrom.mp ha
          have hi : i < w := hi
          have h0 := h 0 (Nat.succ_pos _)
          rw [hsum 0] at h0
          simp only [List.take_zero, List.sum_nil, Nat.add_zero] at h0
          rw [Nat.add_assoc]
          exact h0 hfirst _ (Nat.le_add_right _ _) (by omega)
        | inr he =>
          refine (ih (off + w)).mpr (fun k hk hreach j h1 h2 => ?_) mv he
          refine h (k + 1) (Nat.succ_lt_succ hk) (fun j h1 h2 => ?_) j (by rw [hsum]; omega)
            (by rw [hsum]; omega)
          rw [hsum] at h2
          by_cases hj : j < off + w
          · exact hfirst j h1 hj
          · exact hreach j (by omega) (by omega)
    · rw [tile, executed, List.takeWhile_cons, if_neg hc]
      refine ⟨fun _ k _ hreach => absurd (completes_iff.mpr fun j h1 h2 => hreach j h1 ?_) hc,
        fun _ mv hmv => absurd hmv List.not_mem_nil⟩
      rw [hsum]
      omega

end Walk

/-- read, ps and get_event store to the caller's pages only, or fail and store nothing, exactly when
every store that the registers lead to lies in such a page. -/
theorem stores_only_user (io : Io) (call : Call) (regs : Registers) (cur : Pcb) :
    OnlyUser io.kernel.memory (frameOf cur.pageDirectory) (reply io call regs cur) ↔
      ∀ c ∈ destination io call regs cur, c.Inside io.kernel.memory (frameOf cur.pageDirectory) := by
  rw [OnlyUser, reply_moves]
  cases hd : destination io call regs cur with
  | none =>
    exact ⟨fun _ c hc => absurd hc (Option.not_mem_none c),
      fun _ => .inl fun mv hmv => absurd hmv List.not_mem_nil⟩
  | some c =>
    have htile := @executed_tile io.kernel.memory (frameOf cur.pageDirectory) c.dst c.src c.widths 0
    have hinside : c.Inside io.kernel.memory (frameOf cur.pageDirectory) ↔
        ∀ mv ∈ executed io.kernel.memory (frameOf cur.pageDirectory) c.moves,
          ∀ a ∈ bytesFrom mv.dst mv.width,
            userWritable io.kernel.memory (frameOf cur.pageDirectory) a = true := by
      rw [Copy.moves, htile]
      simp only [Copy.Inside, Nat.zero_add, Nat.zero_le, true_implies]
      rfl
    simp only [Option.map_some, Option.getD_some, Option.mem_def, Option.some.injEq, forall_eq']
    rw [hinside]
    refine ⟨fun h => h.elim id fun hnone => ?_, .inl⟩
    rw [hnone.2]
    exact fun mv hmv => absurd hmv List.not_mem_nil

/- Frame 1 is a directory whose first table, frame 2, maps the first 4 MiB for the kernel. -/
def lowMemory : Memory where
  bitmap := fun f => decide (f < 1024)
  phys := fun f k => if f = 1 then if k = 0 then entry 2 pageFlagKernel else 0
    else if f = 2 then entry k pageFlagKernel else 0
  exhausted := false
  nullTable := false

def lowIo : Io where
  kernel := { sched := boot { sampleBoot with mainDirectory := 1 * pageSize }, memory := lowMemory }
  files := fun _ => ⟨[], 0, 0, 0⟩
  dataPtr := fun _ => 0
  windows := []

def psAtHeap : Registers := { (default : Registers) with eax := 7, ebx := 0x100000, ecx := 1 }

/-- ps overwrites the header of the first heap block for a user program. -/
theorem ps_writes_kernel : ¬ ∀ io call regs cur, io.kernel.sched.currentProcess = some cur →
    OnlyUser io.kernel.memory (frameOf cur.pageDirectory) (reply io call regs cur) := by
  intro h
  have hcur : lowIo.kernel.sched.currentProcess =
      some (setStatus .running (bootMain { sampleBoot with mainDirectory := 1 * pageSize })) := rfl
  rcases h lowIo .ps psAtHeap _ hcur with hall | ⟨-, hnone⟩
  · have hmem : (⟨0x100000, none, 4⟩ : Move) ∈ executed lowMemory 1
        (reply lowIo .ps psAtHeap (setStatus .running
          (bootMain { sampleBoot with mainDirectory := 1 * pageSize }))).moves := .head _
    exact absurd (hall _ hmem 0x100000 (.head _)) (by decide)
  · cases hnone

end AdamOS.CopyOut
