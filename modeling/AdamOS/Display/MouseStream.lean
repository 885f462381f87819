import AdamOS.Display.MouseInput

/-! mouse.c on an arbitrary stream of bytes. Whatever arrives, the handler moves the pointer by the
packets that can be read from the stream, as numbers and clipped to the screen. -/
namespace AdamOS.Desktop
open AdamOS.Vga AdamOS.Windows AdamOS.Word

/-! ### What the stream says -/

/- A packet begins with a byte that has the sync bit; bytes without it are passed over until then. -/
def packets : List UInt8 → List Packet
  | [] => []
  | status :: rest =>
    if h : status &&& 8 ≠ 0 then
      match rest with
      | dx :: dy :: more => ⟨status, dx, dy, h⟩ :: packets more
      | _ => []
    else packets rest

/- Nine bits in two's complement, the sign in the first byte. -/
def signed (negative : Bool) (b : UInt8) : Int := if negative then (b.toNat : Int) - 256 else b.toNat

def Packet.right (p : Packet) : Int := signed (p.status &&& 16 ≠ 0) p.dx
def Packet.up (p : Packet) : Int := signed (p.status &&& 32 ≠ 0) p.dy

def clip (size : Nat) (x : Int) : Int := max 0 (min x (size - 1))

structure Pointer where
  (x y : Int)
  buttons : Nat
deriving DecidableEq, Repr

def Pointer.move (S : Screen) (q : Pointer) (p : Packet) : Pointer :=
  if p.overflows then q
  else ⟨clip S.width (q.x + p.right), clip S.height (q.y - p.up), p.status.toNat % 8⟩

def Pointer.onScreen (S : Screen) (q : Pointer) : Prop :=
  (0 ≤ q.x ∧ q.x < S.width) ∧ 0 ≤ q.y ∧ q.y < S.height

def pointerOf (m : Mouse) : Pointer := ⟨m.mouseX, m.mouseY, m.mouseButtons⟩

/-! ### One packet -/

variable {S : Screen} {m : Mouse} {d : MouseDriver} {b : UInt8}

theorem signed_bounds (negative : Bool) (b : UInt8) :
    -256 ≤ signed negative b ∧ signed negative b < 256 := by
  have hb := b.toNat_lt
  unfold signed
  split <;> omega

/-- The bits or-ed in front of a byte are those of a negative number. -/
theorem displacement_signed (negative : Bool) (b : UInt8) : displacement negative b = signed negative b := by
  cases negative with
  | false => rfl
  | true =>
    have hb := b.toNat_lt
    have hor : b.toNat ||| 0xFFFFFF00 = 0xFFFFFF * 256 + b.toNat := by
      rw [Nat.or_comm]
      exact (Nat.shiftLeft_add_eq_or_of_lt hb 0xFFFFFF).symm
    have hneg : toInt32 (0xFFFFFF * 256 + b.toNat) = (b.toNat : Int) - 256 := by
      unfold toInt32 wrap
      omega
    rw [displacement, if_pos rfl, hor, hneg, signed, if_pos rfl]

/-- With unsigned comparisons the clamp is the clip of a number. -/
theorem clamp_clip {size : Nat} (hpos : 0 < size) (hsize : size < 65536) {x : Int}
    (hx : -2147483648 ≤ x ∧ x < 2147483648) : clamp size x = clip size x := by
  have hlast : sub32 size 1 = size - 1 := sub32_eq hpos (by omega)
  have hint : toInt32 (size - 1) = ((size - 1 : Nat) : Int) := toInt32_eq (by omega)
  unfold clamp clip
  rw [hlast, hint]
  dsimp only
  by_cases hneg : x < 0
  · rw [if_pos hneg, if_neg (by rw [ofInt32_eq (by omega) (by omega)]; omega)]
    omega
  · rw [if_neg hneg, ofInt32_eq (by omega) (by omega)]
    split <;> omega

theorem clip_bounds {size : Nat} (hpos : 0 < size) (x : Int) : 0 ≤ clip size x ∧ clip size x < size := by
  unfold clip
  omega

theorem Pointer.move_onScreen (hwidth : 0 < S.width) {q : Pointer} (h : q.onScreen S) (p : Packet) :
    (q.move S p).onScreen S := by
  unfold Pointer.move
  split
  · exact h
  · exact ⟨clip_bounds hwidth _, clip_bounds S.height_pos _⟩

/-- The handler does with a packet what the packet says. -/
theorem takePacket_moves (hwidth : 0 < S.width) (h : (pointerOf m).onScreen S) (hd : d.mouseCycle = 0)
    (p : Packet) : (takePacket S p (d, m)).1.mouseCycle = 0 ∧
      pointerOf (takePacket S p (d, m)).2 = (pointerOf m).move S p := by
  have hw : S.width < 65536 := Nat.lt_of_le_of_lt S.width_le S.pitch_lt
  have hh := S.height_lt
  rw [takePacket_eq hd]
  refine ⟨rfl, ?_⟩
  dsimp only
  unfold Pointer.move
  by_cases hover : p.overflows = true
  · rw [if_pos hover, if_pos hover]
  rw [if_neg hover, if_neg hover]
  obtain ⟨⟨hx0, hx⟩, hy0, hy⟩ := h
  change 0 ≤ m.mouseX at hx0
  change m.mouseX < S.width at hx
  change 0 ≤ m.mouseY at hy0
  change m.mouseY < S.height at hy
  have hright := signed_bounds (p.status &&& 16 ≠ 0) p.dx
  have hup := signed_bounds (p.status &&& 32 ≠ 0) p.dy
  have hbuttons : (p.status &&& 7).toNat = p.status.toNat % 8 := by
    rw [UInt8.toNat_and]
    exact Nat.and_two_pow_sub_one_eq_mod _ 3
  unfold pointerOf movedMouse
  dsimp only
  rw [displacement_signed, displacement_signed, hbuttons, int32_eq (by omega) (by omega),
    int32_eq (by omega) (by omega), clamp_clip hwidth hw (by omega), clamp_clip S.height_pos hh (by omega)]
  rfl

/-! ### A stream -/

theorem skippedByte (hd : d.mouseCycle = 0) (hb : ¬b &&& 8 ≠ 0) :
    mouseHandlerMain S (d, m) b = ({ d with byte0 := b }, m) := by
  unfold mouseHandlerMain
  rw [if_pos hd, if_pos (not_not.mp hb)]

/-- For every stream of bytes the pointer ends where the packets in the stream put it, and it never
leaves the screen. -/
theorem stream_moves (hwidth : 0 < S.width) (bytes : List UInt8) (h : (pointerOf m).onScreen S)
    (hd : d.mouseCycle = 0) : pointerOf (bytes.foldl (mouseHandlerMain S) (d, m)).2 =
        (packets bytes).foldl (Pointer.move S) (pointerOf m) ∧
      (pointerOf (bytes.foldl (mouseHandlerMain S) (d, m)).2).onScreen S := by
  induction bytes using packets.induct generalizing d m with
  | case1 => exact ⟨rfl, h⟩
  | case2 status hs dx dy more ih =>
    obtain ⟨hcycle, hmove⟩ := takePacket_moves hwidth h hd ⟨status, dx, dy, hs⟩
    have hnext : (pointerOf (takePacket S ⟨status, dx, dy, hs⟩ (d, m)).2).onScreen S := by
      rw [hmove]
      exact Pointer.move_onScreen hwidth h _
    have hsplit : (status :: dx :: dy :: more).foldl (mouseHandlerMain S) (d, m) =
        more.foldl (mouseHandlerMain S) (takePacket S ⟨status, dx, dy, hs⟩ (d, m)) := rfl
    rw [hsplit, packets, dif_pos hs, List.foldl_cons, ← hmove]
    exact ih hnext hcycle
  | case3 status rest hs hshort =>
    -- The stream breaks off inside the packet.
    have hsame : (rest.foldl (mouseHandlerMain S) ({ d with byte0 := status, mouseCycle := 1 }, m)).2 = m := by
      rcases rest with _ | ⟨dx, _ | ⟨dy, more⟩⟩
      · rfl
      · rfl
      · exact absurd rfl (hshort dx dy more)
    have hnone : packets (status :: rest) = [] := by
      rw [packets, dif_pos hs]
      split
      · exact absurd rfl (hshort _ _ _)
      · rfl
    rw [hnone, List.foldl_cons, firstByte hd hs, hsame]
    exact ⟨rfl, h⟩
  | case4 status rest hs ih =>
    rw [packets, dif_neg hs, List.foldl_cons, skippedByte hd hs]
    exact ih h hd

/- Two stray bytes, a packet to the lower left, one that overflows, and the beginning of a third. -/
def sampleStream : List UInt8 := [0x00, 0x41, 0x39, 0xF0, 0xEC, 0x48, 0xFF, 0x00, 0x08, 0x01]

def sampleMouse : Mouse := ⟨10, 590, 10, 590, 0, 0⟩

theorem sampleStream_moves :
    pointerOf (sampleStream.foldl (mouseHandlerMain mode103) (⟨0, 0, 0, 0⟩, sampleMouse)).2 =
        (packets sampleStream).foldl (Pointer.move mode103) (pointerOf sampleMouse) ∧
      (pointerOf (sampleStream.foldl (mouseHandlerMain mode103) (⟨0, 0, 0, 0⟩, sampleMouse)).2).onScreen
        mode103 :=
  stream_moves (by decide) sampleStream (by unfold Pointer.onScreen; decide) rfl

example : (packets sampleStream).foldl (Pointer.move mode103) (pointerOf sampleMouse) = ⟨0, 599, 1⟩ := by
  decide

end AdamOS.Desktop
