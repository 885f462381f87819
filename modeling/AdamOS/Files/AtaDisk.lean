import AdamOS.Files.Volume

/-! ata-disk.c on the ports of a drive. The drive takes as long as it likes over each command; the
driver waits for it and so serves reads and writes of whole sectors. -/
namespace AdamOS.AtaDisk
open AdamOS.Fat16 AdamOS.Loop

def ataDataPort : Nat := 0x1F0
def ataSectorCount : Nat := 0x1F2
def ataLbaLow : Nat := 0x1F3
def ataLbaMid : Nat := 0x1F4
def ataLbaHigh : Nat := 0x1F5
def ataDrivePort : Nat := 0x1F6
def ataStatusPort : Nat := 0x1F7
def ataCommandPort : Nat := 0x1F7
def ataCmdRead : Nat := 0x20
def ataCmdWrite : Nat := 0x30
def ataCmdFlush : Nat := 0xE7
def ataStatusBsy : Nat := 0x80
def ataStatusDrq : Nat := 0x08
def ataDriveMaster : Nat := 0xE0

/-! ### The drive -/

/- What the data port is for: the next word of the sector asked for, or the words received so far. -/
inductive Transfer where
  | none
  | out (pos : Nat)
  | into (words : Nat → Nat) (pos : Nat)

structure Drive where
  disk : Disk
  capacity : Nat
  /- the task file -/
  sectorCount : Nat
  lbaLow : Nat
  lbaMid : Nat
  lbaHigh : Nat
  select : Nat
  transfer : Transfer
  failed : Bool
  /- how often the status will still be read as busy, and how long the next waits are -/
  busy : Nat
  delay : Nat → Nat
  waits : Nat
  /- the bits beside BSY while the drive is busy -/
  busyBits : Nat

namespace Drive

def lba (d : Drive) : Nat :=
  d.lbaLow + d.lbaMid * 256 + d.lbaHigh * 65536 + d.select % 16 * 16777216

def wait (d : Drive) : Drive := { d with busy := d.delay d.waits, waits := d.waits + 1 }

/- DRDY with DRQ or ERR; a busy drive shows BSY. -/
def status (d : Drive) : Nat :=
  if 0 < d.busy then ataStatusBsy ||| d.busyBits
  else match d.transfer with
    | .none => if d.failed then 0x51 else 0x50
    | _ => 0x58

/- Commands of one sector in LBA mode. No command is taken while another is served. -/
def command (v : Nat) (d : Drive) : Drive :=
  match d.transfer with
  | .none =>
    if 0 < d.busy then d
    else if v = ataCmdFlush then { d with failed := false }.wait
    else if d.sectorCount = 1 ∧ d.select / 64 % 2 = 1 ∧ d.lba < d.capacity then
      if v = ataCmdRead then { d with transfer := .out 0, failed := false }.wait
      else if v = ataCmdWrite then { d with transfer := .into (fun _ => 0) 0, failed := false }.wait
      else { d with failed := true }
    else { d with failed := true }.wait
  | _ => d

def sectorOf (words : Nat → Nat) : Sector := fun j => byteOf (words (j / 2)) (j % 2)

end Drive

open Drive

def inb (port : Nat) (d : Drive) : Nat × Drive :=
  if port = ataStatusPort then (d.status, { d with busy := d.busy - 1 }) else (0xFF, d)

def outb (port v : Nat) (d : Drive) : Drive :=
  if port = ataSectorCount then { d with sectorCount := v }
  else if port = ataLbaLow then { d with lbaLow := v }
  else if port = ataLbaMid then { d with lbaMid := v }
  else if port = ataLbaHigh then { d with lbaHigh := v }
  else if port = ataDrivePort then { d with select := v }
  else if port = ataCommandPort then d.command v
  else d

def inw (port : Nat) (d : Drive) : Nat × Drive :=
  if port = ataDataPort ∧ d.busy = 0 then
    match d.transfer with
    | .out pos => (le16 (d.disk d.lba) (2 * pos),
        { d with transfer := if pos + 1 = 256 then .none else .out (pos + 1) })
    | _ => (0xFFFF, d)
  else (0xFFFF, d)

def outw (port v : Nat) (d : Drive) : Drive :=
  if port = ataDataPort ∧ d.busy = 0 then
    match d.transfer with
    | .into words pos =>
      let words := Function.update words pos v
      if pos + 1 = 256 then
        { d with disk := Function.update d.disk d.lba (sectorOf words), transfer := .none }.wait
      else { d with transfer := .into words (pos + 1) }
    | _ => d
  else d

/-! ### The driver -/

/- while (!ready) status = inb(ATA_STATUS_PORT), behind a first inb. -/
def poll (ready : Nat → Bool) : Nat → Drive → Option Drive
  | 0, _ => none
  | fuel+1, d =>
    let r := inb ataStatusPort d
    if ready r.1 then some r.2 else poll ready fuel r.2

def ataAwait (fuel : Nat) (d : Drive) : Option Drive :=
  poll (fun status => status &&& ataStatusBsy = 0) fuel d

def awaitData (fuel : Nat) (d : Drive) : Option Drive :=
  poll (fun status => status &&& ataStatusDrq ≠ 0) fuel d

def ataSelect (lba : Nat) (d : Drive) : Drive :=
  let d := outb ataSectorCount 1 d
  let d := outb ataLbaLow (lba &&& 0xFF) d
  let d := outb ataLbaMid ((lba >>> 8) &&& 0xFF) d
  let d := outb ataLbaHigh ((lba >>> 16) &&& 0xFF) d
  outb ataDrivePort (ataDriveMaster ||| ((lba >>> 24) &&& 0x0F)) d

/- ptr[i] = inw(ATA_DATA_PORT) -/
def readWord (i : Nat) (s : (Nat → Nat) × Drive) : (Nat → Nat) × Drive :=
  let r := inw ataDataPort s.2
  (Function.update s.1 i r.1, r.2)

def ataReadSector (fuel lba : Nat) (d : Drive) : Option (Sector × Drive) := do
  let d ← ataAwait fuel d
  let d ← awaitData fuel (outb ataCommandPort ataCmdRead (ataSelect lba d))
  let r := loop 256 readWord (fun _ => 0, d)
  return (sectorOf r.1, r.2)

def ataWriteSector (fuel lba : Nat) (buf : Sector) (d : Drive) : Option Drive := do
  let d ← ataAwait fuel d
  let d ← awaitData fuel (outb ataCommandPort ataCmdWrite (ataSelect lba d))
  let d := loop 256 (fun i => outw ataDataPort (le16 buf (2 * i))) d
  ataAwait fuel (outb ataCommandPort ataCmdFlush d)

/-! ### Waiting -/

variable {d d' : Drive} {fuel lba n : Nat} {buf : Sector}

/- Between calls of the driver the drive is in no transfer. While it is busy DRQ is clear. -/
structure Settled (d : Drive) : Prop where
  transfer : d.transfer = .none
  clear : d.busyBits &&& ataStatusDrq = 0

/-- A loop that waits for a condition that a busy drive does not meet ends when the drive is ready. -/
theorem poll_ready {ready : Nat → Bool} (hbusy : ready (ataStatusBsy ||| d.busyBits) = false)
    (hready : ready { d with busy := 0 }.status = true) (hfuel : d.busy < fuel) :
    poll ready fuel d = some { d with busy := 0 } := by
  induction fuel generalizing d with
  | zero => exact absurd hfuel (Nat.not_lt_zero _)
  | succ fuel ih =>
    have hin : inb ataStatusPort d = (d.status, { d with busy := d.busy - 1 }) := if_pos rfl
    rw [poll, hin]
    dsimp only
    by_cases hb : 0 < d.busy
    · have hst : d.status = ataStatusBsy ||| d.busyBits := if_pos hb
      rw [hst, hbusy, if_neg (by decide)]
      exact ih hbusy hready (by dsimp only; omega)
    · have hzero : d.busy = 0 := Nat.eq_zero_of_not_pos hb
      have hsame : { d with busy := 0 } = d := by rw [← hzero]
      rw [hsame] at hready
      rw [hready, if_pos rfl, hzero]

/-- A loop whose condition the drive never meets never ends. -/
theorem poll_stuck {ready : Nat → Bool} (hbusy : ready (ataStatusBsy ||| d.busyBits) = false)
    (hready : ready { d with busy := 0 }.status = false) : poll ready fuel d = none := by
  induction fuel generalizing d with
  | zero => rfl
  | succ fuel ih =>
    have hin : inb ataStatusPort d = (d.status, { d with busy := d.busy - 1 }) := if_pos rfl
    rw [poll, hin]
    dsimp only
    have hst : ready d.status = false := by
      by_cases hb : 0 < d.busy
      · have hst : d.status = ataStatusBsy ||| d.busyBits := if_pos hb
        rw [hst, hbusy]
      · have hsame : { d with busy := 0 } = d := by rw [← Nat.eq_zero_of_not_pos hb]
        rw [← hsame, hready]
    rw [hst, if_neg (by decide)]
    exact ih hbusy hready

theorem poll_short {ready : Nat → Bool} (hbusy : ready (ataStatusBsy ||| d.busyBits) = false)
    (hfuel : fuel ≤ d.busy) : poll ready fuel d = none := by
  induction fuel generalizing d with
  | zero => rfl
  | succ fuel ih =>
    have hin : inb ataStatusPort d = (d.status, { d with busy := d.busy - 1 }) := if_pos rfl
    have hst : d.status = ataStatusBsy ||| d.busyBits := if_pos (Nat.zero_lt_of_lt hfuel)
    rw [poll, hin]
    dsimp only
    rw [hst, hbusy, if_neg (by decide)]
    exact ih hbusy (by dsimp only; omega)

theorem bsy_set (b : Nat) : (ataStatusBsy ||| b) &&& ataStatusBsy ≠ 0 := by
  intro h
  have hbit : ((ataStatusBsy ||| b) &&& ataStatusBsy).testBit 7 = true := by
    rw [Nat.testBit_and, Nat.testBit_or]
    rfl
  rw [h] at hbit
  cases hbit

theorem drq_clear {b : Nat} (h : b &&& ataStatusDrq = 0) : (ataStatusBsy ||| b) &&& ataStatusDrq = 0 := by
  rw [Nat.and_or_distrib_right, h]
  rfl

theorem ataAwait_ready (h : d.transfer = .none) (hfuel : d.busy < fuel) :
    ataAwait fuel d = some { d with busy := 0 } := by
  refine poll_ready (decide_eq_false (bsy_set _)) ?_ hfuel
  simp only [status, h, Nat.lt_irrefl, if_false]
  cases d.failed <;> rfl

theorem awaitData_ready (hclear : d.busyBits &&& ataStatusDrq = 0) (h : d.transfer ≠ .none)
    (hfuel : d.busy < fuel) : awaitData fuel d = some { d with busy := 0 } := by
  refine poll_ready ?_ ?_ hfuel
  · rw [drq_clear hclear]
    rfl
  · have hst : ({ d with busy := 0 } : Drive).status = 0x58 := by
      cases ht : d.transfer with
      | none => exact absurd ht h
      | out pos => simp only [status, Nat.lt_irrefl, if_false]
      | into words pos => simp only [status, Nat.lt_irrefl, if_false]
    rw [hst]
    rfl

/-- A drive that has nothing to transfer never shows DRQ. -/
theorem awaitData_stuck (h : Settled d) : awaitData fuel d = none := by
  refine poll_stuck ?_ ?_
  · rw [drq_clear h.clear]
    rfl
  · simp only [status, h.transfer, Nat.lt_irrefl, if_false]
    cases d.failed <;> rfl

/-! ### Addressing a sector -/

theorem and_byte (n : Nat) : n &&& 0xFF = n % 256 := Nat.and_two_pow_sub_one_eq_mod n 8

theorem and_nibble (n : Nat) : n &&& 0x0F = n % 16 := Nat.and_two_pow_sub_one_eq_mod n 4

structure Selected (d : Drive) (lba : Nat) : Prop where
  transfer : d.transfer = .none
  idle : d.busy = 0
  one : d.sectorCount = 1
  mode : d.select / 64 % 2 = 1
  lba : d.lba = ataLba lba

/-- The registers after ata_select name one sector, the one that ataLba names. -/
theorem ataSelect_selected (lba : Nat) (ht : d.transfer = .none) (hb : d.busy = 0) :
    Selected (ataSelect lba d) lba := by
  have hmaster : ∀ k < 16, (ataDriveMaster ||| k) % 16 = k ∧ (ataDriveMaster ||| k) / 64 % 2 = 1 := by
    decide
  have hnibble : (lba >>> 24) &&& 0x0F < 16 := by
    rw [and_nibble]
    exact Nat.mod_lt _ (by decide)
  obtain ⟨hmod, hmode⟩ := hmaster _ hnibble
  refine ⟨ht, hb, rfl, hmode, ?_⟩
  change (lba &&& 0xFF) + ((lba >>> 8) &&& 0xFF) * 256 + ((lba >>> 16) &&& 0xFF) * 65536 +
    (ataDriveMaster ||| ((lba >>> 24) &&& 0x0F)) % 16 * 16777216 = ataLba lba
  rw [hmod]
  simp only [and_byte, and_nibble, Nat.shiftRight_eq_div_pow, ataLba]
  omega

theorem Selected.read (h : Selected d lba) (hcap : ataLba lba < d.capacity) :
    d.command ataCmdRead = { d with transfer := .out 0, failed := false }.wait := by
  rw [command, h.transfer]
  dsimp only
  rw [if_neg (by rw [h.idle]; exact Nat.lt_irrefl 0), if_neg (by decide),
    if_pos ⟨h.one, h.mode, h.lba.symm ▸ hcap⟩, if_pos rfl]

theorem Selected.write (h : Selected d lba) (hcap : ataLba lba < d.capacity) :
    d.command ataCmdWrite = { d with transfer := .into (fun _ => 0) 0, failed := false }.wait := by
  rw [command, h.transfer]
  dsimp only
  rw [if_neg (by rw [h.idle]; exact Nat.lt_irrefl 0), if_neg (by decide),
    if_pos ⟨h.one, h.mode, h.lba.symm ▸ hcap⟩, if_neg (by decide), if_pos rfl]

theorem Selected.refused {v : Nat} (h : Selected d lba) (hv : v ≠ ataCmdFlush)
    (hcap : ¬ataLba lba < d.capacity) : d.command v = { d with failed := true }.wait := by
  rw [command, h.transfer]
  dsimp only
  rw [if_neg (by rw [h.idle]; exact Nat.lt_irrefl 0), if_neg hv,
    if_neg fun hg => hcap (h.lba ▸ hg.2.2)]

/-! ### Transfers -/

/-- After k words the buffer holds the first k of the sector, and the drive is at the k-th. -/
theorem readWords (hb : d.busy = 0) (ht : d.transfer = .out 0) (words : Nat → Nat) :
    let r := loop 256 readWord (words, d)
    (∀ i < 256, r.1 i = le16 (d.disk d.lba) (2 * i)) ∧ r.2 = { d with transfer := .none } := by
  have hinv := @loop_invariant _
    (fun k s => (∀ i < k, s.1 i = le16 (d.disk d.lba) (2 * i)) ∧
      s.2 = { d with transfer := if k = 256 then .none else .out k })
    256 readWord (words, d)
    ⟨fun i hi => absurd hi (Nat.not_lt_zero i), by rw [if_neg (by decide), ← ht]⟩ ?_
  · exact ⟨hinv.1, by rw [hinv.2, if_pos rfl]⟩
  · rintro k hk ⟨buf, t⟩ ⟨hbuf, rfl⟩
    have hin : inw ataDataPort { d with transfer := if k = 256 then .none else .out k } =
        (le16 (d.disk d.lba) (2 * k), { d with transfer := if k + 1 = 256 then .none else .out (k + 1) }) := by
      rw [if_neg (Nat.ne_of_lt hk), inw, if_pos ⟨rfl, hb⟩]
      rfl
    rw [readWord, hin]
    refine ⟨fun i hi => ?_, rfl⟩
    by_cases hik : i = k
    · rw [hik]
      exact Function.update_self ..
    · exact (Function.update_of_ne hik ..).trans (hbuf i (by omega))

/-- The words the drive has received; the 256th ends the transfer. -/
theorem writeWords (hb : d.busy = 0) (ht : d.transfer = .into (fun _ => 0) 0) (f : Nat → Nat) :
    ∃ words, (∀ i < 256, words i = f i) ∧ loop 256 (fun i => outw ataDataPort (f i)) d =
      { d with disk := Function.update d.disk d.lba (sectorOf words), transfer := .none }.wait := by
  have hinv := @loop_invariant _
    (fun k t => ∃ words, (∀ i < k, words i = f i) ∧ t = { d with transfer := .into words k })
    255 (fun i => outw ataDataPort (f i)) d
    ⟨fun _ => 0, fun i hi => absurd hi (Nat.not_lt_zero i), by rw [← ht]⟩ ?_
  · obtain ⟨words, hwords, hd⟩ := hinv
    refine ⟨Function.update words 255 (f 255), fun i hi => ?_, ?_⟩
    · by_cases hi' : i = 255
      · rw [hi']
        exact Function.update_self ..
      · exact (Function.update_of_ne hi' ..).trans (hwords i (by omega))
    · rw [loop_succ, hd, outw, if_pos ⟨rfl, hb⟩]
      rfl
  · rintro k hk t ⟨words, hwords, rfl⟩
    refine ⟨Function.update words k (f k), fun i hi => ?_, ?_⟩
    · by_cases hik : i = k
      · rw [hik]
        exact Function.update_self ..
      · exact (Function.update_of_ne hik ..).trans (hwords i (by omega))
    · rw [outw, if_pos ⟨rfl, hb⟩]
      dsimp only
      rw [if_neg (by omega)]

/-- The bytes of a sector, taken apart into words and put together again. -/
theorem sectorOf_le16 {words : Nat → Nat} (s : Sector) (h : ∀ i < 256, words i = le16 s (2 * i)) {j : Nat}
    (hj : j < sectorSize) : sectorOf words j = s j := by
  have hdiv : j / 2 < 256 := by
    unfold sectorSize at hj
    omega
  have h0 := (s (2 * (j / 2))).toNat_lt
  have h1 := (s (2 * (j / 2) + 1)).toNat_lt
  refine UInt8.toNat_inj.mp ?_
  rw [sectorOf, h _ hdiv, le16, byteOf, UInt8.toNat_ofNat']
  rcases Nat.mod_two_eq_zero_or_one j with hmod | hmod
  · have hj2 : 2 * (j / 2) = j := by omega
    rw [hj2] at h0 h1 ⊢
    rw [hmod, Nat.pow_zero, Nat.div_one]
    omega
  · have hj2 : 2 * (j / 2) + 1 = j := by omega
    rw [hj2] at h1 ⊢
    rw [hmod, Nat.pow_one]
    omega

/-! ### The driver serves sectors -/

def SameBytes (d d' : Disk) : Prop := ∀ l, ∀ j < sectorSize, d l j = d' l j

def Patient (fuel : Nat) (d : Drive) : Prop := d.busy < fuel ∧ ∀ k, d.delay k < fuel

/- The drive `t` has taken the command for sector `lba` that was given to `d`, and shows DRQ. -/
structure Underway (d t : Drive) (lba : Nat) (transfer : Transfer) : Prop where
  transfer : t.transfer = transfer
  idle : t.busy = 0
  lba : t.lba = ataLba lba
  disk : t.disk = d.disk
  capacity : t.capacity = d.capacity
  busyBits : t.busyBits = d.busyBits
  delay : t.delay = d.delay

theorem begins {v : Nat} {transfer : Transfer} (h : Settled d) (hf : Patient fuel d)
    (hcmd : ∀ t, Selected t lba → t.capacity = d.capacity →
      t.command v = { t with transfer := transfer, failed := false }.wait)
    (ht : transfer ≠ .none) : ∃ t, Underway d t lba transfer ∧ ataAwait fuel d = some { d with busy := 0 } ∧
      awaitData fuel (outb ataCommandPort v (ataSelect lba { d with busy := 0 })) = some t := by
  obtain ⟨t, hsel⟩ : ∃ t, t = ataSelect lba { d with busy := 0 } := ⟨_, rfl⟩
  have hs : Selected t lba := hsel ▸ ataSelect_selected lba h.transfer rfl
  have hkeep : t.disk = d.disk ∧ t.capacity = d.capacity ∧ t.busyBits = d.busyBits ∧ t.delay = d.delay := by
    rw [hsel]
    exact ⟨rfl, rfl, rfl, rfl⟩
  obtain ⟨hdisk, hcapacity, hbits, hdelay⟩ := hkeep
  have htake : outb ataCommandPort v t = { t with transfer := transfer, failed := false }.wait :=
    hcmd t hs hcapacity
  refine ⟨{ { t with transfer := transfer, failed := false }.wait with busy := 0 },
    ⟨rfl, rfl, hs.lba, hdisk, hcapacity, hbits, hdelay⟩, ataAwait_ready h.transfer hf.1, ?_⟩
  rw [← hsel, htake]
  refine awaitData_ready ?_ ht ?_
  · change t.busyBits &&& ataStatusDrq = 0
    rw [hbits]
    exact h.clear
  · change t.delay t.waits < fuel
    rw [hdelay]
    exact hf.2 _

/-- A read of a sector the drive has returns its bytes, whatever the waits, and leaves the drive ready. -/
theorem readSector_served (h : Settled d) (hf : Patient fuel d) (hcap : ataLba lba < d.capacity) :
    ∃ s d', ataReadSector fuel lba d = some (s, d') ∧
      (∀ j < sectorSize, s j = Fat16.ataReadSector d.disk lba j) ∧ d'.disk = d.disk ∧ Settled d' ∧
      Patient fuel d' ∧ d'.capacity = d.capacity := by
  obtain ⟨t, hu, hawait, hdata⟩ := @begins d fuel lba _ _ h hf
    (fun t hs hc => hs.read (hc ▸ hcap)) (fun h => nomatch h)
  obtain ⟨r, hr⟩ : ∃ r, r = loop 256 readWord (fun _ => 0, t) := ⟨_, rfl⟩
  obtain ⟨hwords, hlast⟩ := readWords hu.idle hu.transfer fun _ => 0
  rw [← hr] at hwords hlast
  refine ⟨sectorOf r.1, r.2, ?_, fun j hj => ?_, ?_, ⟨?_, ?_⟩, ⟨?_, ?_⟩, ?_⟩
  · rw [ataReadSector, hawait]
    dsimp only [Option.bind_eq_bind, Option.bind_some]
    rw [hdata, hr]
    rfl
  · rw [hu.lba, hu.disk] at hwords
    exact sectorOf_le16 _ hwords hj
  · rw [hlast]
    exact hu.disk
  · rw [hlast]
  · rw [hlast]
    change t.busyBits &&& ataStatusDrq = 0
    rw [hu.busyBits]
    exact h.clear
  · rw [hlast]
    change t.busy < fuel
    rw [hu.idle]
    exact Nat.zero_lt_of_lt hf.1
  · rw [hlast]
    change ∀ k, t.delay k < fuel
    rw [hu.delay]
    exact hf.2
  · rw [hlast]
    exact hu.capacity

/-- What the flush leaves of a drive that may still be busy with the last sector. -/
theorem flush_waits (h : d.transfer = .none) (hf : Patient fuel d) :
    ∃ t, outb ataCommandPort ataCmdFlush d = t ∧ t.transfer = .none ∧ t.busy < fuel ∧ t.disk = d.disk ∧
      t.capacity = d.capacity ∧ t.busyBits = d.busyBits ∧ t.delay = d.delay := by
  refine ⟨_, rfl, ?_⟩
  have hcmd : outb ataCommandPort ataCmdFlush d = d.command ataCmdFlush := rfl
  rw [hcmd, command, h]
  dsimp only
  by_cases hb : 0 < d.busy
  · rw [if_pos hb]
    exact ⟨h, hf.1, rfl, rfl, rfl, rfl⟩
  · rw [if_neg hb, if_pos rfl]
    exact ⟨rfl, hf.2 _, rfl, rfl, rfl, rfl⟩

/-- A write puts the buffer on the disk, whatever the waits, and leaves the drive ready. -/
theorem writeSector_served (h : Settled d) (hf : Patient fuel d) (hcap : ataLba lba < d.capacity) :
    ∃ d', ataWriteSector fuel lba buf d = some d' ∧
      SameBytes d'.disk (Fat16.ataWriteSector lba buf d.disk) ∧ Settled d' ∧ Patient fuel d' ∧
      d'.capacity = d.capacity := by
  obtain ⟨t, hu, hawait, hdata⟩ := @begins d fuel lba _ _ h hf
    (fun t hs hc => hs.write (hc ▸ hcap)) (fun h => nomatch h)
  obtain ⟨words, hwords, hlast⟩ := writeWords hu.idle hu.transfer fun i => le16 buf (2 * i)
  obtain ⟨u, hueq⟩ : ∃ u, u =
      { t with disk := Function.update t.disk t.lba (sectorOf words), transfer := .none }.wait := ⟨_, rfl⟩
  rw [← hueq] at hlast
  have hkeep : u.disk = Function.update d.disk (ataLba lba) (sectorOf words) ∧ u.capacity = d.capacity ∧
      u.busyBits = d.busyBits ∧ u.delay = d.delay ∧ u.transfer = .none := by
    rw [hueq, ← hu.disk, ← hu.lba, ← hu.capacity, ← hu.busyBits, ← hu.delay]
    exact ⟨rfl, rfl, rfl, rfl, rfl⟩
  obtain ⟨hdisk, hcapacity, hbits, hdelay, hnone⟩ := hkeep
  have hpatient : Patient fuel u := by
    refine ⟨?_, hdelay ▸ hf.2⟩
    rw [hueq]
    change t.delay t.waits < fuel
    rw [hu.delay]
    exact hf.2 _
  obtain ⟨w, hflush, hwnone, hwbusy, hwdisk, hwcapacity, hwbits, hwdelay⟩ := flush_waits hnone hpatient
  refine ⟨{ w with busy := 0 }, ?_, ?_, ⟨hwnone, ?_⟩, ⟨Nat.zero_lt_of_lt hf.1, ?_⟩, ?_⟩
  · rw [ataWriteSector, hawait]
    dsimp only [Option.bind_eq_bind, Option.bind_some]
    rw [hdata]
    dsimp only [Option.bind_some]
    rw [hlast, hflush]
    exact ataAwait_ready hwnone hwbusy
  · intro l j hj
    dsimp only
    rw [hwdisk, hdisk, Fat16.ataWriteSector]
    by_cases hl : l = ataLba lba
    · rw [hl, Function.update_self, if_pos rfl]
      exact sectorOf_le16 _ hwords hj
    · rw [Function.update_of_ne hl, if_neg hl]
  · exact (congrArg (· &&& ataStatusDrq) (hwbits.trans hbits)).trans h.clear
  · exact (hwdelay.trans hdelay) ▸ hf.2
  · exact hwcapacity.trans hcapacity

/-- A sector the drive does not have: nothing looks at the error, and the wait for data never ends. -/
theorem missing_sector (h : Settled d) (hcap : ¬ataLba lba < d.capacity) :
    ataReadSector fuel lba d = none ∧ ataWriteSector fuel lba buf d = none := by
  have hstuck : ∀ v, v ≠ ataCmdFlush →
      awaitData fuel (outb ataCommandPort v (ataSelect lba { d with busy := 0 })) = none := by
    intro v hv
    have hs : Selected (ataSelect lba { d with busy := 0 }) lba := ataSelect_selected lba h.transfer rfl
    have hcmd : outb ataCommandPort v (ataSelect lba { d with busy := 0 }) =
        (ataSelect lba { d with busy := 0 }).command v := rfl
    rw [hcmd, hs.refused hv hcap]
    exact awaitData_stuck ⟨h.transfer, h.clear⟩
  by_cases hf : d.busy < fuel
  · have hawait := ataAwait_ready h.transfer hf
    constructor
    · rw [ataReadSector, hawait]
      dsimp only [Option.bind_eq_bind, Option.bind_some]
      rw [hstuck ataCmdRead (by decide)]
      rfl
    · rw [ataWriteSector, hawait]
      dsimp only [Option.bind_eq_bind, Option.bind_some]
      rw [hstuck ataCmdWrite (by decide)]
      rfl
  · have hawait : ataAwait fuel d = none :=
      poll_short (decide_eq_false (bsy_set _)) (Nat.le_of_not_lt hf)
    constructor
    · rw [ataReadSector, hawait]
      rfl
    · rw [ataWriteSector, hawait]
      rfl

/-- The driver comes back from a read or a write if and only if the drive has the sector. -/
theorem returns_iff {bound : Nat} (h : Settled d) (hd : ∀ k, d.delay k < bound) :
    ((∃ fuel, (ataReadSector fuel lba d).isSome) ↔ ataLba lba < d.capacity) ∧
      ((∃ fuel, (ataWriteSector fuel lba buf d).isSome) ↔ ataLba lba < d.capacity) := by
  have hf : Patient (d.busy + bound + 1) d := ⟨by omega, fun k => Nat.lt_of_lt_of_le (hd k) (by omega)⟩
  refine ⟨⟨?_, fun hcap => ?_⟩, ⟨?_, fun hcap => ?_⟩⟩
  · rintro ⟨fuel, hsome⟩
    by_contra hcap
    rw [(@missing_sector d fuel lba buf h hcap).1] at hsome
    cases hsome
  · obtain ⟨s, t, hread, -⟩ := readSector_served h hf hcap
    exact ⟨_, by rw [hread]; rfl⟩
  · rintro ⟨fuel, hsome⟩
    by_contra hcap
    rw [(@missing_sector d fuel lba buf h hcap).2] at hsome
    cases hsome
  · obtain ⟨t, hwrite, -⟩ := @writeSector_served d _ lba buf h hf hcap
    exact ⟨_, by rw [hwrite]; rfl⟩

def slowDrive : Drive where
  disk := fun _ _ => 0
  capacity := 20480
  sectorCount := 0
  lbaLow := 0
  lbaMid := 0
  lbaHigh := 0
  select := 0
  transfer := .none
  failed := false
  busy := 3
  delay := fun k => k % 5 + 1
  waits := 0
  busyBits := 0x40

theorem slowDrive_settled : Settled slowDrive := ⟨rfl, by decide⟩

theorem slowDrive_delay (k : Nat) : slowDrive.delay k < 6 := by
  have hmod := Nat.mod_lt k (by decide : 5 > 0)
  change k % 5 + 1 < 6
  omega

theorem slowDrive_returns : ((∃ fuel, (ataReadSector fuel 20480 slowDrive).isSome) ↔ ataLba 20480 < 20480) ∧
    ((∃ fuel, (ataWriteSector fuel 20480 (fun _ => 7) slowDrive).isSome) ↔ ataLba 20480 < 20480) :=
  returns_iff slowDrive_settled slowDrive_delay

/-! ### Runs of requests -/

inductive Request where
  | read (lba : Nat)
  | write (lba : Nat) (buf : Sector)

def Request.sector : Request → Nat
  | .read lba => lba
  | .write lba _ => lba

/- The requests on the ports, and on the disk that fat16.c sees. Each read adds its answer. -/
def serve (fuel : Nat) : List Request → Drive → Option (List Sector × Drive)
  | [], d => some ([], d)
  | .read lba :: rs, d =>
    (ataReadSector fuel lba d).bind fun r => (serve fuel rs r.2).map fun a => (r.1 :: a.1, a.2)
  | .write lba buf :: rs, d => (ataWriteSector fuel lba buf d).bind (serve fuel rs)

def perform : List Request → Disk → List Sector × Disk
  | [], disk => ([], disk)
  | .read lba :: rs, disk =>
    let r := perform rs disk
    (Fat16.ataReadSector disk lba :: r.1, r.2)
  | .write lba buf :: rs, disk => perform rs (Fat16.ataWriteSector lba buf disk)

def SameSectors (s t : Sector) : Prop := ∀ j < sectorSize, s j = t j

theorem write_congr {e e' : Disk} (h : SameBytes e e') :
    SameBytes (Fat16.ataWriteSector lba buf e) (Fat16.ataWriteSector lba buf e') := by
  intro l j hj
  unfold Fat16.ataWriteSector
  by_cases hl : l = ataLba lba
  · rw [if_pos hl, if_pos hl]
  · rw [if_neg hl, if_neg hl]
    exact h l j hj

/-- Every sequence of reads and writes of sectors the drive has gives, through the ports, the answers
and the disk that fat16.c reckons with, however long the drive makes the driver wait each time. -/
theorem requests_served {e : Disk} (rs : List Request) (h : Settled d) (hf : Patient fuel d)
    (hcap : ∀ r ∈ rs, ataLba r.sector < d.capacity) (he : SameBytes d.disk e) :
    ∃ answers d', serve fuel rs d = some (answers, d') ∧
      List.Forall₂ SameSectors answers (perform rs e).1 ∧ SameBytes d'.disk (perform rs e).2 ∧
      Settled d' := by
  induction rs generalizing d e with
  | nil => exact ⟨[], d, rfl, .nil, he, h⟩
  | cons r rs ih =>
    cases r with
    | read lba =>
      have hfirst : ataLba lba < d.capacity := hcap _ List.mem_cons_self
      obtain ⟨s, t, hread, hs, hdisk, ht, hft, hct⟩ := readSector_served h hf hfirst
      obtain ⟨answers, d', hrun, hans, hbytes, hset⟩ :=
        ih ht hft (fun r hr => hct ▸ hcap r (List.mem_cons_of_mem _ hr)) (hdisk ▸ he)
      refine ⟨s :: answers, d', ?_, .cons (fun j hj => (hs j hj).trans (he _ j hj)) hans, hbytes, hset⟩
      rw [serve, hread, Option.bind_some, hrun]
      rfl
    | write lba buf =>
      have hfirst : ataLba lba < d.capacity := hcap _ List.mem_cons_self
      obtain ⟨t, hwrite, hdisk, ht, hft, hct⟩ := @writeSector_served d fuel lba buf h hf hfirst
      have hwritten := @write_congr lba buf _ _ he
      obtain ⟨answers, d', hrun, hrest⟩ :=
        ih ht hft (fun r hr => hct ▸ hcap r (List.mem_cons_of_mem _ hr))
          fun l j hj => (hdisk l j hj).trans (hwritten l j hj)
      refine ⟨answers, d', ?_, hrest⟩
      rw [serve, hwrite, Option.bind_some, hrun]

def sampleRequests : List Request := [.write 5 fun _ => 1, .write 5 fun j => UInt8.ofNat j, .read 5]

theorem sampleRequests_served : ∃ answers d', serve 8 sampleRequests slowDrive = some (answers, d') ∧
    List.Forall₂ SameSectors answers (perform sampleRequests fun _ _ => 0).1 ∧
    SameBytes d'.disk (perform sampleRequests fun _ _ => 0).2 ∧ Settled d' :=
  requests_served sampleRequests slowDrive_settled
    ⟨by decide, fun k => Nat.lt_of_lt_of_le (slowDrive_delay k) (by decide)⟩
    (by simp [sampleRequests, Request.sector, ataLba, slowDrive]) fun _ _ _ => rfl

end AdamOS.AtaDisk
