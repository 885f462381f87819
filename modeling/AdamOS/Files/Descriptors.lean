import AdamOS.Files.Chain
import AdamOS.Kernel.KmallocSafety
import AdamOS.Kernel.Process

/-! The file cases of open, read and write in syscall.c. A copy out of a block or past it, a write
through NULL and a chain that never ends have no result. -/
namespace AdamOS.Files
open AdamOS.Fat16 AdamOS.Process AdamOS.Kmalloc AdamOS.Word

/- data holds the bytes that the file or folder was read into; size is their number. -/
structure Fat16Fd where
  data : List UInt8
  size : Nat
  attributes : UInt8
  startCluster : Nat

structure FileState where
  disk : Disk
  /- current_process->fds -/
  fds : List FileDescriptor
  /- the fat16_fd_t at an address -/
  files : Nat → Fat16Fd
  fds_length : fds.length = maxFds

structure Room where
  serves : Nat → Bool
  bounded : ∀ n, serves n = true → n < heapSize

def isFolder (e : Fat16Entry) : Bool := e.attributes &&& 0x10 != 0

def bufferSize (v : Volume) (e : Fat16Entry) : Nat :=
  if isFolder e then v.clusterBytes else wrap (e.fileSize + v.clusterBytes)

def readEntry (v : Volume) (d : Disk) (e : Fat16Entry) : Option (List UInt8) :=
  if isFolder e then some (fat16ReadFolder v d e) else fat16ReadFile v d e

/- The block has room for what is read into it, or there is no result. -/
def openEntry (v : Volume) (d : Disk) (room : Room) (e : Fat16Entry) : Option Fat16Fd :=
  (readEntry v d e).bind fun data =>
    if room.serves (bufferSize v e) && decide (data.length ≤ bufferSize v e) then
      some {
        data := data, size := data.length, attributes := e.attributes
        startCluster := e.startCluster }
    else none

def closedSlot (fds : List FileDescriptor) : Option Nat :=
  (List.range' 2 (maxFds - 2)).find? fun i => !(fds.getD i closedFd).isOpen

def FileState.setFd (s : FileState) (i : Nat) (fd : FileDescriptor) : FileState :=
  { s with fds := s.fds.set i fd, fds_length := by rw [List.length_set]; exact s.fds_length }

def FileState.setFile (s : FileState) (p : Nat) (f : Fat16Fd) : FileState :=
  { s with files := fun q => if q = p then f else s.files q }

/- eax and the state; `ptr` is the block kmalloc returns for the fat16_fd_t. -/
def handleSyscallOpen (v : Volume) (room : Room) (garbage : Fat16Entry) (ptr : Nat)
    (name : Option CString) (s : FileState) : Option (Nat × FileState) :=
  match name with
  | none => some (minusOne, s)
  | some name => do
    match ← fat16FindFile v s.disk garbage name with
    | none => return (minusOne, s)
    | some e =>
      let f ← openEntry v s.disk room e
      match closedSlot s.fds with
      | some i => return (i, (s.setFile ptr f).setFd i ⟨.file, ptr, 0, true⟩)
      | none => return (minusOne, s)

structure ReadResult where
  eax : Nat
  bytes : List UInt8
  state : FileState

/- handle_syscall_read on a descriptor of type FD_FILE. -/
def readFd (i len : Nat) (s : FileState) : Option ReadResult :=
  let fd := s.fds.getD i closedFd
  let f := s.files fd.data
  if fd.isOpen = false then some ⟨minusOne, [], s⟩
  else if f.size ≤ fd.offset then some ⟨0, [], s⟩
  else
    let size := min32 len (f.size - fd.offset)
    if fd.offset + size ≤ f.data.length then
      some ⟨size, (f.data.drop fd.offset).take size,
        s.setFd i { fd with offset := wrap (fd.offset + size) }⟩
    else none

/- write_file -/
def writeFd (v : Volume) (i : Nat) (buf : Nat → UInt8) (len : Nat) (s : FileState) :
    Option (Nat × FileState) :=
  let fd := s.fds.getD i closedFd
  let f := s.files fd.data
  if fd.isOpen = false then some (minusOne, s)
  else
    let toWrite := min32 len f.size
    if toWrite ≤ f.data.length then
      (writeCluster v (v.clusterLba f.startCluster) toWrite buf s.disk).map fun d =>
        (toWrite, { s.setFile fd.data { f with
          data := (List.range toWrite).map buf ++ f.data.drop toWrite } with disk := d })
    else none

/-! ### Reading until 0 is returned -/

def readLoop (i : Nat) : List Nat → FileState → Option (List UInt8)
  | [], _ => none
  | len :: lens, s => (readFd i len s).bind fun r =>
    if r.eax = 0 then some [] else (readLoop i lens r.state).map (r.bytes ++ ·)

/- Whatever lengths are asked for, the reads end and have delivered exactly `out`. -/
def Delivers (s : FileState) (i : Nat) (out : List UInt8) : Prop :=
  ∀ lens : Nat → Nat, (∀ k, 0 < lens k ∧ lens k < 2147483648) →
    ∃ n, readLoop i ((List.range n).map lens) s = some out

structure OpenAt (s : FileState) (i : Nat) (data : List UInt8) (offset : Nat) : Prop where
  slot : i < maxFds
  isOpen : (s.fds.getD i closedFd).isOpen = true
  position : (s.fds.getD i closedFd).offset = offset
  content : (s.files (s.fds.getD i closedFd).data).data = data
  size : (s.files (s.fds.getD i closedFd).data).size = data.length
  small : data.length < 2147483648

structure ReadsFrom (s : FileState) (i : Nat) (data : List UInt8) (offset : Nat) : Prop where
  slot : i < maxFds
  isOpen : (s.fds.getD i closedFd).isOpen = true
  position : (s.fds.getD i closedFd).offset = offset
  content : (s.files (s.fds.getD i closedFd).data).data = data
  size : (s.files (s.fds.getD i closedFd).data).size = data.length
  word : data.length < 4294967296

/- One read returns the unsigned minimum and copies as many bytes of the data, none beyond it. -/
structure ReadExact (data : List UInt8) (i len offset : Nat) (r : ReadResult) : Prop where
  count : r.eax = min len (data.length - offset)
  bytes : r.bytes = (data.drop offset).take r.eax
  advance : (r.state.fds.getD i closedFd).offset = offset + r.eax
  inside : offset + r.eax ≤ data.length

theorem FileState.setFd_self (s : FileState) {i : Nat} (hi : i < maxFds) (fd : FileDescriptor) :
    (s.setFd i fd).fds.getD i closedFd = fd := by
  have hlen : i < s.fds.length := s.fds_length ▸ hi
  simp [FileState.setFd, List.getD, hlen]

section Reading
variable {s : FileState} {i offset len : Nat} {data : List UInt8}

theorem ReadsFrom.read_end (h : ReadsFrom s i data offset) (hend : data.length ≤ offset) (len : Nat) :
    readFd i len s = some ⟨0, [], s⟩ := by
  rw [readFd, if_neg (by rw [h.isOpen]; decide), if_pos (by rw [h.size, h.position]; exact hend)]

/-- Before the end a read takes min as the source computes it, if there is that much. -/
theorem ReadsFrom.read_eq (h : ReadsFrom s i data offset) (hmore : offset < data.length) (len : Nat) :
    readFd i len s =
      if offset + min32 len (data.length - offset) ≤ data.length then
        some ⟨min32 len (data.length - offset), (data.drop offset).take (min32 len (data.length - offset)),
          s.setFd i { s.fds.getD i closedFd with offset := wrap (offset + min32 len (data.length - offset)) }⟩
      else none := by
  rw [readFd, if_neg (by rw [h.isOpen]; decide), if_neg (by rw [h.size, h.position]; omega), h.size,
    h.position, h.content]

theorem ReadsFrom.read_more (h : ReadsFrom s i data offset) (hmore : offset < data.length)
    (hmin : min32 len (data.length - offset) = min len (data.length - offset)) :
    ∃ r, readFd i len s = some r ∧ ReadExact data i len offset r ∧
      ReadsFrom r.state i data (offset + r.eax) := by
  have hword := h.word
  have hle : min len (data.length - offset) ≤ data.length - offset := Nat.min_le_right _ _
  have hin : offset + min len (data.length - offset) ≤ data.length := by omega
  have hwrap : wrap (offset + min len (data.length - offset)) =
      offset + min len (data.length - offset) := wrap_eq (by omega)
  have hread := h.read_eq hmore len
  rw [hmin, if_pos hin, hwrap] at hread
  have hself := s.setFd_self h.slot { s.fds.getD i closedFd with
    offset := offset + min len (data.length - offset) }
  refine ⟨_, hread, ⟨rfl, rfl, by rw [hself], hin⟩, ?_⟩
  exact ⟨h.slot, by rw [hself]; exact h.isOpen, by rw [hself], by rw [hself]; exact h.content,
    by rw [hself]; exact h.size, h.word⟩

theorem OpenAt.readsFrom (h : OpenAt s i data offset) : ReadsFrom s i data offset :=
  ⟨h.slot, h.isOpen, h.position, h.content, h.size, Nat.lt_trans h.small (by decide)⟩

theorem OpenAt.read_end (h : OpenAt s i data offset) (hend : data.length ≤ offset) (len : Nat) :
    readFd i len s = some ⟨0, [], s⟩ := h.readsFrom.read_end hend len

/-- Before the end it returns what is asked for, as far as there is any. -/
theorem OpenAt.read_more (h : OpenAt s i data offset) (hmore : offset < data.length) {len : Nat}
    (hl : len < 2147483648) : ∃ r, readFd i len s = some r ∧
      r.eax = min len (data.length - offset) ∧ r.bytes = (data.drop offset).take r.eax ∧
      OpenAt r.state i data (offset + r.eax) := by
  have hsmall := h.small
  obtain ⟨r, hr, he, hfrom⟩ := h.readsFrom.read_more hmore (min32_eq hl (by omega))
  exact ⟨r, hr, he.count, he.bytes,
    hfrom.slot, hfrom.isOpen, hfrom.position, hfrom.content, hfrom.size, hsmall⟩

/-- What the reads deliver, if they end, is the rest of the data. -/
theorem OpenAt.readLoop_eq (h : OpenAt s i data offset) {lens : List Nat}
    (hl : ∀ len ∈ lens, 0 < len ∧ len < 2147483648) {out : List UInt8}
    (hr : readLoop i lens s = some out) : out = data.drop offset := by
  induction lens generalizing s offset out with
  | nil => cases hr
  | cons len lens ih =>
    obtain ⟨r, hread, hr⟩ := Option.bind_eq_some_iff.mp hr
    have hlen := hl len List.mem_cons_self
    by_cases hend : data.length ≤ offset
    · rw [h.read_end hend] at hread
      cases hread
      cases hr
      exact (List.drop_eq_nil_of_le hend).symm
    · obtain ⟨r', hread', heax, hbytes, hopen⟩ := h.read_more (Nat.lt_of_not_le hend) hlen.2
      rw [hread] at hread'
      cases hread'
      rw [if_neg (by omega)] at hr
      obtain ⟨rest, hrest, rfl⟩ := Option.map_eq_some_iff.mp hr
      rw [ih hopen (fun l hm => hl l (List.mem_cons_of_mem _ hm)) hrest, hbytes, ← List.drop_drop,
        List.take_append_drop]

/-- One read for each byte left and one more reach the end. -/
theorem OpenAt.readLoop_ends (h : OpenAt s i data offset) {lens : List Nat}
    (hl : ∀ len ∈ lens, 0 < len ∧ len < 2147483648) (hn : data.length - offset < lens.length) :
    ∃ out, readLoop i lens s = some out := by
  induction lens generalizing s offset with
  | nil => exact absurd hn (Nat.not_lt_zero _)
  | cons len lens ih =>
    have hlen := hl len List.mem_cons_self
    rw [readLoop]
    by_cases hend : data.length ≤ offset
    · rw [h.read_end hend]
      exact ⟨[], rfl⟩
    · obtain ⟨r, hread, heax, -, hopen⟩ := h.read_more (Nat.lt_of_not_le hend) hlen.2
      rw [List.length_cons] at hn
      obtain ⟨out, hout⟩ := ih hopen (fun l hm => hl l (List.mem_cons_of_mem _ hm)) (by omega)
      rw [hread, Option.bind_some, if_neg (by omega), hout]
      exact ⟨_, rfl⟩

theorem OpenAt.delivers_iff (h : OpenAt s i data 0) {out : List UInt8} :
    Delivers s i out ↔ out = data := by
  constructor
  · intro hd
    obtain ⟨n, hn⟩ := hd (fun _ => 1) fun _ => ⟨by decide, by decide⟩
    refine (h.readLoop_eq (fun len hm => ?_) hn).trans List.drop_zero
    obtain ⟨_, _, rfl⟩ := List.mem_map.mp hm
    exact ⟨by decide, by decide⟩
  · rintro rfl lens hl
    have hlens : ∀ len ∈ (List.range (out.length + 1)).map lens, 0 < len ∧ len < 2147483648 := by
      intro len hm
      obtain ⟨k, _, rfl⟩ := List.mem_map.mp hm
      exact hl k
    obtain ⟨out', hout⟩ := h.readLoop_ends hlens (by
      rw [List.length_map, List.length_range]
      exact Nat.lt_succ_self _)
    refine ⟨_, hout.trans ?_⟩
    rw [h.readLoop_eq hlens hout, List.drop_zero]

end Reading

end AdamOS.Files
