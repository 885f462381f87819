import AdamOS.Files.ReadWrite
import AdamOS.Programs.Ls

/-! shell.c: handle_ls and handle_cd over the file calls of the kernel. ls opens the shell's path as if
it were a name and reads 512 bytes of what it opened. -/
namespace AdamOS.Shell
open AdamOS.Fat16 AdamOS.Files AdamOS.Process AdamOS.Word

def readBuf : Nat := 512
def shellPathSize : Nat := 64

structure ShellState where
  path : CString
  files : FileState

/- What open gets from kmalloc: whether blocks are served, what the block for "/" held and where the
   fat16_fd_t lies. -/
structure Heap where
  room : Room
  garbage : Fat16Entry
  ptr : Nat

/- sys_close, apart from kfree. -/
def closeFd (i : Nat) (s : FileState) : FileState :=
  s.setFd i { s.fds.getD i closedFd with data := 0, isOpen := false }

/- buf after a read; `stack` is what memory held from buf on. -/
def readInto (bytes stack : List UInt8) : List UInt8 := bytes ++ stack.drop bytes.length

/-! ### ls -/

structure LsLine where
  entry : List UInt8
  text : List UInt8

inductive LsOutput where
  | cannotOpen
  | lines (lines : List LsLine)

def lsLoop : Nat → List UInt8 → List LsLine
  | 0, _ => []
  | n+1, mem =>
    (if mem.head? = some 0 ∨ mem.head? = some deleted then [] else [⟨mem.take entrySize, lsEntry mem⟩]) ++
      lsLoop n (mem.drop entrySize)

def lsRounds (size : Nat) : Nat := (size + (entrySize - 1)) / entrySize

def handleLs (v : Volume) (heap : Heap) (stack : List UInt8) (sh : ShellState) : Option LsOutput :=
  (handleSyscallOpen v heap.room heap.garbage heap.ptr (some sh.path) sh.files).bind fun r =>
    if r.1 = minusOne then some .cannotOpen
    else (readFd r.1 readBuf r.2).map fun read =>
      .lines (lsLoop (lsRounds (toInt32 read.eax).toNat) (readInto read.bytes stack))

/-! ### cd -/

/- The loop for "..": the path up to the last slash before its end. -/
def parentPath (path : List UInt8) : List UInt8 :=
  let upper := (path.dropLast.reverse.dropWhile (· != slash)).reverse
  if upper = [] then path else upper

theorem parentPath_sub (path : List UInt8) : ∀ c ∈ parentPath path, c ∈ path := by
  intro c hc
  unfold parentPath at hc
  dsimp only at hc
  split at hc
  · exact hc
  · have hc := (List.dropWhile_suffix _).subset (List.mem_reverse.mp hc)
    exact List.dropLast_subset path (List.mem_reverse.mp hc)

def deeperPath (path cmd : CString) : CString where
  chars := path.chars ++ cmd.chars ++ [slash]
  noNul := by
    intro c hc
    rcases List.mem_append.mp hc with hc | hc
    · exact (List.mem_append.mp hc).elim (path.noNul c) (cmd.noNul c)
    · rw [List.mem_singleton.mp hc]
      decide

/- Whether the path changed; a path that is too long for shell_path overwrites what follows it. -/
def handleCd (v : Volume) (heap : Heap) (stack : List UInt8) (cmd : CString) (sh : ShellState) :
    Option (Bool × ShellState) :=
  if cmd.chars = [dot, dot] then
    some (true, { sh with path := ⟨parentPath sh.path.chars, fun c hc =>
      sh.path.noNul c (parentPath_sub _ c hc)⟩ })
  else
    (handleSyscallOpen v heap.room heap.garbage heap.ptr (some cmd) sh.files).bind fun r =>
      if r.1 = minusOne then some (false, { sh with files := r.2 })
      else (readFd r.1 readBuf r.2).bind fun read =>
        let buf := readInto read.bytes stack
        let files := closeFd r.1 read.state
        if buf.getD 0 0 = dot ∧ buf.getD 32 0 = dot then
          if (deeperPath sh.path cmd).chars.length < shellPathSize then
            some (true, ⟨deeperPath sh.path cmd, files⟩)
          else none
        else some (false, { sh with files := files })

/-! ### Complete listings -/

/- One line for each live entry, in their order. -/
def LsComplete (v : Volume) (heap : Heap) (stack : List UInt8) (sh : ShellState)
    (slots : List Fat16Entry) : Prop :=
  ∃ lines, handleLs v heap stack sh = some (.lines lines) ∧
    lines.map LsLine.entry = (listed slots).map entryBytes

/- There is a block for a cluster, the root directory lists no more than it holds and no more than 16
   entries, and a descriptor is closed. -/
def RootShort (v : Volume) (heap : Heap) (s : FileState) : Prop :=
  heap.room.serves v.clusterBytes = true ∧ Directory.RootFits v s.disk ∧
    (listed (rootSlots v s.disk)).length ≤ 16 ∧ (closedSlot s.fds).isSome

/- The root directory has an entry whose name is the whole path. Its name begins with a slash, so a
   folder there is read as the root directory; of a file 512 bytes are read. -/
def PathNames (v : Volume) (heap : Heap) (stack : List UInt8) (d : Disk) (path : CString)
    (slots : List Fat16Entry) : Prop :=
  ∃ e, fat16FindFile v d heap.garbage path = some (some e) ∧
    if isFolder e then
      heap.room.serves v.clusterBytes = true ∧ Directory.RootFits v d ∧
        ((listed (rootSlots v d)).take 16).map entryBytes = (listed slots).map entryBytes
    else
      ∃ f, openEntry v d heap.room e = some f ∧
        (lsLoop (lsRounds (min readBuf f.data.length)) (readInto (f.data.take readBuf) stack)).map
          LsLine.entry = (listed slots).map entryBytes

section Ls
variable {v : Volume} {heap : Heap} {stack : List UInt8} {sh : ShellState} {e : Fat16Entry} {i : Nat}

theorem handleLs_found (hfind : fat16FindFile v sh.files.disk heap.garbage sh.path = some (some e))
    (hslot : closedSlot sh.files.fds = some i) : handleLs v heap stack sh =
      (openEntry v sh.files.disk heap.room e).map fun f =>
        .lines (lsLoop (lsRounds (min readBuf f.data.length)) (readInto (f.data.take readBuf) stack)) := by
  cases hf : openEntry v sh.files.disk heap.room e with
  | none =>
    unfold handleLs handleSyscallOpen
    simp only [hfind, hf, Option.bind_eq_bind, Option.bind_some, Option.bind_none, Option.map_none]
  | some f =>
    have hopen : handleSyscallOpen v heap.room heap.garbage heap.ptr (some sh.path) sh.files =
        some (i, (sh.files.setFile heap.ptr f).setFd i ⟨.file, heap.ptr, 0, true⟩) := by
      simp only [handleSyscallOpen, hfind, Option.bind_eq_bind, Option.bind_some, hf, hslot]
      rfl
    have hi := (closedSlot_spec hslot).2
    have hne : i ≠ minusOne := by
      unfold maxFds at hi
      unfold minusOne
      omega
    obtain ⟨f', hf', hat⟩ := open_openAt hfind hopen hne
    rw [hf] at hf'
    cases hf'
    rw [handleLs, hopen, Option.bind_some, if_neg hne, Option.map_some]
    by_cases hempty : f.data.length ≤ 0
    · have hnil : f.data = [] := List.eq_nil_of_length_eq_zero (Nat.le_zero.mp hempty)
      rw [hat.read_end hempty, hnil]
      rfl
    · obtain ⟨r, hread, heax, hbytes, _⟩ := hat.read_more (Nat.lt_of_not_le hempty)
        (show readBuf < 2147483648 by decide)
      have hsize : (toInt32 r.eax).toNat = min readBuf f.data.length := by
        have hlt : r.eax < 2147483648 := by
          rw [heax]
          exact Nat.lt_of_le_of_lt (Nat.min_le_left _ _) (by decide)
        rw [toInt32_eq hlt, Int.toNat_natCast, heax, Nat.sub_zero]
      have htake : r.bytes = f.data.take readBuf := by
        rw [hbytes, heax, List.drop_zero, Nat.sub_zero, ← List.take_take, List.take_length]
      rw [hread, Option.map_some, hsize, htake]

/-- A descriptor comes of an entry that was found, and it is the first that was closed. -/
theorem open_found {name : CString} {s s' : FileState} {fd : Nat}
    (h : handleSyscallOpen v heap.room heap.garbage heap.ptr (some name) s = some (fd, s'))
    (hfd : fd ≠ minusOne) :
    ∃ e f, fat16FindFile v s.disk heap.garbage name = some (some e) ∧ closedSlot s.fds = some fd ∧
      s' = (s.setFile heap.ptr f).setFd fd ⟨.file, heap.ptr, 0, true⟩ := by
  obtain ⟨found, hfind, hopen⟩ := Option.bind_eq_some_iff.mp h
  cases found with
  | none =>
    cases hopen
    exact absurd rfl hfd
  | some e =>
    obtain ⟨f, -, hslot⟩ := Option.bind_eq_some_iff.mp hopen
    cases hc : closedSlot s.fds with
    | none =>
      rw [hc] at hslot
      cases hslot
      exact absurd rfl hfd
    | some i =>
      rw [hc] at hslot
      cases hslot
      exact ⟨e, f, hfind, rfl, rfl⟩

/-- What ls prints comes from an entry that its path finds. -/
theorem handleLs_opened {lines : List LsLine} (h : handleLs v heap stack sh = some (.lines lines)) :
    (∃ e, fat16FindFile v sh.files.disk heap.garbage sh.path = some (some e)) ∧
      (closedSlot sh.files.fds).isSome := by
  obtain ⟨r, hopen, hread⟩ := Option.bind_eq_some_iff.mp h
  split at hread
  · cases hread
  · rename_i hne
    obtain ⟨e, f, hfind, hslot, -⟩ := open_found hopen hne
    exact ⟨⟨e, hfind⟩, hslot ▸ rfl⟩

/-! ### The entries in the buffer -/

theorem entryBytes_length (e : Fat16Entry) : (entryBytes e).length = entrySize := by
  rw [entryBytes, List.length_map, List.length_range]

theorem lsLoop_entries {es : List Fat16Entry} (hlive : ∀ e ∈ es, e 0 ≠ 0 ∧ e 0 ≠ deleted)
    (tail : List UInt8) :
    (lsLoop es.length (es.flatMap entryBytes ++ tail)).map LsLine.entry = es.map entryBytes := by
  induction es with
  | nil => rfl
  | cons e es ih =>
    obtain ⟨h0, hdel⟩ := hlive e List.mem_cons_self
    have hhead : (entryBytes e ++ (es.flatMap entryBytes ++ tail)).head? = some (e 0) := rfl
    have hlines : ¬((entryBytes e ++ (es.flatMap entryBytes ++ tail)).head? = some 0 ∨
        (entryBytes e ++ (es.flatMap entryBytes ++ tail)).head? = some deleted) := by
      rw [hhead]
      rintro (h | h)
      · exact h0 (Option.some.inj h)
      · exact hdel (Option.some.inj h)
    have hlen := entryBytes_length e
    rw [List.flatMap_cons, List.append_assoc, List.length_cons, lsLoop, if_neg hlines, List.map_append,
      List.map_cons, List.map_nil, ← hlen, List.take_left, List.drop_left,
      ih fun f hf => hlive f (List.mem_cons_of_mem e hf)]
    rfl

theorem listed_live (es : List Fat16Entry) : ∀ e ∈ listed es, e 0 ≠ 0 ∧ e 0 ≠ deleted := by
  intro e he
  obtain ⟨hmem, hdel⟩ := List.mem_filter.mp he
  have h0 := List.mem_takeWhile_imp hmem
  exact ⟨bne_iff_ne.mp h0, bne_iff_ne.mp hdel⟩

theorem take_entries (es : List Fat16Entry) :
    (es.flatMap entryBytes).take readBuf = (es.take 16).flatMap entryBytes := by
  have hsplit : es.flatMap entryBytes = (es.take 16).flatMap entryBytes ++ (es.drop 16).flatMap entryBytes := by
    rw [← List.flatMap_append, List.take_append_drop]
  rcases Nat.lt_or_ge es.length 16 with hlt | hge
  · rw [List.take_of_length_le (Nat.le_of_lt hlt), List.take_of_length_le]
    rw [flatMap_entryBytes_length]
    unfold entrySize readBuf
    omega
  · have hlen : ((es.take 16).flatMap entryBytes).length = readBuf := by
      rw [flatMap_entryBytes_length, List.length_take, Nat.min_eq_left hge]
      rfl
    rw [hsplit, ← hlen, List.take_left]

/-- A listing in the buffer is printed up to its sixteenth entry. -/
theorem lsLoop_listing {es : List Fat16Entry} (hlive : ∀ e ∈ es, e 0 ≠ 0 ∧ e 0 ≠ deleted) :
    (lsLoop (lsRounds (min readBuf (es.flatMap entryBytes).length))
      (readInto ((es.flatMap entryBytes).take readBuf) stack)).map LsLine.entry =
        (es.take 16).map entryBytes := by
  have hrounds : lsRounds (min readBuf (es.flatMap entryBytes).length) = (es.take 16).length := by
    rw [flatMap_entryBytes_length, List.length_take]
    unfold lsRounds readBuf entrySize
    omega
  rw [hrounds, take_entries, readInto]
  exact lsLoop_entries (fun e he => hlive e (List.mem_of_mem_take he)) _

theorem openEntry_root (he : isFolder e = true) (h0 : e 0 = slash) (d : Disk) (room : Room) :
    (∃ f, openEntry v d room e = some f ∧ f.data = (listed (rootSlots v d)).flatMap entryBytes) ↔
      room.serves v.clusterBytes = true ∧ Directory.RootFits v d := by
  rw [← readFolder_root_fits h0, ← readFolder_root h0, openEntry, readEntry, if_pos he, Option.bind_some,
    bufferSize_folder he]
  constructor
  · rintro ⟨f, hf, _⟩
    split at hf
    · rename_i hroom
      obtain ⟨hserves, hfits⟩ := Bool.and_eq_true_iff.mp hroom
      exact ⟨hserves, of_decide_eq_true hfits⟩
    · cases hf
  · rintro ⟨hserves, hfits⟩
    rw [if_pos (Bool.and_eq_true_iff.mpr ⟨hserves, decide_eq_true hfits⟩)]
    exact ⟨_, rfl, rfl⟩

/-- A path that finds a folder whose name begins with a slash lists the root directory. -/
theorem lsComplete_root {slots : List Fat16Entry}
    (hfind : fat16FindFile v sh.files.disk heap.garbage sh.path = some (some e))
    (hslot : closedSlot sh.files.fds = some i) (he : isFolder e = true) (h0 : e 0 = slash) :
    LsComplete v heap stack sh slots ↔ heap.room.serves v.clusterBytes = true ∧
      Directory.RootFits v sh.files.disk ∧
      ((listed (rootSlots v sh.files.disk)).take 16).map entryBytes = (listed slots).map entryBytes := by
  have hdata : ∀ {f}, openEntry v sh.files.disk heap.room e = some f →
      f.data = (listed (rootSlots v sh.files.disk)).flatMap entryBytes := by
    intro f hf
    have hread := (openEntry_spec hf).2.2.2
    rw [readEntry, if_pos he, readFolder_root h0] at hread
    exact (Option.some.inj hread).symm
  rw [LsComplete, handleLs_found hfind hslot, ← and_assoc, ← openEntry_root he h0]
  constructor
  · rintro ⟨lines, hls, hlines⟩
    obtain ⟨f, hf, hout⟩ := Option.map_eq_some_iff.mp hls
    cases hout
    rw [hdata hf, lsLoop_listing (listed_live _)] at hlines
    exact ⟨⟨f, hf, hdata hf⟩, hlines⟩
  · rintro ⟨⟨f, hf, hfd⟩, hlines⟩
    refine ⟨_, by rw [hf]; rfl, ?_⟩
    rw [hfd, lsLoop_listing (listed_live _)]
    exact hlines

/-- At "/" ls lists every live entry if and only if there are at most 16, and open finds room. -/
theorem root_complete_iff (hpath : sh.path.chars = [slash]) :
    LsComplete v heap stack sh (rootSlots v sh.files.disk) ↔ RootShort v heap sh.files := by
  have hfind : fat16FindFile v sh.files.disk heap.garbage sh.path = some (some (rootEntry heap.garbage)) :=
    if_pos hpath
  have hshort : ∀ es : List Fat16Entry,
      (es.take 16).map entryBytes = es.map entryBytes ↔ es.length ≤ 16 := by
    intro es
    constructor
    · intro h
      have hlen := congrArg List.length h
      rw [List.length_map, List.length_map, List.length_take] at hlen
      omega
    · intro h
      rw [List.take_of_length_le h]
  cases hslot : closedSlot sh.files.fds with
  | none =>
    refine iff_of_false (fun h => ?_) fun h => ?_
    · obtain ⟨lines, hls, -⟩ := h
      have hsome := (handleLs_opened hls).2
      rw [hslot] at hsome
      cases hsome
    · have hsome := h.2.2.2
      rw [hslot] at hsome
      cases hsome
  | some i =>
    rw [lsComplete_root hfind hslot (isFolder_root _) rfl, hshort, RootShort, hslot]
    exact and_congr Iff.rfl (and_congr Iff.rfl (and_iff_left rfl).symm)

/-- What a longer path that begins with a slash finds has a name that begins with it. -/
theorem slash_entry {d : Disk} {garbage : Fat16Entry} {path : CString} {c : UInt8} {cs : List UInt8}
    (hpath : path.chars = slash :: c :: cs)
    (hfind : fat16FindFile v d garbage path = some (some e)) : e 0 = slash := by
  have hlong : path.chars ≠ [slash] := by
    rw [hpath]
    intro he
    cases he
  rw [fat16FindFile, if_neg hlong] at hfind
  obtain ⟨n, hn, hslot⟩ := Option.map_eq_some_iff.mp hfind
  rw [findSlot_eq] at hslot
  have hfirst := names_first (List.find?_some hslot)
  rw [fat16FormatName_eq] at hn
  split at hn
  · cases hn
    obtain ⟨tail, hcomp⟩ : ∃ tail, component 0 path.chars = slash :: tail := by
      rw [(component_strtok path.chars).1, hpath]
      exact ⟨_, rfl⟩
    rw [← hfirst]
    change padField (component 0 path.chars) 0 = slash
    rw [hcomp]
    rfl
  · cases hn

/-- Elsewhere it lists what the entry named by the whole path gives. -/
theorem path_complete_iff (hslot : (closedSlot sh.files.fds).isSome) {cmd path : CString}
    (hpath : sh.path = deeperPath path cmd) (hroot : path.chars = [slash]) (slots : List Fat16Entry) :
    LsComplete v heap stack sh slots ↔ PathNames v heap stack sh.files.disk sh.path slots := by
  obtain ⟨i, hi⟩ := Option.isSome_iff_exists.mp hslot
  by_cases hfound : ∃ e, fat16FindFile v sh.files.disk heap.garbage sh.path = some (some e)
  case neg =>
    refine iff_of_false (fun h => ?_) fun ⟨e, he, _⟩ => hfound ⟨e, he⟩
    obtain ⟨lines, hls, _⟩ := h
    exact hfound (handleLs_opened hls).1
  obtain ⟨e, hfind⟩ := hfound
  have honly : PathNames v heap stack sh.files.disk sh.path slots ↔
      if isFolder e then
        heap.room.serves v.clusterBytes = true ∧ Directory.RootFits v sh.files.disk ∧
          ((listed (rootSlots v sh.files.disk)).take 16).map entryBytes = (listed slots).map entryBytes
      else
        ∃ f, openEntry v sh.files.disk heap.room e = some f ∧
          (lsLoop (lsRounds (min readBuf f.data.length)) (readInto (f.data.take readBuf) stack)).map
            LsLine.entry = (listed slots).map entryBytes := by
    constructor
    · rintro ⟨e', he', h⟩
      rw [hfind] at he'
      cases he'
      exact h
    · exact fun h => ⟨e, hfind, h⟩
  rw [honly]
  by_cases hfolder : isFolder e = true
  · have hchars : ∃ c cs, sh.path.chars = slash :: c :: cs := by
      have hdeep : (deeperPath path cmd).chars = path.chars ++ cmd.chars ++ [slash] := rfl
      rw [hpath, hdeep, hroot]
      cases hcmd : cmd.chars with
      | nil => exact ⟨slash, [], rfl⟩
      | cons c cs => exact ⟨c, cs ++ [slash], rfl⟩
    obtain ⟨c, cs, hchars⟩ := hchars
    have h0 := slash_entry hchars hfind
    rw [if_pos hfolder]
    exact lsComplete_root hfind hi hfolder h0
  · rw [if_neg hfolder, LsComplete, handleLs_found hfind hi]
    constructor
    · rintro ⟨lines, hls, hlines⟩
      obtain ⟨f, hf, hout⟩ := Option.map_eq_some_iff.mp hls
      cases hout
      exact ⟨f, hf, hlines⟩
    · rintro ⟨f, hf, hlines⟩
      exact ⟨_, by rw [hf]; rfl, hlines⟩

/-! ### After cd -/

theorem closedSlot_isSome {fds : List FileDescriptor} (h2 : 2 ≤ i) (hi : i < maxFds)
    (hclosed : (fds.getD i closedFd).isOpen = false) : (closedSlot fds).isSome := by
  unfold closedSlot
  rw [List.find?_isSome]
  refine ⟨i, List.mem_range'_1.mpr ⟨h2, ?_⟩, ?_⟩
  · unfold maxFds at *
    omega
  · rw [hclosed]
    rfl

theorem readFd_disk {fd len : Nat} {s : FileState} {r : ReadResult} (h : readFd fd len s = some r) :
    r.state.disk = s.disk := by
  unfold readFd at h
  dsimp only at h
  split at h
  · cases h
    rfl
  split at h
  · cases h
    rfl
  split at h
  · cases h
    rfl
  · cases h

/-- A cd that succeeds from "/" puts the name behind the slash and gives back its descriptor. -/
theorem handleCd_spec {cmd : CString} {sh' : ShellState} (hcmd : cmd.chars ≠ [dot, dot])
    (h : handleCd v heap stack cmd sh = some (true, sh')) : sh'.path = deeperPath sh.path cmd ∧
      sh'.files.disk = sh.files.disk ∧ (closedSlot sh'.files.fds).isSome := by
  rw [handleCd, if_neg hcmd] at h
  obtain ⟨⟨fd, s⟩, hopen, h⟩ := Option.bind_eq_some_iff.mp h
  dsimp only at h
  split at h
  · cases h
  · rename_i hfd
    obtain ⟨r, hread, h⟩ := Option.bind_eq_some_iff.mp h
    split at h
    case isFalse => cases h
    split at h
    case isFalse => cases h
    cases h
    obtain ⟨e, f, -, hslot, rfl⟩ := open_found hopen hfd
    obtain ⟨h2, hlt⟩ := closedSlot_spec hslot
    refine ⟨rfl, (readFd_disk hread).trans rfl, closedSlot_isSome h2 hlt ?_⟩
    exact congrArg FileDescriptor.isOpen (r.state.setFd_self hlt _)

end Ls

/-- From "/", ls lists every live entry of the root directory if and only if there are at most 16 of
them and open finds room; after cd into a directory it lists that directory's live entries if and only
if the root directory has an entry named by the whole path, and this entry gives them. -/
theorem ls_complete_iff (v : Volume) (s : FileState) (root : CString) (hroot : root.chars = [slash]) :
    (∀ heap stack, LsComplete v heap stack ⟨root, s⟩ (rootSlots v s.disk) ↔ RootShort v heap s) ∧
      ∀ heap stack cmd sh' (D : Directory v s.disk), cmd.chars ≠ [dot, dot] →
        fat16FindFile v s.disk heap.garbage cmd = some (some D.entry) →
        handleCd v heap stack cmd ⟨root, s⟩ = some (true, sh') → ∀ heap' stack',
          LsComplete v heap' stack' sh' D.slots ↔
            PathNames v heap' stack' s.disk (deeperPath root cmd) D.slots := by
  refine ⟨fun heap stack => root_complete_iff hroot, fun heap stack cmd sh' D hcmd _ hcd heap' stack' => ?_⟩
  obtain ⟨hpath, hdisk, hslot⟩ := handleCd_spec hcmd hcd
  have h := @path_complete_iff v heap' stack' sh' hslot cmd root hpath hroot D.slots
  rw [hdisk, hpath] at h
  exact h

/-! ### A folder, and a directory of 32 entries -/

def rootPath : CString := ⟨[slash], noNul_of_all rfl⟩

def wholeHeapCall : Heap := ⟨wholeHeap, fun _ => 0, 4⟩

/- The root directory holds the folder "D" in cluster 2, with its entries "." and "..". -/
def folderDisk : Disk := fun l j =>
  if l = 2049 ∧ (j = 4 ∨ j = 5) then 0xFF
  else if l = 2050 ∧ j < 32 then
    if j = 0 then 68 else if j < 11 then space else if j = 11 then 0x10 else if j = 26 then 2 else 0
  else if l = 2051 ∧ (j = 0 ∨ j = 32 ∨ j = 33) then dot
  else 0

def folderName : CString := ⟨[68], noNul_of_all rfl⟩

def folderEntry : Fat16Entry := dirSlot folderDisk 2050 0

def folderD : Directory sampleVolume folderDisk :=
  .folder folderEntry [2] (by decide) (.last ⟨by decide, by decide, by decide⟩ (by decide))

theorem folder_cd_ls : LsComplete sampleVolume wholeHeapCall [] ⟨rootPath, freshState folderDisk⟩
      (rootSlots sampleVolume folderDisk) ∧
    ∃ sh', handleCd sampleVolume wholeHeapCall [] folderName ⟨rootPath, freshState folderDisk⟩ =
      some (true, sh') ∧ ¬LsComplete sampleVolume wholeHeapCall [] sh' folderD.slots := by
  obtain ⟨hls, hcd⟩ := ls_complete_iff sampleVolume (freshState folderDisk) rootPath rfl
  have hran : (handleCd sampleVolume wholeHeapCall [] folderName ⟨rootPath, freshState folderDisk⟩).any
      fun r => r.1 := by decide +kernel
  obtain ⟨⟨changed, sh'⟩, hsome, hchanged⟩ := (Option.any_eq_true _ _).mp hran
  cases hchanged
  have hfind : (fat16FindFile sampleVolume folderDisk wholeHeapCall.garbage
      (deeperPath rootPath folderName)).all fun found => found.isNone := by decide +kernel
  refine ⟨(hls _ _).mpr ⟨by decide, by unfold Directory.RootFits; decide +kernel, by decide +kernel,
    by decide⟩, sh', hsome, fun h => ?_⟩
  obtain ⟨e, he, _⟩ := (hcd _ _ _ _ folderD (by decide) (by rfl) hsome _ _).mp h
  have hfree : (freshState folderDisk).disk = folderDisk := rfl
  rw [hfree] at he
  rw [he] at hfind
  cases hfind

def largeClusters : Volume :=
  { Directory.wideVolume with sectorsPerCluster := 4, sectorsPerCluster_lt := by decide }

/-- Of 32 entries "AAAAAAAA.AAA" ls lists 16. -/
theorem many_entries_cut : ¬ ∀ (v : Volume) (s : FileState) (root : CString), root.chars = [slash] →
    (∀ heap stack, heap.room.serves v.clusterBytes = true → (closedSlot s.fds).isSome →
      LsComplete v heap stack ⟨root, s⟩ (rootSlots v s.disk)) ∧
      ∀ heap stack cmd sh' (D : Directory v s.disk), cmd.chars ≠ [dot, dot] →
        fat16FindFile v s.disk heap.garbage cmd = some (some D.entry) →
        handleCd v heap stack cmd ⟨root, s⟩ = some (true, sh') → ∀ heap' stack',
          LsComplete v heap' stack' sh' D.slots := by
  intro hall
  have hls := (hall largeClusters (freshState fun _ _ => 65) rootPath rfl).1 wholeHeapCall [] (by decide)
    (by decide)
  have hshort := ((root_complete_iff rfl).mp hls).2.2.1
  exact absurd hshort (by decide +kernel)

end AdamOS.Shell
