import AdamOS.Files.Descriptors
import AdamOS.Lib.Word

/-! obj.c and the loader of obj_viewer.c, which hands parse_obj a buffer of 1024 bytes after every
sys_read. parse_obj reads on up to a NUL, through what an earlier read left in the buffer and
through the stack above it. Numbers with a fraction are what `stof` makes of their token. -/
namespace AdamOS.Obj
open AdamOS.Fat16 AdamOS.Files AdamOS.Process AdamOS.Word

def newline : UInt8 := 10

def lineSize : Nat := 128
def tempSize : Nat := 32
def maxVertices : Nat := 4000
def maxFaces : Nat := 4000

structure Vertex (F : Type) where
  (x y z : F)
deriving DecidableEq

structure Face where
  (a b c : Int)
deriving DecidableEq

structure Mesh (F : Type) where
  vertices : List (Vertex F)
  faces : List Face
deriving DecidableEq

def emptyMesh (F : Type) : Mesh F := ⟨[], []⟩

def stoiDigits : List UInt8 → Int → Int
  | [], result => result
  | c :: cs, result =>
    if 48 ≤ c ∧ c ≤ 57 then stoiDigits cs (int32 (int32 (result * 10) + (c.toNat - 48)))
    else result

def stoi : List UInt8 → Int
  | 45 :: cs => int32 (stoiDigits cs 0 * -1)
  | cs => stoiDigits cs 0

/- The characters up to a newline or a NUL, and what next_line returns; none is a read beyond the
   memory, which is given from the pointer on. -/
def scanLine : List UInt8 → Option (List UInt8 × Nat)
  | [] => none
  | c :: cs =>
    if c = newline then some ([], 1)
    else if c = 0 then some ([], 0)
    else (scanLine cs).map fun (line, consumed) => (c :: line, consumed + 1)

/- none is also a line that leaves line[128]. -/
def nextLine (buf : List UInt8) : Option (List UInt8 × Nat) :=
  (scanLine buf).bind fun r => if r.1.length < lineSize then some r else none

/- The second to fourth token; none is one that leaves temp[32]. -/
def threeTokens (line : List UInt8) : Option (List UInt8 × List UInt8 × List UInt8) :=
  let t0 := strtok space line
  let t1 := strtok space t0.2
  let t2 := strtok space t1.2
  let t3 := strtok space t2.2
  if ∀ t ∈ [t0.1, t1.1, t2.1, t3.1], t.length < tempSize then some (t1.1, t2.1, t3.1) else none

/- line[0] == c && line[1] == ' ' -/
def startsWith (c : Char) (line : List UInt8) : Bool := line.take 2 == [UInt8.ofNat c.toNat, space]

variable {F : Type} (stof : List UInt8 → F)

def addVertex (line : List UInt8) (o : Mesh F) : Option (Mesh F) :=
  (threeTokens line).bind fun (x, y, z) =>
    if o.vertices.length < maxVertices then
      some { o with vertices := o.vertices ++ [⟨stof x, stof y, stof z⟩] }
    else none

def addFace (line : List UInt8) (o : Mesh F) : Option (Mesh F) :=
  (threeTokens line).bind fun (a, b, c) =>
    if o.faces.length < maxFaces then
      some { o with faces := o.faces ++
        [⟨int32 (stoi a - 1), int32 (stoi b - 1), int32 (stoi c - 1)⟩] }
    else none

def parseLine (line : List UInt8) (o : Mesh F) : Option (Mesh F) :=
  if startsWith 'v' line then addVertex stof line o
  else if startsWith 'f' line then addFace line o
  else some o

/- The loop over the lines; it takes at most as many rounds as there are bytes. -/
def parseFrom : Nat → List UInt8 → Mesh F → Option (Mesh F)
  | 0, _, _ => none
  | _ + 1, [], _ => none
  | n + 1, c :: cs, o =>
    if c = 0 then some o
    else
      (nextLine (c :: cs)).bind fun (line, consumed) =>
        if consumed = 0 then some o
        else (parseLine stof line o).bind fun o => parseFrom n ((c :: cs).drop consumed) o

/- none leaves the memory or one of the buffers and arrays. -/
def parseObj (buf : List UInt8) (o : Mesh F) : Option (Mesh F) := parseFrom stof (buf.length + 1) buf o

/-! ### The loader -/

def bufSize : Nat := 1024

abbrev Buffer : Type := { buf : List UInt8 // buf.length = bufSize }

/- The loop of load_obj. `above k` is the stack above the buffer in call number k of parse_obj. Every
   round moves the 32-bit offset of the descriptor. -/
def loadFrom (fd : Nat) (above : Nat → List UInt8) :
    Nat → Nat → FileState → List UInt8 → Mesh F → Option (Mesh F)
  | 0, _, _, _, _ => none
  | n + 1, k, s, buf, o =>
    (readFd fd bufSize s).bind fun r =>
      if toInt32 r.eax > 0 then
        let buf := r.bytes ++ buf.drop r.bytes.length
        (parseObj stof (buf ++ above k) o).bind fun o => loadFrom fd above n (k + 1) r.state buf o
      else some o

/- load_obj after sys_open; `garbage` is what the buffer holds at first. -/
def loadObj (fd : Nat) (s : FileState) (garbage : Buffer) (above : Nat → List UInt8) :
    Option (Mesh F) :=
  loadFrom stof fd above 4294967296 0 s garbage.1 (emptyMesh F)

/- One call on the whole contents, NUL-terminated. -/
def parseWhole (data : List UInt8) : Option (Mesh F) := parseObj stof (data ++ [0]) (emptyMesh F)

/-! ### Lines -/

def text (memory : List UInt8) : List UInt8 := memory.takeWhile (· != 0)

def lines (t : List UInt8) : List (List UInt8) := (t.splitOn newline).filter (· != [])

def Meets (a b : List UInt8) : Prop :=
  a = [] ∨ b = [] ∨ a.getLast? = some newline ∨ b.head? = some newline

def isData (line : List UInt8) : Bool := startsWith 'v' line || startsWith 'f' line

/-! ### The chunks of a file -/

section chunks
variable (data : List UInt8) (garbage : Buffer) (above : Nat → List UInt8)

def chunk (k : Nat) : List UInt8 := (data.drop (bufSize * k)).take bufSize

def held (k : Nat) : List UInt8 := if k = 0 then garbage.1 else chunk data (k - 1)

/- The memory at the buffer after read number k: what was read, what is left of the read before, and
   the stack. -/
def memoryAt (k : Nat) : List UInt8 :=
  chunk data k ++ (held data garbage k).drop (chunk data k).length ++ above k

def own (k : Nat) : List UInt8 := ((text data).drop (bufSize * k)).take bufSize

def behind (k : Nat) : List UInt8 := (memoryAt data garbage above k).drop (own data k).length

/- Every line begins and ends in one read: the text of a read ends where a line ends, and what lies
   behind it does not continue its last line. -/
def LinesWhole : Prop := ∀ k, bufSize * k < data.length →
  Meets (own data k) ((text data).drop (bufSize * (k + 1))) ∧
    Meets (own data k) (text (behind data garbage above k))

/- What lies behind the text of a read is ended by a NUL and holds no line with a vertex or a face, nor
   one that is too long. -/
def NothingStale : Prop := ∀ k, bufSize * k < data.length →
  0 ∈ behind data garbage above k ∧
    ∀ line ∈ lines (text (behind data garbage above k)), line.length < lineSize ∧ isData line = false

end chunks

section proofs
variable {stof} {a b t line : List UInt8} {ls ls' : List (List UInt8)} {o o' : Mesh F}

theorem lines_append (h : Meets a b) : lines (a ++ b) = lines a ++ lines b := by
  unfold lines
  rcases h with rfl | rfl | hlast | hhead
  · rfl
  · rw [List.append_nil]
    exact (List.append_nil _).symm
  · obtain ⟨a0, rfl⟩ := List.getLast?_eq_some_iff.mp hlast
    rw [List.append_assoc, List.singleton_append, List.splitOn_append_cons_self,
      List.splitOn_append_cons_self, List.filter_append, List.filter_append]
    simp
  · obtain ⟨b0, rfl⟩ := List.head?_eq_some_iff.mp hhead
    have hempty : (newline :: b0).splitOn newline = [] :: b0.splitOn newline :=
      List.splitOn_append_cons_self [] b0
    rw [List.splitOn_append_cons_self, List.filter_append, hempty]
    simp

def readLine (stof : List UInt8 → F) (o : Mesh F) (line : List UInt8) : Option (Mesh F) :=
  if line.length < lineSize then parseLine stof line o else none

def readLines (stof : List UInt8 → F) (ls : List (List UInt8)) (o : Mesh F) : Option (Mesh F) :=
  ls.foldlM (readLine stof) o

theorem readLines_append : readLines stof (ls ++ ls') o =
    (readLines stof ls o).bind (readLines stof ls') := List.foldlM_append

theorem readLines_cons : readLines stof (line :: ls) o =
    (readLine stof o line).bind (readLines stof ls) := List.foldlM_cons

theorem parseLine_other (h : isData line = false) : parseLine stof line o = some o := by
  obtain ⟨hv, hf⟩ := Bool.or_eq_false_iff.mp h
  rw [parseLine, if_neg (by rw [hv]; decide), if_neg (by rw [hf]; decide)]

theorem readLine_other (hlen : line.length < lineSize) (h : isData line = false) :
    readLine stof o line = some o := by
  rw [readLine, if_pos hlen, parseLine_other h]

theorem readLine_nil : readLine stof o [] = some o := readLine_other (by decide) (by decide)

theorem readLines_splitOn : readLines stof (t.splitOn newline) o = readLines stof (lines t) o := by
  unfold lines
  generalize t.splitOn newline = ls
  induction ls generalizing o with
  | nil => rfl
  | cons l ls ih =>
    cases l with
    | nil =>
      rw [readLines_cons, readLine_nil]
      exact ih
    | cons c cs =>
      rw [List.filter_cons_of_pos rfl, readLines_cons, readLines_cons]
      exact congrArg _ (funext fun o => ih)

theorem scanLine_append {l rest : List UInt8} {c : UInt8} (hl : ∀ d ∈ l, d ≠ newline ∧ d ≠ 0) :
    scanLine (l ++ c :: rest) = (scanLine (c :: rest)).map fun r => (l ++ r.1, l.length + r.2) := by
  induction l with
  | nil => cases h : scanLine (c :: rest) <;> simp [h]
  | cons d l ih =>
    obtain ⟨hd, hd0⟩ := hl d List.mem_cons_self
    rw [List.cons_append, scanLine, if_neg hd, if_neg hd0,
      ih fun e he => hl e (List.mem_cons_of_mem _ he)]
    cases scanLine (c :: rest) with
    | none => rfl
    | some r =>
      simp only [Option.map_some, List.cons_append, List.length_cons]
      congr 2
      omega

theorem parseFrom_line {n m : Nat} {c : UInt8} {cs : List UInt8} (hc : c ≠ 0)
    (hs : scanLine (c :: cs) = some (line, m)) (hm : m ≠ 0) : parseFrom stof (n + 1) (c :: cs) o =
      (readLine stof o line).bind fun o => parseFrom stof n ((c :: cs).drop m) o := by
  rw [parseFrom, if_neg hc, nextLine, hs, Option.bind_some]
  unfold readLine
  dsimp only
  split
  · rw [Option.bind_some]
    exact if_neg hm
  · rfl

/-- parse_obj takes the lines of what lies before the first NUL. -/
theorem parseFrom_text {n : Nat} {rest : List UInt8} (ht : ∀ c ∈ t, c ≠ 0) (hn : t.length < n) :
    parseFrom stof n (t ++ 0 :: rest) o = readLines stof (lines t) o := by
  induction n generalizing t o with
  | zero => cases hn
  | succ n ih =>
    cases t with
    | nil => rfl
    | cons c cs =>
      have hc := ht c List.mem_cons_self
      rw [← readLines_splitOn]
      by_cases hnl : newline ∈ c :: cs
      · obtain ⟨l, t', he, hl⟩ := List.eq_append_cons_of_mem hnl
        have hmem : ∀ d ∈ l, d ∈ c :: cs := fun d hd => he ▸ List.mem_append_left _ hd
        have hscan : scanLine (c :: (cs ++ 0 :: rest)) = some (l, l.length + 1) := by
          rw [← List.cons_append, he, List.append_assoc, List.cons_append, scanLine_append
            fun d hd => ⟨fun hd' => hl (hd' ▸ hd), ht d (hmem d hd)⟩]
          rw [scanLine, if_pos rfl]
          simp
        have hdrop : (c :: (cs ++ 0 :: rest)).drop (l.length + 1) = t' ++ 0 :: rest := by
          rw [← List.cons_append, he, List.append_assoc, List.cons_append]
          simp
        have hlen : t'.length < n := by
          rw [he, List.length_append, List.length_cons] at hn
          omega
        have ht' : ∀ d ∈ t', d ≠ 0 := fun d hd =>
          ht d (he ▸ List.mem_append_right _ (List.mem_cons_of_mem _ hd))
        rw [he, List.splitOn_append_cons_self_of_not_mem hl, readLines_cons, ← he, List.cons_append,
          parseFrom_line hc hscan (Nat.succ_ne_zero _), hdrop]
        refine congrArg _ (funext fun o => ?_)
        rw [ih ht' hlen, readLines_splitOn]
      · have hscan : scanLine (c :: (cs ++ 0 :: rest)) = some (c :: cs, (c :: cs).length) := by
          rw [← List.cons_append, scanLine_append fun d hd => ⟨fun he => hnl (he ▸ hd), ht d hd⟩]
          rw [scanLine, if_neg (by decide), if_pos rfl]
          simp
        have hdrop : (c :: (cs ++ 0 :: rest)).drop (c :: cs).length = 0 :: rest := by simp
        rw [List.splitOn_eq_singleton hnl, readLines_cons, List.cons_append,
          parseFrom_line hc hscan (Nat.succ_ne_zero _), hdrop]
        cases n with
        | zero => simp at hn
        | succ n => rfl

theorem text_noNul {m : List UInt8} : ∀ c ∈ text m, c ≠ 0 := fun c hc => by
  simpa using (List.mem_takeWhile_imp hc)

theorem text_split {m : List UInt8} (h : 0 ∈ m) : ∃ rest, m = text m ++ 0 :: rest := by
  obtain ⟨a, rest, rfl, ha⟩ := List.eq_append_cons_of_mem h
  have hne : ∀ c ∈ a, (c != 0) = true := fun c hc => bne_iff_ne.mpr fun he => ha (he ▸ hc)
  refine ⟨rest, ?_⟩
  unfold text
  rw [List.takeWhile_append_of_pos hne]
  simp

theorem text_append {m : List UInt8} (ha : ∀ c ∈ a, c ≠ 0) : text (a ++ m) = a ++ text m :=
  List.takeWhile_append_of_pos fun c hc => bne_iff_ne.mpr (ha c hc)

theorem parseObj_text {m : List UInt8} (h : 0 ∈ m) :
    parseObj stof m o = readLines stof (lines (text m)) o := by
  obtain ⟨rest, hm⟩ := text_split h
  have hlen : (text m).length < m.length + 1 :=
    Nat.lt_succ_of_le (List.takeWhile_prefix _).length_le
  have hparse := @parseFrom_text _ stof (text m) o (m.length + 1) rest text_noNul hlen
  rwa [← hm] at hparse

theorem scanLine_zero {m : List UInt8} (h : scanLine m = some (line, 0)) : 0 ∈ m := by
  cases m with
  | nil => cases h
  | cons c cs =>
    rw [scanLine] at h
    split at h
    · cases h
    · split at h
      · rename_i hc
        exact hc ▸ List.mem_cons_self
      · obtain ⟨r, -, he⟩ := Option.map_eq_some_iff.mp h
        cases he

theorem parseFrom_nul {n : Nat} {m : List UInt8} (h : parseFrom stof n m o = some o') : 0 ∈ m := by
  induction n generalizing m o with
  | zero => cases h
  | succ n ih =>
    cases m with
    | nil => cases h
    | cons c cs =>
      rw [parseFrom] at h
      split at h
      · rename_i hc
        exact hc ▸ List.mem_cons_self
      · obtain ⟨⟨line, consumed⟩, hline, h⟩ := Option.bind_eq_some_iff.mp h
        obtain ⟨r, hscan, hr⟩ := Option.bind_eq_some_iff.mp hline
        dsimp only at h
        split at h
        · rename_i hzero
          split at hr
          · cases hr
            exact scanLine_zero (hzero ▸ hscan)
          · cases hr
        · obtain ⟨o1, -, h⟩ := Option.bind_eq_some_iff.mp h
          exact List.mem_of_mem_drop (ih h)

/-! ### What lines add -/

def size (o : Mesh F) : Nat := o.vertices.length + o.faces.length

theorem readLine_size (h : readLine stof o line = some o') :
    line.length < lineSize ∧ size o' = size o + (isData line).toNat := by
  unfold readLine at h
  split at h
  · rename_i hlen
    refine ⟨hlen, ?_⟩
    unfold parseLine at h
    unfold isData size
    split at h
    · rename_i hv
      obtain ⟨t, -, h⟩ := Option.bind_eq_some_iff.mp h
      dsimp only at h
      split at h
      · cases h
        simp [hv]
        omega
      · cases h
    · rename_i hv
      split at h
      · rename_i hf
        obtain ⟨t, -, h⟩ := Option.bind_eq_some_iff.mp h
        dsimp only at h
        split at h
        · cases h
          simp [hf]
          omega
        · cases h
      · rename_i hf
        cases h
        simp [hv, hf]
  · cases h

theorem readLines_size (h : readLines stof ls o = some o') :
    (∀ line ∈ ls, line.length < lineSize) ∧ size o' = size o + ls.countP isData := by
  induction ls generalizing o with
  | nil =>
    cases h
    exact ⟨fun _ h => absurd h List.not_mem_nil, rfl⟩
  | cons line ls ih =>
    rw [readLines_cons] at h
    obtain ⟨o1, hline, h⟩ := Option.bind_eq_some_iff.mp h
    obtain ⟨hlen, hone⟩ := readLine_size hline
    obtain ⟨hlens, hrest⟩ := ih h
    refine ⟨fun l hl => ?_, ?_⟩
    · rcases List.mem_cons.mp hl with rfl | hl
      · exact hlen
      · exact hlens l hl
    · rw [hrest, hone, List.countP_cons]
      cases isData line with
      | true => simp; omega
      | false => simp

theorem readLines_other (h : ∀ line ∈ ls, line.length < lineSize ∧ isData line = false) :
    readLines stof ls o = some o := by
  induction ls with
  | nil => rfl
  | cons line ls ih =>
    obtain ⟨hlen, hdata⟩ := h line List.mem_cons_self
    rw [readLines_cons, readLine_other hlen hdata]
    exact ih fun l hl => h l (List.mem_cons_of_mem _ hl)

/-! ### One round -/

section rounds
variable {data : List UInt8} {garbage : Buffer} {above : Nat → List UInt8} {k : Nat}

theorem memoryAt_starts (k : Nat) : own data k <+: memoryAt data garbage above k := by
  have hown : own data k = (chunk data k).take ((text data).length - bufSize * k) := by
    obtain ⟨n, hn, htake⟩ : ∃ n, n = (text data).length ∧ text data = data.take n :=
      ⟨_, rfl, List.prefix_iff_eq_take.mp (List.takeWhile_prefix _)⟩
    unfold own chunk
    rw [← hn, htake, List.drop_take, List.take_take, List.take_take, Nat.min_comm]
  unfold memoryAt
  rw [hown, List.append_assoc]
  exact (List.take_prefix _ _).trans (List.prefix_append _ _)

theorem memoryAt_eq (k : Nat) :
    memoryAt data garbage above k = own data k ++ behind data garbage above k :=
  (List.prefix_iff_eq_append.mp (memoryAt_starts k)).symm

theorem own_noNul (k : Nat) : ∀ c ∈ own data k, c ≠ 0 := fun c hc =>
  text_noNul c (List.mem_of_mem_drop (List.mem_of_mem_take hc))

/-- A call of parse_obj takes the lines of its part of the text, then what lies behind. -/
theorem parseObj_memoryAt (hmeets : Meets (own data k) (text (behind data garbage above k))) :
    parseObj stof (memoryAt data garbage above k) o = some o' ↔
      0 ∈ behind data garbage above k ∧ ∃ o1, readLines stof (lines (own data k)) o = some o1 ∧
        readLines stof (lines (text (behind data garbage above k))) o1 = some o' := by
  have hmem : 0 ∈ memoryAt data garbage above k ↔ 0 ∈ behind data garbage above k := by
    rw [memoryAt_eq, List.mem_append]
    exact or_iff_right fun h => own_noNul k 0 h rfl
  constructor
  · intro h
    have hnul : 0 ∈ memoryAt data garbage above k := parseFrom_nul h
    rw [parseObj_text hnul, memoryAt_eq, text_append (own_noNul k), lines_append hmeets,
      readLines_append] at h
    exact ⟨hmem.mp hnul, Option.bind_eq_some_iff.mp h⟩
  · rintro ⟨hnul, h⟩
    rw [parseObj_text (hmem.mpr hnul), memoryAt_eq, text_append (own_noNul k), lines_append hmeets,
      readLines_append]
    exact Option.bind_eq_some_iff.mpr h

theorem lines_drop (hmeets : Meets (own data k) ((text data).drop (bufSize * (k + 1)))) :
    lines ((text data).drop (bufSize * k)) =
      lines (own data k) ++ lines ((text data).drop (bufSize * (k + 1))) := by
  rw [← lines_append hmeets, own, Nat.mul_succ, ← List.drop_drop, List.take_append_drop]

variable {fd n : Nat} {s : FileState} {buf : List UInt8}

theorem chunk_length (h : bufSize * (k + 1) ≤ data.length) : (chunk data k).length = bufSize := by
  rw [Nat.mul_succ] at h
  rw [chunk, List.length_take, List.length_drop]
  omega

theorem held_length (garbage : Buffer) (h : bufSize * k ≤ data.length) :
    (held data garbage k).length = bufSize := by
  cases k with
  | zero => exact garbage.2
  | succ k => exact chunk_length h

structure Before (fd : Nat) (data : List UInt8) (garbage : Buffer) (k : Nat) (s : FileState)
    (buf : List UInt8) : Prop where
  openAt : OpenAt s fd data (min (bufSize * k) data.length)
  buffer : bufSize * k < data.length → buf = held data garbage k

/-- The read fills the buffer from its start and parse_obj is called on it. -/
theorem Before.round (h : Before fd data garbage k s buf) (hmore : bufSize * k < data.length) :
    ∃ s' buf', Before fd data garbage (k + 1) s' buf' ∧ ∀ o : Mesh F,
      loadFrom stof fd above (n + 1) k s buf o =
        (parseObj stof (memoryAt data garbage above k) o).bind
          fun o => loadFrom stof fd above n (k + 1) s' buf' o := by
  have hoff : min (bufSize * k) data.length = bufSize * k := Nat.min_eq_left (Nat.le_of_lt hmore)
  have hopen := h.openAt
  rw [hoff] at hopen
  obtain ⟨r, hread, heax, hbytes, hnext⟩ := hopen.read_more hmore (show bufSize < 2147483648 by decide)
  have hchunk : r.bytes = chunk data k := by
    rw [hbytes, heax, chunk, List.take_eq_take_iff, List.length_drop]
    omega
  have hsize : toInt32 r.eax > 0 := by
    have hpos : bufSize = 1024 := rfl
    rw [toInt32_eq (by omega)]
    omega
  refine ⟨r.state, r.bytes ++ buf.drop r.bytes.length, ⟨?_, fun hagain => ?_⟩, fun o => ?_⟩
  · have he : bufSize * k + r.eax = min (bufSize * (k + 1)) data.length := by
      rw [heax, Nat.mul_succ]
      omega
    exact he ▸ hnext
  · have hfull := chunk_length (Nat.le_of_lt hagain)
    have hheld := held_length garbage (Nat.le_of_lt hmore)
    have hdrop : (held data garbage k).drop (chunk data k).length = [] :=
      List.drop_eq_nil_of_le (by rw [hfull, hheld])
    rw [hchunk, h.buffer hmore, hdrop, List.append_nil]
    rfl
  · rw [loadFrom, hread, Option.bind_some, if_pos hsize]
    dsimp only
    rw [hchunk, h.buffer hmore, ← memoryAt]

theorem Before.ends (h : Before fd data garbage k s buf) (hend : data.length ≤ bufSize * k) :
    loadFrom stof fd above (n + 1) k s buf o = some o := by
  have hopen := h.openAt
  rw [loadFrom, hopen.read_end (Nat.le_min.mpr ⟨hend, Nat.le_refl _⟩), Option.bind_some]
  exact if_neg (show ¬toInt32 0 > 0 by decide)

theorem text_drop_end (hend : data.length ≤ bufSize * k) : (text data).drop (bufSize * k) = [] :=
  List.drop_eq_nil_of_le (Nat.le_trans (List.takeWhile_prefix _).length_le hend)

/-- Every line with a vertex or a face of the text adds one. -/
theorem Before.size_le (h : Before fd data garbage k s buf)
    (hwhole : LinesWhole data garbage above) (hr : loadFrom stof fd above n k s buf o = some o') :
    size o + (lines ((text data).drop (bufSize * k))).countP isData ≤ size o' := by
  induction n generalizing k s buf o with
  | zero => cases hr
  | succ n ih =>
    by_cases hmore : bufSize * k < data.length
    · obtain ⟨s', buf', hnext, hround⟩ := @Before.round _ stof _ _ above _ _ n _ _ h hmore
      rw [hround] at hr
      obtain ⟨o2, hparse, hrest⟩ := Option.bind_eq_some_iff.mp hr
      obtain ⟨hline, hbehind⟩ := hwhole k hmore
      obtain ⟨-, o1, hown, hstale⟩ := (parseObj_memoryAt hbehind).mp hparse
      have hsize1 := (readLines_size hown).2
      have hsize2 := (readLines_size hstale).2
      have hsize3 := ih hnext hrest
      rw [lines_drop hline, List.countP_append]
      omega
    · have hend := Nat.le_of_not_lt hmore
      rw [h.ends hend] at hr
      cases hr
      rw [text_drop_end hend]
      exact Nat.le_refl _

/-- From a read on: the lines still to come are taken exactly if nothing else is. -/
theorem Before.load_iff (h : Before fd data garbage k s buf) (hwhole : LinesWhole data garbage above)
    (hk : k ≤ data.length) (hn : data.length < n + k)
    (hr : readLines stof (lines ((text data).drop (bufSize * k))) o = some o') :
    loadFrom stof fd above n k s buf o = some o' ↔ ∀ j ≥ k, bufSize * j < data.length →
      0 ∈ behind data garbage above j ∧ ∀ line ∈ lines (text (behind data garbage above j)),
        line.length < lineSize ∧ isData line = false := by
  induction n generalizing k s buf o with
  | zero => omega
  | succ n ih =>
    by_cases hmore : bufSize * k < data.length
    · have hk' : k + 1 ≤ data.length := by
        have hone : 1 * k ≤ bufSize * k := Nat.mul_le_mul_right k (by decide)
        omega
      obtain ⟨s', buf', hnext, hround⟩ := @Before.round _ stof _ _ above _ _ n _ _ h hmore
      obtain ⟨hline, hbehind⟩ := hwhole k hmore
      rw [lines_drop hline, readLines_append] at hr
      obtain ⟨o1, hown, hrest⟩ := Option.bind_eq_some_iff.mp hr
      rw [hround]
      constructor
      · intro hload
        obtain ⟨o3, hparse, hload⟩ := Option.bind_eq_some_iff.mp hload
        obtain ⟨hnul, o2, hown', hstale⟩ := (parseObj_memoryAt hbehind).mp hparse
        rw [hown] at hown'
        cases hown'
        -- the total leaves no room for a line from behind
        have hsize := hnext.size_le hwhole hload
        have htotal := (readLines_size hrest).2
        obtain ⟨hlens, hstale2⟩ := readLines_size hstale
        have hnone : (lines (text (behind data garbage above k))).countP isData = 0 := by omega
        have hclean : ∀ line ∈ lines (text (behind data garbage above k)),
            line.length < lineSize ∧ isData line = false := fun line hl =>
          ⟨hlens line hl, Bool.eq_false_iff.mpr (List.countP_eq_zero.mp hnone line hl)⟩
        rw [readLines_other hclean] at hstale
        cases hstale
        have hlater := (ih hnext hk' (by omega) hrest).mp hload
        intro j hj hjlt
        rcases Nat.eq_or_lt_of_le hj with rfl | hlt
        · exact ⟨hnul, hclean⟩
        · exact hlater j hlt hjlt
      · intro hall
        obtain ⟨hnul, hclean⟩ := hall k (Nat.le_refl k) hmore
        have hparse : parseObj stof (memoryAt data garbage above k) o = some o1 :=
          (parseObj_memoryAt hbehind).mpr ⟨hnul, o1, hown, readLines_other hclean⟩
        rw [hparse]
        exact (ih hnext hk' (by omega) hrest).mpr fun j hj => hall j (Nat.le_of_succ_le hj)
    · have hend := Nat.le_of_not_lt hmore
      rw [text_drop_end hend] at hr
      cases hr
      rw [h.ends hend]
      refine iff_of_true rfl fun j hj hjlt => absurd hjlt (Nat.not_lt_of_le (Nat.le_trans hend ?_))
      exact Nat.mul_le_mul_left _ hj

end rounds

theorem parseWhole_eq (data : List UInt8) :
    parseWhole stof data = readLines stof (lines (text data)) (emptyMesh F) := by
  have htext : text (data ++ [0]) = text data := by
    unfold text
    rw [List.takeWhile_append]
    split
    · rename_i hall
      rw [List.takeWhile_cons_of_neg (by decide), List.append_nil]
      exact (List.takeWhile_prefix _).eq_of_length hall |>.symm
    · rfl
  rw [parseWhole, parseObj_text (by simp), htext]

/-- Where no line runs from one read into the next or into what lies behind, loading by chunks gives
the mesh of the whole file exactly if no stale line is taken for data. -/
theorem load_by_chunks {fd : Nat} {s : FileState} {data : List UInt8} {garbage : Buffer}
    {above : Nat → List UInt8} (hopen : OpenAt s fd data 0) (hwhole : LinesWhole data garbage above)
    (hfits : parseWhole stof data = some o) :
    loadObj stof fd s garbage above = some o ↔ NothingStale data garbage above := by
  rw [parseWhole_eq] at hfits
  have hstart : Before fd data garbage 0 s garbage.1 :=
    ⟨by rw [Nat.mul_zero, Nat.zero_min]; exact hopen, fun _ => rfl⟩
  have hsmall := hopen.small
  have hiff := @Before.load_iff _ stof _ _ data garbage above 0 fd 4294967296 s garbage.1 hstart hwhole
    (Nat.zero_le _) (by omega) (by rw [Nat.mul_zero]; exact hfits)
  exact hiff.trans ⟨fun h j => h j (Nat.zero_le j), fun h j _ => h j⟩

end proofs

/-! ### A file of two reads, and a face on the boundary -/

def openState (data : List UInt8) : FileState where
  disk := fun _ _ => 0
  fds := (List.replicate maxFds closedFd).set 2 ⟨.file, 4, 0, true⟩
  files := fun _ => ⟨data, data.length, 0, 0⟩
  fds_length := by rw [List.length_set, List.length_replicate]

theorem openState_openAt {data : List UInt8} (h : data.length < 2147483648) :
    OpenAt (openState data) 2 data 0 := ⟨by decide, rfl, rfl, rfl, rfl, h⟩

def zeroBuffer : Buffer := ⟨List.replicate bufSize 0, List.length_replicate⟩

def ascii (s : String) : List UInt8 := s.toList.map fun c => UInt8.ofNat c.toNat

def comments : List UInt8 := (List.replicate 8 (List.replicate 126 35 ++ [newline])).flatten

/- A vertex and comments up to byte 1024, then a face. -/
def twoReads : List UInt8 := ascii "v 1 2 3\n" ++ comments ++ ascii "f 1 1 1\n"

def stackLine : List UInt8 := ascii "# left\n" ++ [0]

theorem twoReads_behind : text (behind twoReads zeroBuffer (fun _ => stackLine) 0) = ascii "# left\n" ∧
    text (behind twoReads zeroBuffer (fun _ => stackLine) 1) = comments ++ ascii "# left\n" := by
  decide +kernel

/-- The second read leaves the comments of the first behind the face. -/
theorem twoReads_loaded : loadObj id 2 (openState twoReads) zeroBuffer (fun _ => stackLine) =
    some ⟨[⟨ascii "1", ascii "2", ascii "3"⟩], [⟨0, 0, 0⟩]⟩ := by
  have hlen : twoReads.length = 1032 := by decide +kernel
  have hreads : ∀ {k}, bufSize * k < twoReads.length → k = 0 ∨ k = 1 := fun {k} hk => by
    rw [hlen, show bufSize = 1024 from rfl] at hk
    omega
  obtain ⟨hbehind₀, hbehind₁⟩ := twoReads_behind
  have hends : (own twoReads 0).getLast? = some newline ∧ (own twoReads 1).getLast? = some newline := by
    decide +kernel
  refine (load_by_chunks (openState_openAt (by rw [hlen]; decide)) (fun k hk => ?_)
    (by decide +kernel)).mpr fun k hk => ?_
  · rcases hreads hk with rfl | rfl
    · exact ⟨.inr (.inr (.inl hends.1)), .inr (.inr (.inl hends.1))⟩
    · exact ⟨.inr (.inr (.inl hends.2)), .inr (.inr (.inl hends.2))⟩
  · rcases hreads hk with rfl | rfl
    · rw [hbehind₀]
      exact ⟨by decide +kernel, by decide +kernel⟩
    · rw [hbehind₁]
      exact ⟨by decide +kernel, by decide +kernel⟩

/- Comments up to byte 1020, a face, and zeros up to the end of the cluster. -/
def longFile : List UInt8 := comments ++ ascii "# a\nf 1 1 1\n" ++ List.replicate 1020 0

/-- The first call sees "f 1 " and takes a face with two missing numbers. -/
theorem longFile_face_cut : ¬ ∀ (F : Type) (stof : List UInt8 → F) fd s data garbage above o,
    OpenAt s fd data 0 → parseWhole stof data = some o →
    loadObj stof fd s garbage above = some o := by
  intro hall
  have hwhole : parseWhole (fun _ => ()) longFile = some ⟨[], [⟨0, 0, 0⟩]⟩ := by decide +kernel
  have hload : loadObj (fun _ => ()) 2 (openState longFile) zeroBuffer (fun _ => [0]) =
      some ⟨[], [⟨0, -1, -1⟩]⟩ := by decide +kernel
  have hsame := hall _ _ _ _ _ zeroBuffer (fun _ => [0]) _
    (openState_openAt (by decide +kernel)) hwhole
  rw [hload] at hsame
  exact absurd hsame (by decide)

end AdamOS.Obj
