import AdamOS.Lib.Loop
import AdamOS.Lib.Word
import Mathlib.Algebra.Group.Nat.Defs
import Mathlib.Data.List.Basic

/-! fat16.c on the disk of ata.c. Where the source leaves defined behaviour (a name that does not
fit the buffers of fat16_format_name, a copy past a sector buffer, a cluster chain that never
ends) the result is none. The small buffers come from a kmalloc that serves them. -/
namespace AdamOS.Fat16
open AdamOS.Loop AdamOS.Word

def sectorSize : Nat := 512
def fat16StartLba : Nat := 2048

/- The bytes of a sector; only the first 512 count. -/
abbrev Sector := Nat → UInt8
abbrev Disk := Nat → Sector

/- ata_select puts 28 bits of the address on the bus. -/
def ataLba (lba : Nat) : Nat := lba % 268435456

def ataReadSector (d : Disk) (lba : Nat) : Sector := d (ataLba lba)

def ataWriteSector (lba : Nat) (s : Sector) (d : Disk) : Disk :=
  fun l => if l = ataLba lba then s else d l

def le16 (s : Nat → UInt8) (i : Nat) : Nat := (s i).toNat + 256 * (s (i + 1)).toNat

def le32 (s : Nat → UInt8) (i : Nat) : Nat := le16 s i + 65536 * le16 s (i + 2)

def byteOf (n i : Nat) : UInt8 := UInt8.ofNat (n / 256 ^ i)

/-! ### The volume -/

/- What init_fat16 leaves in bpb; geometry is computed from it. -/
structure Volume where
  bytesPerSector : Nat
  sectorsPerCluster : Nat
  reservedSectors : Nat
  numFats : Nat
  rootEntryCount : Nat
  sectorsPerFat : Nat
  /- ceil divides by it -/
  bytesPerSector_pos : 0 < bytesPerSector
  sectorsPerCluster_lt : sectorsPerCluster < 256
  reservedSectors_lt : reservedSectors < 65536
  numFats_lt : numFats < 256
  rootEntryCount_lt : rootEntryCount < 65536
  sectorsPerFat_lt : sectorsPerFat < 65536

def strncmp (a b : Nat → UInt8) (n : Nat) : Bool :=
  (List.range n).all fun i => a i == b i && a i != 0

theorem le16_lt (s : Nat → UInt8) (i : Nat) : le16 s i < 65536 := by
  have h0 := (s i).toNat_lt
  have h1 := (s (i + 1)).toNat_lt
  simp only [le16]
  omega

namespace Volume
variable (v : Volume)

def fatStartLba : Nat := fat16StartLba + v.reservedSectors
def rootDirStartLba : Nat := v.fatStartLba + v.numFats * v.sectorsPerFat
def rootDirSectors : Nat := (v.rootEntryCount * 32 + v.bytesPerSector - 1) / v.bytesPerSector
def dataStartLba : Nat := v.rootDirStartLba + v.rootDirSectors
def clusterBytes : Nat := v.sectorsPerCluster * sectorSize

/- data_start_lba + (cluster - 2) * sectors_per_cluster; the int product may be negative. -/
def clusterLba (cluster : Nat) : Nat :=
  sub32 (v.dataStartLba + cluster * v.sectorsPerCluster) (2 * v.sectorsPerCluster)

end Volume

/-! ### Names -/

/- A string: its characters, without the NUL that ends it. -/
structure CString where
  chars : List UInt8
  noNul : ∀ c ∈ chars, c ≠ 0

theorem noNul_of_all {chars : List UInt8} (h : (chars.all fun c => c != 0) = true) :
    ∀ c ∈ chars, c ≠ 0 := by simpa using h

def slash : UInt8 := 47
def dot : UInt8 := 46
def space : UInt8 := 32

/- The token and what is left of the string; string_token moves past one delimiter. -/
def strtok (delim : UInt8) (s : List UInt8) : List UInt8 × List UInt8 :=
  let s := s.dropWhile (· == delim)
  (s.takeWhile (· != delim), (s.dropWhile (· != delim)).tail)

/- 'a' to 'z' -/
def toUpper (c : UInt8) : UInt8 := if 97 ≤ c ∧ c ≤ 122 then c - 32 else c

def padField (s : List UInt8) (i : Nat) : UInt8 :=
  match s[i]? with
  | some c => toUpper c
  | none => space

/- name_out[8] and ext_out[3] -/
structure ShortName where
  name : Nat → UInt8
  ext : Nat → UInt8

/- The string has to fit temp[64], its components name[9] and ext[4]. -/
def fat16FormatName (input : CString) : Option ShortName :=
  let name := strtok dot input.chars
  let ext := strtok dot name.2
  if input.chars.length < 64 ∧ name.1.length < 9 ∧ ext.1.length < 4 then
    some ⟨padField name.1, padField ext.1⟩
  else none

/-! ### Directory entries -/

/- The 32 bytes of a fat16_entry_t. -/
abbrev Fat16Entry := Nat → UInt8

namespace Fat16Entry

def attributes (e : Fat16Entry) : UInt8 := e 11
def startCluster (e : Fat16Entry) : Nat := le16 e 26
def fileSize (e : Fat16Entry) : Nat := le32 e 28

end Fat16Entry

def entrySize : Nat := 32
def slotsPerSector : Nat := 16
def deleted : UInt8 := 0xE5

def dirSlot (d : Disk) (lba s : Nat) : Fat16Entry := fun k =>
  if k < entrySize then
    ataReadSector d (lba + s / slotsPerSector) (s % slotsPerSector * entrySize + k)
  else 0

def dirSlots (d : Disk) (lba sectors : Nat) : List Fat16Entry :=
  (List.range (sectors * slotsPerSector)).map (dirSlot d lba)

def rootSlots (v : Volume) (d : Disk) : List Fat16Entry :=
  dirSlots d v.rootDirStartLba v.rootDirSectors

def ShortName.names (n : ShortName) (e : Fat16Entry) : Bool :=
  strncmp n.name e 8 && strncmp n.ext (fun i => e (8 + i)) 3

def findSlot (n : ShortName) : List Fat16Entry → Option Fat16Entry
  | [] => none
  | e :: es =>
    if e 0 = 0 then none
    else if e 0 = deleted then findSlot n es
    else if n.names e then some e
    else findSlot n es

/- The entry for "/" is a block from kmalloc of which two bytes are set. -/
def rootEntry (garbage : Fat16Entry) : Fat16Entry :=
  fun k => if k = 0 then slash else if k = 11 then 0x10 else garbage k

/- some none is NULL -/
def fat16FindFile (v : Volume) (d : Disk) (garbage : Fat16Entry) (input : CString) :
    Option (Option Fat16Entry) :=
  if input.chars = [slash] then some (some (rootEntry garbage))
  else (fat16FormatName input).map fun n => findSlot n (rootSlots v d)

def collectSlots : List Fat16Entry → List UInt8
  | [] => []
  | e :: es =>
    if e 0 = 0 then []
    else if e 0 = deleted then collectSlots es
    else (List.range entrySize).map e ++ collectSlots es

/- The bytes left in buf; index is their number. -/
def fat16ReadFolder (v : Volume) (d : Disk) (folder : Fat16Entry) : List UInt8 :=
  if folder 0 = slash then collectSlots (rootSlots v d)
  else collectSlots (dirSlots d (v.clusterLba folder.startCluster) v.sectorsPerCluster)

/-! ### Cluster chains -/

def fatSector (v : Volume) (cluster : Nat) : Nat := v.fatStartLba + cluster / 256

/- Read in the first FAT only. -/
def fatEntry (v : Volume) (d : Disk) (cluster : Nat) : Nat :=
  le16 (ataReadSector d (fatSector v cluster)) (cluster % 256 * 2)

def endOfChain : Nat := 0xFFF8

def sectorBytes (d : Disk) (lba : Nat) : List UInt8 :=
  (List.range sectorSize).map (ataReadSector d lba)

def readCluster (v : Volume) (d : Disk) (cluster : Nat) : List UInt8 :=
  (List.range v.sectorsPerCluster).flatMap fun i => sectorBytes d (v.clusterLba cluster + i)

/- A chain that has not ended after 2^16 clusters runs in a circle. -/
def readChain (v : Volume) (d : Disk) : Nat → Nat → Option (List UInt8)
  | 0, _ => none
  | fuel+1, cluster =>
    if cluster < endOfChain then
      (readChain v d fuel (fatEntry v d cluster)).map (readCluster v d cluster ++ ·)
    else some []

/- The first cluster is read whatever its number. -/
def fat16ReadFile (v : Volume) (d : Disk) (entry : Fat16Entry) : Option (List UInt8) :=
  (readChain v d 65536 (fatEntry v d entry.startCluster)).map
    (readCluster v d entry.startCluster ++ ·)

/- The uint16_t of fat16_alloc_cluster. -/
def totalClusters (v : Volume) : Nat := v.sectorsPerFat * sectorSize / 2 % 65536

def setFat (v : Volume) (cluster : Nat) (d : Disk) : Disk :=
  let sector := ataReadSector d (fatSector v cluster)
  ataWriteSector (fatSector v cluster)
    (fun j => if j = cluster % 256 * 2 then byteOf endOfChain 0
      else if j = cluster % 256 * 2 + 1 then byteOf endOfChain 1 else sector j) d

def freeCluster (v : Volume) (d : Disk) : Option Nat :=
  (List.range' 2 (totalClusters v - 2)).find? fun c => fatEntry v d c == 0

def fat16AllocCluster (v : Volume) (d : Disk) : Nat × Disk :=
  match freeCluster v d with
  | some c => (c, setFat v c d)
  | none => (0, d)

/-! ### Creating a file -/

/- min takes ints. -/
def min32 (x y : Nat) : Nat := if toInt32 x < toInt32 y then wrap x else wrap y

/- Sector i of the n bytes in buf, the rest zero. -/
def paddedSector (n : Nat) (buf : Nat → UInt8) (i : Nat) : Option Sector :=
  let offset := i * sectorSize
  let toCopy := min32 (n - offset) sectorSize
  if toCopy ≤ sectorSize then some fun j => if j < toCopy then buf (offset + j) else 0
  else none

/- The loop over the sectors of one cluster that fat16_write_file and write_file share. -/
def writeCluster (v : Volume) (lba n : Nat) (buf : Nat → UInt8) (d : Disk) : Option Disk :=
  loop v.sectorsPerCluster (fun i r => r.bind fun d =>
    (paddedSector n buf i).map fun s => ataWriteSector (lba + i) s d) (some d)

def newEntry (n : ShortName) (cluster size : Nat) : Fat16Entry := fun k =>
  if k < 8 then n.name k
  else if k < 11 then n.ext (k - 8)
  else if k = 11 then 0x20
  else if k < 26 then 0
  else if k < 28 then byteOf cluster (k - 26)
  else if k < entrySize then byteOf size (k - 28)
  else 0

def putSlot (lba s : Nat) (e : Fat16Entry) (d : Disk) : Disk :=
  let sector := ataReadSector d (lba + s / slotsPerSector)
  let start := s % slotsPerSector * entrySize
  ataWriteSector (lba + s / slotsPerSector)
    (fun j => if start ≤ j ∧ j < start + entrySize then e (j - start) else sector j) d

def isFreeSlot (e : Fat16Entry) : Bool := e 0 == 0 || e 0 == deleted

def freeSlot (v : Volume) (d : Disk) : Option Nat := (rootSlots v d).findIdx? isFreeSlot

def fat16CreateDirEntry (v : Volume) (input : CString) (cluster size : Nat) (d : Disk) :
    Option Disk :=
  (fat16FormatName input).map fun n =>
    match freeSlot v d with
    | some s => putSlot v.rootDirStartLba s (newEntry n cluster size) d
    | none => d

def fat16WriteFile (v : Volume) (name : CString) (data : Nat → UInt8) (size : Nat) (d : Disk) :
    Option (Bool × Disk) :=
  let r := fat16AllocCluster v d
  if r.1 = 0 then some (false, r.2)
  else do
    let d ← writeCluster v (v.clusterLba r.1) size data r.2
    let d ← fat16CreateDirEntry v name r.1 size d
    return (true, d)

end AdamOS.Fat16
