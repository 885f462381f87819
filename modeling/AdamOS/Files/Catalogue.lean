import AdamOS.Files.Creation
import AdamOS.Files.Insertion
import AdamOS.Files.ReadWrite
import AdamOS.Lib.Transition

/-! The root directory as a catalogue: a file name stands for the bytes that reading the file delivers.
The shell's touch is one assignment to the catalogue, whichever file it creates or writes to. -/
namespace AdamOS.Files
open AdamOS.Fat16 AdamOS.Process AdamOS.Kmalloc AdamOS.Transition AdamOS.Word

/-! ### touch -/

/- name, at most 12 characters up to the first space. -/
def touchName (arg : CString) : CString where
  chars := (arg.chars.takeWhile (· != space)).take 12
  noNul := fun c hc => arg.noNul c ((List.takeWhile_prefix _).subset (List.mem_of_mem_take hc))

/- content begins behind the space that ends the name; a name that is cut has none. -/
def touchContent (arg : CString) : List UInt8 :=
  match arg.chars.drop (touchName arg).chars.length with
  | [] => []
  | c :: content => if c = space then content else []

def handleSyscallClose (i : Nat) (s : FileState) : FileState :=
  let fd := s.fds.getD i closedFd
  if fd.isOpen = false then s else s.setFd i { fd with data := 0, isOpen := false }

/- handle_create of the shell. Each call finds its own garbage on the heap and gets its own block for the
   fat16_fd_t. -/
structure Touch where
  arg : CString
  garbage : Fat16Entry
  ptr : Nat

def handleCreate (v : Volume) (room : Room) (s : FileState) (t : Touch) : Option FileState :=
  let name := touchName t.arg
  let content := touchContent t.arg
  let data := fun k => content.getD k 0
  if name.chars = [] then some s
  else do
    let (fd, s) ← handleSyscallOpen v room t.garbage t.ptr (some name) s
    if fd = minusOne then
      let (_, d) ← fat16WriteFile v name data content.length s.disk
      return { s with disk := d }
    else
      let (_, s) ← writeFd v fd data content.length s
      return handleSyscallClose fd s

/-! ### The catalogue -/

def keyOf (e : Fat16Entry) : List UInt8 := (List.range 11).map e

def shortKey (n : ShortName) : List UInt8 := (List.range 8).map n.name ++ (List.range 3).map n.ext

abbrev Catalogue := List UInt8 → Option (List UInt8)

/- Regular files that have clusters. The slots of long names have a NUL among the eleven bytes. -/
def catalogue (v : Volume) (d : Disk) : Catalogue := fun key =>
  if 0 ∈ key then none
  else ((live (rootSlots v d)).find? fun e => decide (keyOf e = key)).bind fun e =>
    if e.isRegular = true ∧ e.startCluster ≠ 0 then fat16ReadFile v d e else none

/- The first cluster takes the content and zeros, what a file has behind it stays. -/
def touched (v : Volume) (content : List UInt8) (old : Option (List UInt8)) : List UInt8 :=
  ((List.range v.clusterBytes).map fun k => content.getD k 0) ++ (old.getD []).drop v.clusterBytes

def record (v : Volume) (m : Catalogue) (t : Touch) : Catalogue := fun key =>
  if (touchName t.arg).chars ≠ [] ∧ (fat16FormatName (touchName t.arg)).map shortKey = some key then
    some (touched v (touchContent t.arg) (m key))
  else m key

/- The name can be that of a file; if there is one, it has clusters and can be opened, and if there is
   none, there is room for it. -/
def Touchable (v : Volume) (room : Room) (s : FileState) (t : Touch) : Prop :=
  (touchName t.arg).chars ≠ [] →
    (fat16FormatName (touchName t.arg)).isSome = true ∧ (touchContent t.arg).length < 2147483648 ∧
    ∀ n ∈ fat16FormatName (touchName t.arg), n.name 0 ≠ deleted ∧ n.name 0 ≠ slash ∧
      (∀ e ∈ (live (rootSlots v s.disk)).find? n.names, (e.isRegular = true ∧ e.startCluster ≠ 0) ∧
        e.fileSize + v.clusterBytes < heapSize ∧ room.serves (e.fileSize + v.clusterBytes) = true) ∧
      (((live (rootSlots v s.disk)).find? n.names).isNone = true →
        (touchContent t.arg).length ≤ v.clusterBytes ∧ (freeSlot v s.disk).isSome = true ∧
        (freeCluster v s.disk).isSome = true)

instance (v : Volume) (room : Room) (s : FileState) (t : Touch) : Decidable (Touchable v room s t) :=
  inferInstanceAs (Decidable (_ → _ ∧ _ ∧ ∀ n ∈ fat16FormatName (touchName t.arg), _ ∧ _ ∧
    (∀ e ∈ (live (rootSlots v s.disk)).find? n.names, (_ ∧ _) ∧ _ ∧ _) ∧ (_ → _ ∧ _ ∧ _)))

def Apart (v : Volume) (d : Disk) (e f : Fat16Entry) : Prop :=
  ∀ cs cs', e.isNamed = true → f.isNamed = true → Chain v d e.startCluster cs →
    Chain v d f.startCluster cs' → cs.Disjoint cs'

structure Sound (v : Volume) (d : Disk) : Prop where
  wf : WellFormed v d
  tail : ZeroTail (rootSlots v d)
  apart : (live (rootSlots v d)).Pairwise (Apart v d)

section
variable {v : Volume} {d d' : Disk} {s s' : FileState} {e f : Fat16Entry} {n : ShortName} {c size x : Nat}
  {cs : List Nat} {data : Nat → UInt8} {key out : List UInt8} {name : CString} {room : Room} {t : Touch}

/-! ### Keys -/

theorem key_names (hn : ∀ i, n.name i ≠ 0 ∧ n.ext i ≠ 0) :
    keyOf e = shortKey n ↔ n.names e = true := by
  rw [names_iff hn, Has83, keyOf, shortKey]
  have hsplit : (List.range 11).map e = (List.range 8).map e ++ (List.range 3).map fun k => e (8 + k) := rfl
  have hlength : ((List.range 8).map e).length = ((List.range 8).map n.name).length := by
    rw [List.length_map, List.length_map]
  have happend : (List.range 8).map e ++ ((List.range 3).map fun k => e (8 + k)) =
      (List.range 8).map n.name ++ (List.range 3).map n.ext ↔
      (List.range 8).map e = (List.range 8).map n.name ∧
        ((List.range 3).map fun k => e (8 + k)) = (List.range 3).map n.ext :=
    ⟨fun h => List.append_inj h hlength, fun ⟨h₁, h₂⟩ => by rw [h₁, h₂]⟩
  rw [hsplit, happend, List.map_inj_left, List.map_inj_left]
  simp only [List.mem_range]

theorem isNamed_iff : e.isNamed = true ↔ 0 ∉ keyOf e := by
  simp only [Fat16Entry.isNamed, List.all_eq_true, List.mem_range, bne_iff_ne, keyOf, List.mem_map, not_exists,
    not_and]

theorem sameName_iff : sameName e f ↔ keyOf e = keyOf f := by
  rw [keyOf, keyOf, List.map_inj_left]
  simp only [List.mem_range, sameName]

theorem shortKey_nonzero (hn : ∀ i, n.name i ≠ 0 ∧ n.ext i ≠ 0) : 0 ∉ shortKey n := by
  rw [shortKey, List.mem_append, List.mem_map, List.mem_map]
  rintro (⟨i, -, hi⟩ | ⟨i, -, hi⟩)
  · exact (hn i).1 hi
  · exact (hn i).2 hi

structure Listed (v : Volume) (d : Disk) (key out : List UInt8) (e : Fat16Entry) (cs : List Nat) :
    Prop where
  mem : e ∈ live (rootSlots v d)
  regular : e.isRegular = true
  nonzero : 0 ∉ key
  key : keyOf e = key
  chain : Chain v d e.startCluster cs
  bytes : chainBytes v d cs = out

theorem find_key (wf : WellFormed v d) (he : e ∈ live (rootSlots v d)) (hk : 0 ∉ keyOf e) :
    (live (rootSlots v d)).find? (fun f => decide (keyOf f = keyOf e)) = some e := by
  refine find?_unique (wf.names.imp fun {a b} hab hboth => ?_) he (decide_eq_true rfl)
  have ha := of_decide_eq_true hboth.1
  have hb := of_decide_eq_true hboth.2
  exact hab (isNamed_iff.mpr (ha ▸ hk)) (sameName_iff.mpr (ha.trans hb.symm))

theorem catalogue_iff (wf : WellFormed v d) :
    catalogue v d key = some out ↔ ∃ e cs, Listed v d key out e cs := by
  constructor
  · intro h
    by_cases hk : 0 ∈ key
    · exact absurd ((if_pos hk).symm.trans h) (by simp)
    · replace h := (if_neg hk).symm.trans h
      obtain ⟨e, he, hread⟩ := Option.bind_eq_some_iff.mp h
      have hmem := List.mem_of_find?_eq_some he
      have hfound := List.find?_some he
      have hkey : keyOf e = key := of_decide_eq_true hfound
      split at hread
      · next hfile =>
        have hnamed := isNamed_iff.mpr (hkey ▸ hk)
        rcases (wf.entries e hmem hnamed).chain with ⟨h0, -⟩ | ⟨cs, hcs, -⟩
        · exact absurd h0 hfile.2
        · rw [hcs.readFile] at hread
          exact ⟨e, cs, hmem, hfile.1, hk, hkey, hcs, Option.some.inj hread⟩
      · cases hread
  · rintro ⟨e, cs, h⟩
    have hstart : e.startCluster ≠ 0 := Nat.ne_of_gt (Nat.lt_of_lt_of_le (by decide) h.chain.start.ge)
    have hk := h.nonzero
    rw [← h.key] at hk
    rw [catalogue, if_neg h.nonzero, ← h.key, find_key wf h.mem hk, Option.bind_some,
      if_pos ⟨h.regular, hstart⟩, h.chain.readFile, h.bytes]

/-! ### A file is created -/

theorem pairwise_insert {α : Type*} {R : α → α → Prop} {xs ys : List α} {a : α} (h : (xs ++ ys).Pairwise R)
    (hl : ∀ b ∈ xs, R b a) (hr : ∀ b ∈ ys, R a b) : (xs ++ a :: ys).Pairwise R := by
  obtain ⟨hxs, hys, hcross⟩ := List.pairwise_append.mp h
  refine List.pairwise_append.mpr ⟨hxs, List.pairwise_cons.mpr ⟨hr, hys⟩, fun b hb z hz => ?_⟩
  rcases List.mem_cons.mp hz with rfl | hz
  · exact hl b hb
  · exact hcross b hb z hz

/-- The chains there were stay, with their bytes, and do not go through the new cluster. -/
theorem created_keeps (h : Created v d n c data size d') (hc : Chain v d x cs) :
    Chain v d' x cs ∧ chainBytes v d' cs = chainBytes v d cs ∧ c ∉ cs := by
  have hnew : c ∉ cs := fun hmem => hc.nonzero c hmem h.free
  have hne : ∀ y ∈ cs, y ≠ c := fun y hy hyc => hnew (hyc ▸ hy)
  refine ⟨hc.congr fun y hy => ?_, ?_, hnew⟩
  · rw [h.fat y (hc.valid y hy).inFat, if_neg (hne y hy)]
  · exact chainBytes_congr hc.valid fun y hy => h.others y (hc.valid y hy) (hne y hy)

theorem created_back (h : Created v d n c data size d') (he : EntryOk v d e)
    (hc : Chain v d' e.startCluster cs) : Chain v d e.startCluster cs := by
  rcases he.chain with ⟨h0, -⟩ | ⟨cs', hcs', -⟩
  · have hge := hc.start.ge
    omega
  · rw [hc.unique (created_keeps h hcs').1]
    exact hcs'

theorem created_insert (h : Created v d n c data size d') (hz : ZeroTail (rootSlots v d))
    (hslot : (freeSlot v d).isSome = true) (h0 : n.name 0 ≠ 0) (hdel : n.name 0 ≠ deleted) :
    ∃ pre rest, live (rootSlots v d) = pre ++ rest ∧
      live (rootSlots v d') = pre ++ newEntry n c size :: rest ∧ ZeroTail (rootSlots v d') := by
  obtain ⟨s, hs⟩ := Option.isSome_iff_exists.mp hslot
  have hroot := h.root
  rw [hs] at hroot
  obtain ⟨-, x, post, hx, hsplit, hset⟩ := findIdx?_split hs
  have hused : isFreeSlot (newEntry n c size) = false := by
    rw [← Bool.not_eq_true, isFreeSlot_iff, newEntry_first]
    exact not_or.mpr ⟨h0, hdel⟩
  have hpre : ∀ f ∈ (rootSlots v d).takeWhile fun f => !isFreeSlot f, isFreeSlot f = false :=
    fun f hf => mem_taken hf
  have hset' := hroot.trans (hset (newEntry n c size))
  generalize (rootSlots v d).takeWhile (fun f => !isFreeSlot f) = pre at *
  rw [hsplit] at hz
  refine ⟨pre, listed post, ?_, ?_, ?_⟩
  · rw [hsplit, live_eq, listed_live hpre, listed_free hx (List.pairwise_append.mp hz).2.1]
  · rw [hset', live_eq, listed_live hpre, listed_used hused]
  · rw [hset']
    exact hz.set hpre (newEntry_first.symm ▸ h0)

theorem newEntry_regular : (newEntry n c size).isRegular = true := by
  have hattr : (newEntry n c size).attributes = 0x20 := rfl
  rw [Fat16Entry.isRegular, hattr]
  rfl

theorem created_chain (h : Created v d n c data size d') :
    Chain v d' (newEntry n c size).startCluster [c] := by
  rw [newEntry_startCluster h.cluster.lt16]
  exact .last h.cluster (by rw [h.fat c h.cluster.inFat, if_pos rfl])

theorem created_ok (h : Created v d n c data size d') (wf : WellFormed v d) (hsize : size ≤ v.clusterBytes)
    (hsize32 : size < 4294967296) : EntryOk v d' (newEntry n c size) := by
  refine ⟨.inr ⟨[c], created_chain h, fun _ => ?_⟩, fun hirregular => ?_⟩
  · have hpos := wf.clusterBytes_pos
    have hone : clustersFor v size < 2 := Nat.div_lt_of_lt_mul (by omega)
    rw [newEntry_fileSize hsize32, List.length_singleton]
    omega
  · rw [newEntry_regular] at hirregular
    cases hirregular

/-- A name that is not there yet is not the name of an entry. -/
theorem find_none (hn : ∀ i, n.name i ≠ 0 ∧ n.ext i ≠ 0)
    (h : (live (rootSlots v d)).find? n.names = none) :
    ∀ e ∈ live (rootSlots v d), keyOf e ≠ shortKey n :=
  fun e he hk => List.find?_eq_none.mp h e he ((key_names hn).mp hk)

theorem created_sound (h : Created v d n c data size d') (hs : Sound v d)
    (hn : ∀ i, n.name i ≠ 0 ∧ n.ext i ≠ 0) (hdel : n.name 0 ≠ deleted) (hslash : n.name 0 ≠ slash)
    (hnone : (live (rootSlots v d)).find? n.names = none) (hslot : (freeSlot v d).isSome = true)
    (hsize : size ≤ v.clusterBytes) (hsize32 : size < 4294967296) : Sound v d' := by
  obtain ⟨pre, rest, hlive, hlive', hz⟩ := created_insert h hs.tail hslot (hn 0).1 hdel
  have hkeys := find_none hn hnone
  have hkey : keyOf (newEntry n c size) = shortKey n := (key_names hn).mpr (newEntry_named hn)
  have hok : ∀ e ∈ pre ++ rest, e.isNamed = true → EntryOk v d e := hlive ▸ hs.wf.entries
  have hnew : ∀ e ∈ pre ++ rest, ¬sameName e (newEntry n c size) := fun e he hsame =>
    hkeys e (hlive ▸ he) ((sameName_iff.mp hsame).trans hkey)
  have hleft : ∀ {e}, e ∈ pre → e ∈ pre ++ rest := List.mem_append_left rest
  have hright : ∀ {e}, e ∈ rest → e ∈ pre ++ rest := List.mem_append_right pre
  have hmem : ∀ {e}, e ∈ pre ++ newEntry n c size :: rest → e = newEntry n c size ∨ e ∈ pre ++ rest :=
    fun he => by
      rcases List.mem_append.mp he with he | he
      · exact .inr (hleft he)
      · exact (List.mem_cons.mp he).imp_right hright
  have hapart : ∀ e ∈ pre ++ rest, ∀ cs cs', e.isNamed = true → Chain v d' e.startCluster cs →
      Chain v d' (newEntry n c size).startCluster cs' → cs.Disjoint cs' :=
      fun e he cs cs' hnamed hcs hcs' => by
    rw [hcs'.unique (created_chain h)]
    have hout := (created_keeps h (created_back h (hok e he hnamed) hcs)).2.2
    exact List.disjoint_singleton.mpr hout
  refine ⟨⟨hs.wf.bytes, hs.wf.spc, hs.wf.fats, hs.wf.fat, ?_, ?_, ?_, ?_⟩, hz, ?_⟩
  · rw [h.fat 0 hs.wf.fat, if_neg (Nat.ne_of_lt (Nat.lt_of_lt_of_le (by decide) h.cluster.ge))]
    exact hs.wf.media
  · rw [hlive']
    intro e he hnamed
    rcases hmem he with rfl | he
    · exact created_ok h hs.wf hsize hsize32
    · obtain ⟨hchain, hirregular⟩ := hok e he hnamed
      exact ⟨hchain.imp id fun ⟨cs, hcs, hlen⟩ => ⟨cs, (created_keeps h hcs).1, hlen⟩, hirregular⟩
  · rw [hlive']
    refine pairwise_insert (hlive ▸ hs.wf.names) (fun e he _ => hnew e (hleft he)) fun e he _ hsame => ?_
    exact hnew e (hright he) (sameName_iff.mpr (sameName_iff.mp hsame).symm)
  · rw [hlive']
    intro e he
    rcases hmem he with rfl | he
    · rw [newEntry_first]
      exact hslash
    · exact hs.wf.noRoot e (hlive ▸ he)
  · rw [hlive']
    refine pairwise_insert ?_ ?_ ?_
    · refine (hlive ▸ hs.apart).imp_of_mem fun {e f} he hf hef cs cs' hne hnf hcs hcs' => ?_
      exact hef cs cs' hne hnf (created_back h (hok e he hne) hcs) (created_back h (hok f hf hnf) hcs')
    · exact fun e he cs cs' hne _ hcs hcs' => hapart e (hleft he) cs cs' hne hcs hcs'
    · exact fun e he cs cs' _ hne hcs hcs' => fun _ hx hx' =>
        hapart e (hright he) cs' cs hne hcs' hcs hx' hx

theorem created_catalogue (h : Created v d n c data size d') (hs : Sound v d) (hs' : Sound v d')
    (hn : ∀ i, n.name i ≠ 0 ∧ n.ext i ≠ 0) (hdel : n.name 0 ≠ deleted)
    (hnone : (live (rootSlots v d)).find? n.names = none) (hslot : (freeSlot v d).isSome = true) :
    Files.catalogue v d' = fun key => if key = shortKey n then
      some ((List.range v.clusterBytes).map fun k => if k < size then data k else 0)
      else Files.catalogue v d key := by
  obtain ⟨pre, rest, hlive, hlive', -⟩ := created_insert h hs.tail hslot (hn 0).1 hdel
  have hkeys := find_none hn hnone
  have hkey : keyOf (newEntry n c size) = shortKey n := (key_names hn).mpr (newEntry_named hn)
  have hbytes : chainBytes v d' [c] =
      (List.range v.clusterBytes).map fun k => if k < size then data k else 0 := by
    rw [chainBytes, List.flatMap_singleton, h.data]
  have hmem : newEntry n c size ∈ live (rootSlots v d') := by
    rw [hlive']
    exact List.mem_append_right pre List.mem_cons_self
  have hold : ∀ e ∈ live (rootSlots v d), e ∈ live (rootSlots v d') := fun e he => by
    rw [hlive']
    rw [hlive] at he
    exact (List.mem_append.mp he).elim (List.mem_append_left _) fun he =>
      List.mem_append_right pre (List.mem_cons_of_mem _ he)
  funext key
  refine Option.ext fun out => ?_
  rw [catalogue_iff hs'.wf]
  by_cases hk : key = shortKey n
  · rw [if_pos hk]
    constructor
    · rintro ⟨e, cs, he⟩
      have hfound := find_key hs'.wf he.mem (he.key ▸ he.nonzero)
      have hnew := find_key hs'.wf hmem (hkey ▸ shortKey_nonzero hn)
      rw [he.key, hk, ← hkey, hnew] at hfound
      obtain rfl := Option.some.inj hfound
      rw [← he.bytes, he.chain.unique (created_chain h), hbytes]
    · intro hout
      have hout' := Option.some.inj hout
      exact ⟨_, [c], hmem, newEntry_regular, hk ▸ shortKey_nonzero hn, hkey.trans hk.symm,
        created_chain h, hbytes.trans hout'⟩
  · rw [if_neg hk, catalogue_iff hs.wf]
    constructor
    · rintro ⟨e, cs, he⟩
      have hmem' := he.mem
      rw [hlive'] at hmem'
      have hin : e ∈ live (rootSlots v d) := by
        rw [hlive]
        rcases List.mem_append.mp hmem' with hin | hin
        · exact List.mem_append_left _ hin
        · rcases List.mem_cons.mp hin with rfl | hin
          · exact absurd (he.key.symm.trans hkey) hk
          · exact List.mem_append_right _ hin
      have hnamed := isNamed_iff.mpr (he.key ▸ he.nonzero)
      have hback := created_back h (hs.wf.entries e hin hnamed) he.chain
      exact ⟨e, cs, hin, he.regular, he.nonzero, he.key, hback,
        (created_keeps h hback).2.1.symm.trans he.bytes⟩
    · rintro ⟨e, cs, he⟩
      obtain ⟨hchain, hsame, -⟩ := created_keeps h he.chain
      exact ⟨e, cs, hold e he.mem, he.regular, he.nonzero, he.key, hchain, hsame.trans he.bytes⟩

/-! ### A file is written to -/

theorem written_low (hc : ValidCluster v c) (hw : ClusterWritten v (v.clusterLba c) size data d d') :
    ∀ l < v.dataStartLba, d' l = d l := fun l hl => hw.others l fun i _ => by
  have hge := v.clusterLba_ge hc.ge hc.lt16
  omega

theorem written_chain (wf : WellFormed v d) (hlow : ∀ l < v.dataStartLba, d' l = d l) :
    Chain v d' x cs ↔ Chain v d x cs := by
  have hr := rootDirStartLba_le v
  have hfat : ∀ {y}, y / 256 < v.sectorsPerFat → fatEntry v d' y = fatEntry v d y := fun hy =>
    fatEntry_congr wf.fats hy fun l hl => hlow l (by omega)
  constructor
  · exact fun h => h.congr fun y hy => (hfat (h.valid y hy).inFat).symm
  · exact fun h => h.congr fun y hy => hfat (h.valid y hy).inFat

theorem written_sound (hs : Sound v d) (hlow : ∀ l < v.dataStartLba, d' l = d l) : Sound v d' := by
  have hroot : rootSlots v d' = rootSlots v d := rootSlots_congr fun l _ hl => hlow l hl
  refine ⟨hs.wf.frame hlow, hroot ▸ hs.tail, ?_⟩
  rw [hroot]
  refine hs.apart.imp fun {e f} hef cs cs' hne hnf hcs hcs' => ?_
  exact hef cs cs' hne hnf ((written_chain hs.wf hlow).mp hcs) ((written_chain hs.wf hlow).mp hcs')

theorem apart_of_ne (hs : Sound v d) (he : e ∈ live (rootSlots v d)) (hf : f ∈ live (rootSlots v d))
    (hne : e ≠ f) : Apart v d e f := by
  have hsym : Std.Symm (Apart v d) :=
    ⟨fun _ _ h cs cs' hne hnf hcs hcs' _ hx hx' => h cs' cs hnf hne hcs' hcs hx' hx⟩
  exact hs.apart.forall he hf hne

/-- The first cluster of the file is rewritten, the other files stay. -/
theorem written_catalogue (hs : Sound v d) {old : List UInt8} (he : Listed v d key old e cs)
    (hw : ClusterWritten v (v.clusterLba e.startCluster) size data d d') :
    catalogue v d' = fun k => if k = key then
      some (((List.range v.clusterBytes).map fun k => if k < size then data k else 0) ++
        old.drop v.clusterBytes)
      else catalogue v d k := by
  have hlow := written_low he.chain.start hw
  have hroot : rootSlots v d' = rootSlots v d := rootSlots_congr fun l _ hl => hlow l hl
  have hs' := written_sound hs hlow
  have hbytes : chainBytes v d' cs =
      ((List.range v.clusterBytes).map fun k => if k < size then data k else 0) ++
        old.drop v.clusterBytes := by
    refine List.ext_getElem? fun k => ?_
    rw [chainBytes_written he.chain hw, he.bytes, List.getElem?_append, List.length_map, List.length_range]
    by_cases hk : k < v.clusterBytes
    · rw [if_pos hk, if_pos hk, List.getElem?_map, List.getElem?_range hk, Option.map_some]
    · rw [if_neg hk, if_neg hk, List.getElem?_drop, Nat.add_sub_cancel' (Nat.le_of_not_lt hk)]
  have hself : Listed v d' key (chainBytes v d' cs) e cs :=
    ⟨hroot ▸ he.mem, he.regular, he.nonzero, he.key, (written_chain hs.wf hlow).mpr he.chain, rfl⟩
  funext k
  by_cases hk : k = key
  · rw [if_pos hk, hk, ← hbytes]
    exact (catalogue_iff hs'.wf).mpr ⟨e, cs, hself⟩
  · rw [if_neg hk]
    refine Option.ext fun out => ?_
    rw [catalogue_iff hs'.wf, catalogue_iff hs.wf]
    refine exists_congr fun f => exists_congr fun cs' => ?_
    have hsame : f ∈ live (rootSlots v d) → keyOf f = k → 0 ∉ k → Chain v d f.startCluster cs' →
        chainBytes v d' cs' = chainBytes v d cs' := fun hf hfk hk0 hcs' => by
      have hne : e ≠ f := fun hef => hk (hfk.symm.trans (hef ▸ he.key))
      have hdisj := apart_of_ne hs he.mem hf hne cs cs' (isNamed_iff.mpr (he.key ▸ he.nonzero))
        (isNamed_iff.mpr (hfk ▸ hk0)) he.chain hcs'
      refine chainBytes_congr hcs'.valid fun y hy i hi => hw.others _ fun i' hi' heq => ?_
      have hy' := hcs'.valid y hy
      have hstart := he.chain.start
      have hye := (v.clusterLba_apart hy'.ge hy'.lt16 hstart.ge hstart.lt16 hi hi' heq).1
      obtain ⟨rest, hrest⟩ := he.chain.head
      exact hdisj (hrest ▸ List.mem_cons_self : e.startCluster ∈ cs) (hye ▸ hy)
    constructor
    · intro h
      have hmem : f ∈ live (rootSlots v d) := hroot ▸ h.mem
      have hchain := (written_chain hs.wf hlow).mp h.chain
      exact ⟨hmem, h.regular, h.nonzero, h.key, hchain,
        (hsame hmem h.key h.nonzero hchain).symm.trans h.bytes⟩
    · intro h
      exact ⟨hroot ▸ h.mem, h.regular, h.nonzero, h.key, (written_chain hs.wf hlow).mpr h.chain,
        (hsame h.mem h.key h.nonzero h.chain).trans h.bytes⟩

/-! ### touch on the catalogue -/

theorem close_disk (i : Nat) (s : FileState) : (handleSyscallClose i s).disk = s.disk := by
  unfold handleSyscallClose
  dsimp only
  split <;> rfl

theorem close_slot {i : Nat} (h2 : 2 ≤ i) (hi : i < maxFds) (s : FileState) :
    (closedSlot (handleSyscallClose i s).fds).isSome = true := by
  have hclosed : ((handleSyscallClose i s).fds.getD i closedFd).isOpen = false := by
    unfold handleSyscallClose
    dsimp only
    split
    · assumption
    · rw [FileState.setFd_self s hi]
  rw [closedSlot, List.find?_isSome]
  refine ⟨i, List.mem_range'_1.mpr ⟨h2, by unfold maxFds at *; omega⟩, ?_⟩
  rw [hclosed]
  rfl

theorem isFile_of_find (hs : Sound v d) (hn : fat16FormatName name = some n)
    (hfind : (live (rootSlots v d)).find? n.names = some e)
    (hfile : e.isRegular = true ∧ e.startCluster ≠ 0) :
    ∃ cs, IsFile v d name e cs ∧ Listed v d (shortKey n) (chainBytes v d cs) e cs := by
  have hmem := List.mem_of_find?_eq_some hfind
  have hnames := List.find?_some hfind
  have hne := formatName_ne_zero hn
  rcases (hs.wf.entries e hmem (names_isNamed hnames)).chain with ⟨h0, -⟩ | ⟨cs, hcs, -⟩
  · exact absurd h0 hfile.2
  · exact ⟨cs, ⟨hmem, hfile.1, hcs, n, hn, hnames⟩,
      ⟨hmem, hfile.1, shortKey_nonzero hne, (key_names hne).mpr hnames, hcs, rfl⟩⟩

theorem record_eq (hname : (touchName t.arg).chars ≠ []) (hn : fat16FormatName (touchName t.arg) = some n)
    (m : Catalogue) : record v m t = fun k => if k = shortKey n then
      some (touched v (touchContent t.arg) (m (shortKey n))) else m k := by
  funext k
  rw [record, hn, Option.map_some]
  by_cases hk : k = shortKey n
  · rw [if_pos ⟨hname, congrArg some hk.symm⟩, if_pos hk, hk]
  · rw [if_neg fun h => hk (Option.some.inj h.2).symm, if_neg hk]

theorem content_cut (content : List UInt8) (size k : Nat) (h : k < size ↔ k < content.length) :
    (if k < size then content.getD k 0 else 0) = content.getD k 0 := by
  by_cases hk : k < size
  · exact if_pos hk
  · have hend : content.length ≤ k := Nat.le_of_not_lt fun hlt => hk (h.mpr hlt)
    rw [if_neg hk, List.getD_eq_getElem?_getD, List.getElem?_eq_none hend, Option.getD_none]

/-- touch of a name that is not there creates the file. -/
theorem touch_new (hs : Sound v s.disk) (hname : (touchName t.arg).chars ≠ [])
    (hn : fat16FormatName (touchName t.arg) = some n) (hdel : n.name 0 ≠ deleted) (hslash : n.name 0 ≠ slash)
    (hnone : (live (rootSlots v s.disk)).find? n.names = none)
    (hsize : (touchContent t.arg).length ≤ v.clusterBytes) (hslot : (freeSlot v s.disk).isSome = true)
    (hlen : (touchContent t.arg).length < 2147483648) (hfree : (freeCluster v s.disk).isSome = true) :
    ∃ d', handleCreate v room s t = some { s with disk := d' } ∧ Sound v d' ∧
      catalogue v d' = record v (catalogue v s.disk) t := by
  have hne := formatName_ne_zero hn
  have hnot : (touchName t.arg).chars ≠ [slash] := fun h => hslash (formatName_slash h hn)
  have hopen : handleSyscallOpen v room t.garbage t.ptr (some (touchName t.arg)) s =
      some (minusOne, s) := by
    simp only [handleSyscallOpen, findFile_eq hnot hn, hnone, Option.bind_eq_bind, Option.bind_some]
    rfl
  obtain ⟨c, hc⟩ := Option.isSome_iff_exists.mp hfree
  obtain ⟨d', hwrite⟩ : ∃ d', fat16WriteFile v (touchName t.arg)
      (fun k => (touchContent t.arg).getD k 0) (touchContent t.arg).length s.disk = some (true, d') :=
    writeFile_served hc hn hlen
  have hlen32 : (touchContent t.arg).length < 4294967296 := Nat.lt_trans hlen (by decide)
  obtain ⟨n', c', hn', hcr⟩ := writeFile_created hs.wf.fats hs.wf.spc_pos hlen32 hwrite
  obtain rfl : n = n' := Option.some.inj (hn.symm.trans hn')
  have hs' := created_sound hcr hs hne hdel hslash hnone hslot hsize hlen32
  refine ⟨d', ?_, hs', ?_⟩
  · simp only [handleCreate, if_neg hname, hopen, Option.bind_eq_bind, Option.bind_some, if_pos, hwrite]
    rfl
  · have hold : catalogue v s.disk (shortKey n) = none := by
      cases hcat : catalogue v s.disk (shortKey n) with
      | none => rfl
      | some out =>
        obtain ⟨e, cs, he⟩ := (catalogue_iff hs.wf).mp hcat
        exact absurd he.key (find_none hne hnone e he.mem)
    rw [created_catalogue hcr hs hs' hne hdel hnone hslot, record_eq hname hn, hold]
    funext key
    by_cases hk : key = shortKey n
    · rw [if_pos hk, if_pos hk, touched, Option.getD_none, List.drop_nil, List.append_nil]
      exact congrArg some (List.map_congr_left fun k _ => content_cut _ _ k Iff.rfl)
    · rw [if_neg hk, if_neg hk]

theorem touch_old (hs : Sound v s.disk) (hname : (touchName t.arg).chars ≠ [])
    (hn : fat16FormatName (touchName t.arg) = some n) (hlen : (touchContent t.arg).length < 2147483648)
    (hfind : (live (rootSlots v s.disk)).find? n.names = some e)
    (hfile : e.isRegular = true ∧ e.startCluster ≠ 0) (hfits : e.fileSize + v.clusterBytes < heapSize)
    (hroom : room.serves (e.fileSize + v.clusterBytes) = true) (hfds : (closedSlot s.fds).isSome = true) :
    ∃ s', handleCreate v room s t = some s' ∧ Sound v s'.disk ∧
      catalogue v s'.disk = record v (catalogue v s.disk) t ∧ (closedSlot s'.fds).isSome = true := by
  obtain ⟨cs, his, hlisted⟩ := isFile_of_find hs hn hfind hfile
  obtain ⟨i, hi⟩ := Option.isSome_iff_exists.mp hfds
  obtain ⟨h2, hmax⟩ := closedSlot_spec hi
  have hcap := (clustersFor_le v e.fileSize hs.wf.clusterBytes_pos).2
  rw [← his.length hs.wf] at hcap
  have hheap : heapSize = 3145728 := by decide
  have hsize : bufferSize v e = e.fileSize + v.clusterBytes := by
    rw [bufferSize, regular_file hfile.1, if_neg Bool.false_ne_true]
    exact wrap_eq (by omega)
  have hentry : openEntry v s.disk room e = some ⟨chainBytes v s.disk cs, (chainBytes v s.disk cs).length,
      e.attributes, e.startCluster⟩ := by
    rw [openEntry, readEntry, regular_file hfile.1, if_neg Bool.false_ne_true, his.chain.readFile,
      Option.bind_some, hsize, if_pos]
    rw [Bool.and_eq_true, decide_eq_true_iff, chainBytes_length]
    exact ⟨hroom, hcap⟩
  obtain ⟨s₁, hopen⟩ : ∃ s₁, handleSyscallOpen v room t.garbage t.ptr (some (touchName t.arg)) s =
      some (i, s₁) := by
    simp only [handleSyscallOpen, his.found hs.wf t.garbage, Option.bind_eq_bind, Option.bind_some,
      hentry, hi]
    exact ⟨_, rfl⟩
  have hj : i ≠ minusOne := by
    unfold minusOne maxFds at *
    omega
  obtain ⟨-, -, -, hdisk, -, -⟩ := open_spec (his.found hs.wf t.garbage) hopen hj
  have ho := open_openFile hs.wf his hopen hj
  obtain ⟨s₂, hwrite⟩ := ho.writes hlen (by omega) fun k => (touchContent t.arg).getD k 0
  rw [← hdisk] at hs his hlisted
  obtain ⟨-, hw, -⟩ := writeFd_spec hs.wf his ho hlen hwrite
  have hlow := written_low his.chain.start hw
  have hclosed := close_disk i s₂
  refine ⟨handleSyscallClose i s₂, ?_, ?_, ?_, close_slot h2 hmax s₂⟩
  · simp only [handleCreate, if_neg hname, hopen, Option.bind_eq_bind, Option.bind_some, if_neg hj, hwrite]
    rfl
  · rw [hclosed]
    exact written_sound hs hlow
  · have hold := (catalogue_iff hs.wf).mpr ⟨e, cs, hlisted⟩
    have hone : v.clusterBytes ≤ cs.length * v.clusterBytes := by
      obtain ⟨rest, hrest⟩ := his.chain.head
      rw [hrest, List.length_cons]
      exact Nat.le_mul_of_pos_left _ (Nat.succ_pos _)
    rw [hclosed, written_catalogue hs hlisted hw, ← hdisk, record_eq hname hn, hold]
    funext key
    by_cases hk : key = shortKey n
    · rw [if_pos hk, if_pos hk, touched, Option.getD_some]
      refine congrArg (fun xs => some (xs ++ _)) (List.map_congr_left fun k hk' => content_cut _ _ k ?_)
      have hlt := List.mem_range.mp hk'
      omega
    · rw [if_neg hk, if_neg hk]

theorem touch_step (hs : Sound v s.disk) (hfds : (closedSlot s.fds).isSome = true)
    (h : Touchable v room s t) :
    ∃ s', handleCreate v room s t = some s' ∧ Sound v s'.disk ∧
      catalogue v s'.disk = record v (catalogue v s.disk) t ∧ (closedSlot s'.fds).isSome = true := by
  by_cases hname : (touchName t.arg).chars = []
  · refine ⟨s, if_pos hname, hs, ?_, hfds⟩
    funext key
    rw [record, if_neg fun hboth => hboth.1 hname]
  · obtain ⟨hformat, hlen, hall⟩ := h hname
    obtain ⟨n, hn⟩ := Option.isSome_iff_exists.mp hformat
    obtain ⟨hdel, hslash, hthere, hmissing⟩ := hall n hn
    cases hfind : (live (rootSlots v s.disk)).find? n.names with
    | some e =>
      obtain ⟨hfile, hfits, hroom⟩ := hthere e hfind
      exact touch_old hs hname hn hlen hfind hfile hfits hroom hfds
    | none =>
      have hnone := hfind
      obtain ⟨hsize, hslot, hfree⟩ := hmissing (Option.isNone_iff_eq_none.mpr hnone)
      obtain ⟨d', hd', hs', hcat⟩ : ∃ d', handleCreate v room s t = some { s with disk := d' } ∧
          Sound v d' ∧ catalogue v d' = record v (catalogue v s.disk) t :=
        touch_new hs hname hn hdel hslash hnone hsize hslot hlen hfree
      exact ⟨_, hd', hs', hcat, hfds⟩

end

/-- After any sequence of touch commands each file reads as the last of them left it, whichever files were
created and written to in between. -/
theorem touches_recorded {v : Volume} {room : Room} {s : FileState} (ts : List Touch) (hs : Sound v s.disk)
    (hfds : (closedSlot s.fds).isSome = true) (hg : Guarded (handleCreate v room) (Touchable v room) ts s) :
    ∃ s', run (handleCreate v room) ts s = some s' ∧ Sound v s'.disk ∧
      catalogue v s'.disk = ts.foldl (record v) (catalogue v s.disk) ∧
      ∀ name n out, fat16FormatName name = some n → catalogue v s'.disk (shortKey n) = some out →
        ReadsBack v s'.disk name out := by
  induction ts generalizing s with
  | nil =>
    refine ⟨s, rfl, hs, rfl, fun name n out hn hout => ?_⟩
    obtain ⟨e, cs, he⟩ := (catalogue_iff hs.wf).mp hout
    have his : IsFile v s.disk name e cs :=
      ⟨he.mem, he.regular, he.chain, n, hn, (key_names (formatName_ne_zero hn)).mp he.key⟩
    rintro s₀ room garbage ptr j s' hdisk hopen hj
    rw [← hdisk] at his he hs
    obtain ⟨f, hf, hat⟩ := open_openAt (his.found hs.wf garbage) hopen hj
    rw [his.opened hf, he.bytes] at hat
    exact hat.delivers_iff.mpr rfl
  | cons t ts ih =>
    obtain ⟨s₁, hrun, hs₁, hcat, hfds₁⟩ := touch_step hs hfds hg.1
    obtain ⟨s', hrest, hs', hcat', hback⟩ := ih hs₁ hfds₁ (hg.2 s₁ hrun)
    exact ⟨s', Option.bind_eq_some_iff.mpr ⟨s₁, hrun, hrest⟩, hs', hcat'.trans (by rw [hcat]; rfl), hback⟩

theorem emptyDisk_sound : Sound sampleVolume emptyDisk := by
  have hslots : ∀ f ∈ rootSlots sampleVolume emptyDisk, f 0 = 0 := by decide +kernel
  refine ⟨emptyDisk_wellFormed, List.pairwise_of_forall_mem_list fun _ _ f hf _ => hslots f hf, ?_⟩
  rw [emptyDisk_live]
  exact .nil

/- "a hi", "b", "a o" -/
def sampleTouches : List Touch :=
  [⟨⟨[97, 32, 104, 105], noNul_of_all rfl⟩, fun _ => 0, 4⟩,
    ⟨⟨[98], noNul_of_all rfl⟩, fun _ => 0, 8⟩,
    ⟨⟨[97, 32, 111], noNul_of_all rfl⟩, fun _ => 0, 4⟩]

theorem sampleTouches_recorded : ∃ s', run (handleCreate sampleVolume wholeHeap) sampleTouches
      (freshState emptyDisk) = some s' ∧ Sound sampleVolume s'.disk ∧
    catalogue sampleVolume s'.disk =
      sampleTouches.foldl (record sampleVolume) (catalogue sampleVolume (freshState emptyDisk).disk) ∧
    ∀ name n out, fat16FormatName name = some n →
      catalogue sampleVolume s'.disk (shortKey n) = some out → ReadsBack sampleVolume s'.disk name out :=
  touches_recorded sampleTouches emptyDisk_sound (by decide) (by decide +kernel)

end AdamOS.Files
