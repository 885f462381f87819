import AdamOS.Files.FormatName
import AdamOS.Files.Listing

/-! shell.c: the names that ls prints, and whether fat16_format_name reads them back. -/
namespace AdamOS.Shell
open AdamOS.Fat16

def newline : UInt8 := 10

/- -1 is none. -/
def strfind (delim : UInt8) : List UInt8 → Option Nat
  | [] => none
  | c :: cs => if c = 0 then none else if c = delim then some 0 else (strfind delim cs).map (· + 1)

/- `mem` is what memory holds from the entry on: the search for a space goes on behind a field. -/
def lsName (mem : List UInt8) : List UInt8 := mem.take ((strfind space mem).getD 8)

def lsExtension (mem : List UInt8) : List UInt8 :=
  match strfind space (mem.drop 8) with
  | some n => if n > 0 then dot :: (mem.drop 8).take n else []
  | none => []

def lsEntry (mem : List UInt8) : List UInt8 :=
  if mem.head? = some 0 ∨ mem.head? = some deleted then []
  else lsName mem ++ lsExtension mem ++ [newline]

/-! ### Entries with an 8.3 name -/

/- No NUL, space or dot, and no lower-case letter. -/
def nameChar (c : UInt8) : Bool := c != 0 && c != space && c != dot && !(97 ≤ c && c ≤ 122)

/- name and extension are the fields of e, padded with spaces. -/
structure Padded (e : Fat16Entry) (name ext : List UInt8) : Prop where
  nameField : (List.range 8).map e = name ++ List.replicate (8 - name.length) space
  extField : (List.range 3).map (fun i => e (8 + i)) = ext ++ List.replicate (3 - ext.length) space
  nameLength : 1 ≤ name.length ∧ name.length ≤ 8
  extLength : ext.length ≤ 3
  nameChars : ∀ c ∈ name, nameChar c = true
  extChars : ∀ c ∈ ext, nameChar c = true
  live : e 0 ≠ deleted

def typed (name ext : List UInt8) : List UInt8 := name ++ if ext = [] then [] else dot :: ext

/- handle_ls writes the name as it is typed, and typing it gives the fields of the entry. -/
def TypesBack (e : Fat16Entry) (rest name ext : List UInt8) : Prop :=
  lsEntry (entryBytes e ++ rest) = typed name ext ++ [newline] ∧
    ∃ text : CString, lsEntry (entryBytes e ++ rest) = text.chars ++ [newline] ∧
      ∃ n, fat16FormatName text = some n ∧ (∀ i < 8, n.name i = e i) ∧ ∀ i < 3, n.ext i = e (8 + i)

/- The extension is blank, or a space follows the name in its field and the extension, in its field or
   as the attributes. -/
def SpacesFollow (e : Fat16Entry) (name ext : List UInt8) : Prop :=
  ext = [] ∨ (name.length ≤ 7 ∧ (ext.length ≤ 2 ∨ e.attributes = space))

instance (e : Fat16Entry) (name ext : List UInt8) : Decidable (SpacesFollow e name ext) :=
  inferInstanceAs (Decidable (_ ∨ _))

section Search
variable {delim c : UInt8} {xs ys : List UInt8}

theorem strfind_append (h : ∀ x ∈ xs, x ≠ 0 ∧ x ≠ delim) (ys : List UInt8) :
    strfind delim (xs ++ ys) = (strfind delim ys).map (xs.length + ·) := by
  induction xs with
  | nil =>
    cases hs : strfind delim ys with
    | none => exact hs
    | some n => simp [hs]
  | cons x xs ih =>
    obtain ⟨h0, hd⟩ := h x List.mem_cons_self
    rw [List.cons_append, strfind, if_neg h0, if_neg hd,
      ih fun y hy => h y (List.mem_cons_of_mem x hy), Option.map_map]
    refine congrArg (Option.map · _) (funext fun n => ?_)
    rw [Function.comp, List.length_cons]
    omega

theorem strfind_delim (h : delim ≠ 0) (ys : List UInt8) : strfind delim (delim :: ys) = some 0 := by
  rw [strfind, if_neg h, if_pos rfl]

theorem strfind_found (hdelim : delim ≠ 0) (h : ∀ x ∈ xs, x ≠ 0 ∧ x ≠ delim) (ys : List UInt8) :
    strfind delim (xs ++ delim :: ys) = some xs.length := by
  rw [strfind_append h, strfind_delim hdelim]
  rfl

theorem strfind_lt {n : Nat} (h : strfind delim xs = some n) : n < xs.length := by
  induction xs generalizing n with
  | nil => cases h
  | cons x xs ih =>
    rw [strfind] at h
    split at h
    · cases h
    · split at h
      · cases h
        exact Nat.zero_lt_succ _
      · obtain ⟨m, hm, rfl⟩ := Option.map_eq_some_iff.mp h
        exact Nat.succ_lt_succ (ih hm)

/-- Only a delimiter in the first place is found there. -/
theorem strfind_zero_iff (hdelim : delim ≠ 0) : strfind delim (c :: ys) = some 0 ↔ c = delim := by
  rw [strfind]
  split
  · rename_i h0
    refine iff_of_false (fun h => nomatch h) fun h => hdelim (h ▸ h0)
  · split
    · rename_i hd
      exact iff_of_true rfl hd
    · rename_i hd
      refine iff_of_false (fun h => ?_) hd
      obtain ⟨m, _, hm⟩ := Option.map_eq_some_iff.mp h
      cases hm

end Search

theorem nameChar_ne {c : UInt8} (h : nameChar c = true) :
    (c ≠ 0 ∧ c ≠ space) ∧ c ≠ dot ∧ toUpper c = c := by
  simp only [nameChar, Bool.and_eq_true, bne_iff_ne, ne_eq, Bool.not_eq_true', Bool.and_eq_false_iff,
    decide_eq_false_iff_not] at h
  obtain ⟨⟨⟨h0, hs⟩, hd⟩, hlower⟩ := h
  refine ⟨⟨h0, hs⟩, hd, if_neg fun hboth => ?_⟩
  exact hlower.elim (fun h => h hboth.1) fun h => h hboth.2

section Entry
variable {e : Fat16Entry} {name ext : List UInt8}

theorem entryBytes_fields (e : Fat16Entry) (rest : List UInt8) :
    ∃ tail, entryBytes e ++ rest = (List.range 8).map e ++ ((List.range 3).map (fun i => e (8 + i)) ++
      e.attributes :: tail) :=
  ⟨(List.range 20).map (fun i => e (12 + i)) ++ rest, rfl⟩

theorem Padded.ne (h : Padded e name ext) : ∀ c ∈ name, c ≠ 0 ∧ c ≠ space :=
  fun c hc => (nameChar_ne (h.nameChars c hc)).1

theorem Padded.ext_ne (h : Padded e name ext) : ∀ c ∈ ext, c ≠ 0 ∧ c ≠ space :=
  fun c hc => (nameChar_ne (h.extChars c hc)).1

/-- Where the search for the end of the extension ends; `m` is found from the attributes on. -/
theorem Padded.find_ext (h : Padded e name ext) (tail : List UInt8) :
    strfind space ((List.range 3).map (fun i => e (8 + i)) ++ e.attributes :: tail) =
      if ext.length < 3 then some ext.length
      else (strfind space (e.attributes :: tail)).map (3 + ·) := by
  have hlen := h.extLength
  rw [h.extField, List.append_assoc]
  split
  · rename_i hlt
    obtain ⟨k, hk⟩ : ∃ k, 3 - ext.length = k + 1 := ⟨2 - ext.length, by omega⟩
    rw [hk, List.replicate_succ, List.cons_append]
    exact strfind_found (by decide) h.ext_ne _
  · have hfull : ext.length = 3 := by omega
    rw [hfull, Nat.sub_self, List.replicate_zero, List.nil_append, strfind_append h.ext_ne, hfull]

theorem Padded.find_name (h : Padded e name ext) (tail : List UInt8) :
    strfind space ((List.range 8).map e ++ ((List.range 3).map (fun i => e (8 + i)) ++
        e.attributes :: tail)) =
      if name.length < 8 then some name.length
      else (strfind space ((List.range 3).map (fun i => e (8 + i)) ++ e.attributes :: tail)).map (8 + ·) := by
  have hlen := h.nameLength
  rw [h.nameField, List.append_assoc]
  split
  · rename_i hlt
    obtain ⟨k, hk⟩ : ∃ k, 8 - name.length = k + 1 := ⟨7 - name.length, by omega⟩
    rw [hk, List.replicate_succ, List.cons_append]
    exact strfind_found (by decide) h.ne _
  · have hfull : name.length = 8 := by omega
    rw [hfull, Nat.sub_self, List.replicate_zero, List.nil_append, strfind_append h.ne, hfull]

theorem Padded.ext_nil (h : Padded e name ext) (hext : ext = []) (tail : List UInt8) :
    strfind space ((List.range 3).map (fun i => e (8 + i)) ++ e.attributes :: tail) = some 0 := by
  rw [h.find_ext, hext]
  rfl

theorem Padded.take_name (h : Padded e name ext) (tail : List UInt8) :
    ((List.range 8).map e ++ tail).take name.length = name := by
  rw [h.nameField, List.append_assoc, List.take_left]

theorem Padded.take_ext (h : Padded e name ext) (tail : List UInt8) :
    ((List.range 3).map (fun i => e (8 + i)) ++ tail).take ext.length = ext := by
  rw [h.extField, List.append_assoc, List.take_left]

theorem Padded.first (h : Padded e name ext) : e 0 ≠ 0 := by
  obtain ⟨c, cs, hname⟩ := List.exists_cons_of_length_pos h.nameLength.1
  have hfield := h.nameField
  have hc := (h.ne c (hname ▸ List.mem_cons_self)).1
  rw [hname] at hfield
  have hfirst : e 0 = c := (List.cons_eq_cons.mp hfield).1
  exact hfirst ▸ hc

/-- An entry that ls does not skip: its name, its extension and the end of the line. -/
theorem Padded.lsEntry (h : Padded e name ext) (rest : List UInt8) :
    Shell.lsEntry (entryBytes e ++ rest) =
      lsName (entryBytes e ++ rest) ++ lsExtension (entryBytes e ++ rest) ++ [newline] := by
  refine if_neg ?_
  rintro (h0 | hdel)
  · exact h.first (Option.some.inj h0)
  · exact h.live (Option.some.inj hdel)

/-- With a space behind the name and behind the extension each is cut where it ends. -/
theorem Padded.lsText (h : Padded e name ext) (hfit : SpacesFollow e name ext) (rest : List UInt8) :
    lsName (entryBytes e ++ rest) ++ lsExtension (entryBytes e ++ rest) = typed name ext := by
  obtain ⟨tail, hmem⟩ := entryBytes_fields e rest
  have hlen := h.nameLength
  have hdrop : (entryBytes e ++ rest).drop 8 =
      (List.range 3).map (fun i => e (8 + i)) ++ e.attributes :: tail := by
    rw [hmem]
    rfl
  have hname : lsName (entryBytes e ++ rest) = name := by
    have hfind : strfind space (entryBytes e ++ rest) = some name.length := by
      rw [hmem, h.find_name]
      split
      · rfl
      · have hfull : name.length = 8 := by omega
        have hnil : ext = [] := hfit.resolve_right fun hboth => by omega
        rw [h.ext_nil hnil, hfull]
        rfl
    rw [lsName, hfind, hmem]
    exact h.take_name _
  have hext : lsExtension (entryBytes e ++ rest) = if ext = [] then [] else dot :: ext := by
    unfold lsExtension
    rw [hdrop]
    by_cases hnil : ext = []
    · rw [h.ext_nil hnil, if_pos hnil]
      rfl
    · have hpos : ext.length > 0 := List.length_pos_iff.mpr hnil
      have hfind : strfind space ((List.range 3).map (fun i => e (8 + i)) ++ e.attributes :: tail) =
          some ext.length := by
        rw [h.find_ext]
        split
        · rfl
        · have hfull : ext.length = 3 := by
            have := h.extLength
            omega
          have hattr : e.attributes = space :=
            ((hfit.resolve_left hnil).2).resolve_left fun hshort => by omega
          rw [hattr, strfind_delim (by decide), hfull]
          rfl
      rw [hfind, if_neg hnil]
      dsimp only
      rw [if_pos hpos, h.take_ext]
  rw [hname, hext, typed]

/-- Without them more or less than the typed name is written. -/
theorem Padded.lsText_ne (h : Padded e name ext) (hfit : ¬SpacesFollow e name ext) (rest : List UInt8) :
    lsName (entryBytes e ++ rest) ++ lsExtension (entryBytes e ++ rest) ≠ typed name ext := by
  obtain ⟨tail, hmem⟩ := entryBytes_fields e rest
  have hlen := h.nameLength
  have hextlen := h.extLength
  have hlong : 32 ≤ (entryBytes e ++ rest).length := by simp [entryBytes, entrySize]
  have hdrop : (entryBytes e ++ rest).drop 8 =
      (List.range 3).map (fun i => e (8 + i)) ++ e.attributes :: tail := by
    rw [hmem]
    rfl
  obtain ⟨hne, hbad⟩ := not_or.mp hfit
  have hpos : 0 < ext.length := List.length_pos_iff.mpr hne
  have hfindExt := h.find_ext tail
  have hfindName := h.find_name tail
  rw [← hdrop] at hfindExt
  rw [← hmem, ← hdrop] at hfindName
  have hnameLen : (lsName (entryBytes e ++ rest)).length =
      (strfind space (entryBytes e ++ rest)).getD 8 := by
    rw [lsName, List.length_take, Nat.min_eq_left]
    cases hs : strfind space (entryBytes e ++ rest) with
    | none => exact Nat.le_trans (by decide) hlong
    | some n => exact Nat.le_of_lt (strfind_lt hs)
  have hextLen : (lsExtension (entryBytes e ++ rest)).length =
      ((strfind space ((entryBytes e ++ rest).drop 8)).map fun n => if n > 0 then n + 1 else 0).getD 0 := by
    unfold lsExtension
    cases hs : strfind space ((entryBytes e ++ rest).drop 8) with
    | none => rfl
    | some n =>
      have hlt := strfind_lt hs
      rw [Option.map_some, Option.getD_some]
      dsimp only
      split
      · rw [List.length_cons, List.length_take, Nat.min_eq_left (Nat.le_of_lt hlt)]
      · rfl
  have htyped : (typed name ext).length = name.length + (ext.length + 1) := by
    rw [typed, if_neg hne, List.length_append, List.length_cons]
  intro heq
  have htotal := congrArg List.length heq
  rw [List.length_append, hnameLen, hextLen, htyped, hfindName, hfindExt] at htotal
  by_cases hshort : ext.length < 3
  · -- the name fills its field, and the search goes on into the extension
    have hfull : ¬name.length < 8 := fun hlt => hbad ⟨by omega, .inl (by omega)⟩
    rw [if_pos hshort, if_neg hfull, Option.map_some, Option.map_some, Option.getD_some,
      Option.getD_some, if_pos hpos] at htotal
    omega
  · rw [if_neg hshort] at htotal
    cases hs : strfind space (e.attributes :: tail) with
    | none =>
      simp only [hs, Option.map_none, Option.getD_none] at htotal
      split at htotal
      · rw [Option.getD_some] at htotal
        omega
      · rw [Option.getD_none] at htotal
        omega
    | some m =>
      have hlarge : 3 + m > 0 := by omega
      simp only [hs, Option.map_some, Option.getD_some, if_pos hlarge] at htotal
      split at htotal
      · rename_i hlt
        have hzero : m ≠ 0 := fun hm => by
          rw [hm] at hs
          exact hbad ⟨by omega, .inr ((strfind_zero_iff (by decide)).mp hs)⟩
        rw [Option.getD_some] at htotal
        omega
      · rw [Option.getD_some] at htotal
        omega

/-! ### Reading the name back -/

theorem Padded.typed_noNul (h : Padded e name ext) : ∀ c ∈ typed name ext, c ≠ 0 := by
  intro c hc
  rcases List.mem_append.mp hc with hc | hc
  · exact (h.ne c hc).1
  · split at hc
    · cases hc
    · rcases List.mem_cons.mp hc with rfl | hc
      · decide
      · exact (h.ext_ne c hc).1

theorem Padded.components (h : Padded e name ext) :
    component 0 (typed name ext) = name ∧ component 1 (typed name ext) = ext := by
  have hname : dot ∉ name := fun hd => (nameChar_ne (h.nameChars dot hd)).2.1 rfl
  have hext : dot ∉ ext := fun hd => (nameChar_ne (h.extChars dot hd)).2.1 rfl
  have hkeep : (!name.isEmpty) = true := by
    obtain ⟨c, cs, hc⟩ := List.exists_cons_of_length_pos h.nameLength.1
    rw [hc]
    rfl
  unfold component Fat16.components typed
  by_cases hnil : ext = []
  · rw [if_pos hnil, List.append_nil, List.splitOn_eq_singleton hname, List.filter_cons, if_pos hkeep,
      hnil]
    exact ⟨rfl, rfl⟩
  · have hkeepExt : (!ext.isEmpty) = true := by
      cases ext with
      | nil => exact absurd rfl hnil
      | cons => rfl
    rw [if_neg hnil, List.splitOn_append_cons_self_of_not_mem hname, List.splitOn_eq_singleton hext,
      List.filter_cons, if_pos hkeep, List.filter_cons, if_pos hkeepExt]
    exact ⟨rfl, rfl⟩

/-- A field padded from its characters is the field of the entry. -/
theorem padField_field {s : List UInt8} {f : Nat → UInt8} {n i : Nat}
    (hfield : (List.range n).map f = s ++ List.replicate (n - s.length) space)
    (hchars : ∀ c ∈ s, nameChar c = true) (hi : i < n) : padField s i = f i := by
  have hfi : ((List.range n).map f)[i]? = some (f i) := by
    rw [List.getElem?_map, List.getElem?_range hi]
    rfl
  rw [hfield] at hfi
  rcases Nat.lt_or_ge i s.length with hlt | hge
  · rw [List.getElem?_append_left hlt] at hfi
    rw [padField, hfi]
    exact (nameChar_ne (hchars _ (List.mem_of_getElem? hfi))).2.2
  · rw [List.getElem?_append_right hge] at hfi
    rw [padField_past hge]
    have hrep := List.mem_of_getElem? hfi
    exact (List.eq_of_mem_replicate hrep).symm

theorem Padded.reads_back (h : Padded e name ext) :
    ∃ n, fat16FormatName ⟨typed name ext, h.typed_noNul⟩ = some n ∧ (∀ i < 8, n.name i = e i) ∧
      ∀ i < 3, n.ext i = e (8 + i) := by
  obtain ⟨hname, hext⟩ := h.components
  have hlen := h.nameLength
  have hextlen := h.extLength
  have hfits : FitsArrays ⟨typed name ext, h.typed_noNul⟩ := by
    refine ⟨?_, by rw [hname]; exact hlen.2, by rw [hext]; exact hextlen⟩
    have hshort : (if ext = [] then [] else dot :: ext).length ≤ 4 := by
      split
      · exact Nat.zero_le _
      · exact Nat.succ_le_succ hextlen
    change (typed name ext).length < 64
    rw [typed, List.length_append]
    omega
  refine ⟨_, by rw [fat16FormatName_eq, if_pos hfits], fun i hi => ?_, fun i hi => ?_⟩
  · rw [hname]
    exact padField_field h.nameField h.nameChars hi
  · rw [hext]
    exact padField_field h.extField h.extChars hi

end Entry

/-- Whatever follows the entry in memory, ls writes its name as it is typed and the name reads back as
the fields of the entry, if and only if the extension is blank, or spaces follow name and extension. -/
theorem ls_types_back_iff {e : Fat16Entry} {name ext : List UInt8} (h : Padded e name ext)
    (rest : List UInt8) : TypesBack e rest name ext ↔ SpacesFollow e name ext := by
  rw [TypesBack, h.lsEntry]
  constructor
  · rintro ⟨htext, _⟩
    refine Decidable.byContradiction fun hno => h.lsText_ne hno rest ?_
    exact List.append_cancel_right htext
  · intro hfit
    have htext := h.lsText hfit rest
    rw [htext]
    exact ⟨rfl, ⟨typed name ext, h.typed_noNul⟩, rfl, h.reads_back⟩

def sampleEntry (name ext : List UInt8) (attributes : UInt8) : Fat16Entry := fun i =>
  (name ++ List.replicate (8 - name.length) space ++ ext ++ List.replicate (3 - ext.length) space ++
    [attributes]).getD i 0

/-- "README.TXT" with the archive attribute, which is a space. -/
theorem readme_types_back : TypesBack (sampleEntry [82, 69, 65, 68, 77, 69] [84, 88, 84] 0x20) []
    [82, 69, 65, 68, 77, 69] [84, 88, 84] :=
  (ls_types_back_iff ⟨by decide, by decide, by decide, by decide, List.all_eq_true.mp rfl,
    List.all_eq_true.mp rfl, by decide⟩ []).mpr (by decide)

/-- "README.TXT" without attributes is written as "README". -/
theorem extension_not_written : ¬ ∀ (e : Fat16Entry) (rest name ext : List UInt8), Padded e name ext →
    TypesBack e rest name ext := by
  intro hall
  have h := (hall (sampleEntry [82, 69, 65, 68, 77, 69] [84, 88, 84] 0) [] [82, 69, 65, 68, 77, 69]
    [84, 88, 84] ⟨by decide, by decide, by decide, by decide, List.all_eq_true.mp rfl,
    List.all_eq_true.mp rfl, by decide⟩).1
  revert h
  decide

end AdamOS.Shell
