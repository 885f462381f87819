import AdamOS.Programs.Strings

/-! strtok with its pointer into the string. The pointer stays between calls, behind one delimiter or
at the NUL, and the tokens that are left are those of the string from there on. -/
namespace AdamOS.Strings
open AdamOS.Fat16 (Local noNul_of_all strcpy strtokCopy strtokCopy_eq strtok_chars strtok_empty tokens
  tokens_strtok)

/- string_token and dest after a call; found is a result that is not NULL. -/
structure StrtokCall where
  token : Option Nat
  dest : Local
  found : Bool

section
variable (mem : Nat → UInt8) (delim : UInt8)

/- The loop that skips delimiters; none is a loop that goes on after n rounds. -/
def skipDelims : Nat → Nat → Option Nat
  | 0, _ => none
  | n+1, p => if mem p = delim then skipDelims n (p + 1) else some p

def copyToken : Nat → Nat → Nat → Local → Option (Nat × Nat × Local)
  | 0, _, _, _ => none
  | n+1, p, i, dest =>
    if mem p ≠ 0 ∧ mem p ≠ delim then copyToken n (p + 1) (i + 1) (dest.store i (mem p))
    else some (p, i, dest)

/- NULL is none. No loop over memory takes more rounds than it has bytes. -/
def strtok (token : Option Nat) (dest : Local) (str : Option Nat) : Option StrtokCall :=
  match str <|> token with
  | none => some ⟨none, dest.store 0 0, false⟩
  | some p =>
    if mem p = 0 then some ⟨some p, dest.store 0 0, false⟩
    else
      (skipDelims mem delim memorySize p).bind fun p =>
      (copyToken mem delim memorySize p 0 dest).map fun (p, i, dest) =>
        ⟨some (if mem p ≠ 0 then p + 1 else p), dest.store i 0, decide (i > 0)⟩

def pointer (a : Nat) : Option Nat := if a = 0 then none else some a

/- strtok(dest, str, delim), and then strtok(dest, NULL, delim) k times. -/
def strtokCalls (token : Option Nat) (dest : Local) (str : Nat) : Nat → Option StrtokCall
  | 0 => strtok mem delim token dest (pointer str)
  | k+1 => (strtokCalls token dest str k).bind fun r => strtok mem delim r.token r.dest none

end

/-! ### A string at an address -/

def HoldsAt (mem : Nat → UInt8) (p : Nat) (s : List UInt8) : Prop := Holds (fun j => mem (p + j)) s

section
variable {mem : Nat → UInt8} {delim c : UInt8} {p n : Nat} {s cs : List UInt8}

theorem holdsAt_nil : HoldsAt mem p [] ↔ mem p = 0 := ⟨fun h => h.nul, fun h => .nil h⟩

theorem holdsAt_cons : HoldsAt mem p (c :: cs) ↔ mem p = c ∧ c ≠ 0 ∧ HoldsAt mem (p + 1) cs := by
  have hnext : ∀ j, mem (p + 1 + j) = mem (p + (j + 1)) := fun j => congrArg mem (by omega)
  constructor
  · intro h
    refine ⟨h.chars 0 c rfl, h.noNul c List.mem_cons_self, ⟨fun j d hd => ?_, ?_, fun d hd => ?_⟩⟩
    · exact (hnext j).trans (h.chars (j + 1) d hd)
    · exact (hnext cs.length).trans h.nul
    · exact h.noNul d (List.mem_cons_of_mem c hd)
  · rintro ⟨hfirst, hc, h⟩
    refine ⟨fun j d hd => ?_, (hnext cs.length).symm.trans h.nul, fun d hd => ?_⟩
    · cases j with
      | zero => exact hfirst.trans (Option.some.inj hd)
      | succ j => exact (hnext j).symm.trans (h.chars j d hd)
    · rcases List.mem_cons.mp hd with rfl | hd
      · exact hc
      · exact h.noNul d hd

/-! ### One call -/

theorem skipDelims_some (h : HoldsAt mem p s) (hd : delim ≠ 0) (hn : s.length < n) :
    ∃ q, skipDelims mem delim n p = some q ∧ HoldsAt mem q (s.dropWhile (· == delim)) ∧
      q + (s.dropWhile (· == delim)).length = p + s.length := by
  obtain ⟨n, rfl⟩ := Nat.exists_eq_add_of_lt hn
  induction s generalizing p with
  | nil =>
    have hnul := holdsAt_nil.mp h
    exact ⟨p, by rw [skipDelims, hnul, if_neg hd.symm], h, rfl⟩
  | cons c cs ih =>
    obtain ⟨hfirst, -, hrest⟩ := holdsAt_cons.mp h
    by_cases hc : c = delim
    · obtain ⟨q, hq, hholds, hlen⟩ := ih hrest (by omega)
      have hdrop : (c :: cs).dropWhile (· == delim) = cs.dropWhile (· == delim) :=
        List.dropWhile_cons_of_pos (beq_iff_eq.mpr hc)
      rw [hdrop, skipDelims, hfirst, if_pos hc, List.length_cons, Nat.add_right_comm cs.length]
      exact ⟨q, hq, hholds, by omega⟩
    · have hdrop : (c :: cs).dropWhile (· == delim) = c :: cs :=
        List.dropWhile_cons_of_neg fun heq => hc (beq_iff_eq.mp heq)
      rw [hdrop, skipDelims, hfirst, if_neg hc]
      exact ⟨p, rfl, h, rfl⟩

/-- The loop over memory copies what the loop over the string copies. -/
theorem copyToken_some (h : HoldsAt mem p s) (hn : s.length < n) (i : Nat) (dest : Local) :
    let r := strtokCopy delim s i dest
    ∃ q, copyToken mem delim n p i dest = some (q, r.1, r.2.2) ∧ HoldsAt mem q r.2.1 ∧
      q + r.2.1.length = p + s.length := by
  obtain ⟨n, rfl⟩ := Nat.exists_eq_add_of_lt hn
  induction s generalizing p i dest with
  | nil =>
    have hnul := holdsAt_nil.mp h
    exact ⟨p, by rw [copyToken, if_neg fun hgo => hgo.1 hnul]; rfl, h, rfl⟩
  | cons c cs ih =>
    obtain ⟨hfirst, hc0, hrest⟩ := holdsAt_cons.mp h
    rw [copyToken, strtokCopy, hfirst]
    by_cases hc : c = delim
    · rw [if_pos hc, if_neg fun hgo => hgo.2 hc]
      exact ⟨p, rfl, h, rfl⟩
    · rw [if_neg hc, if_pos ⟨hc0, hc⟩, List.length_cons, Nat.add_right_comm cs.length]
      obtain ⟨q, hq, hholds, hlen⟩ := ih hrest (i + 1) (dest.store i c) (by omega)
      exact ⟨q, hq, hholds, by omega⟩

theorem strtokCopy_length (delim : UInt8) (s : List UInt8) (i : Nat) (dest : Local) :
    (strtokCopy delim s i dest).1 = i + (s.takeWhile (· != delim)).length := by
  induction s generalizing i dest with
  | nil => rfl
  | cons c cs ih =>
    rw [strtokCopy]
    by_cases hc : c = delim
    · rw [if_pos hc, List.takeWhile_cons_of_neg (by simpa using hc)]
      rfl
    · rw [if_neg hc, List.takeWhile_cons_of_pos (by simpa using hc), ih, List.length_cons]
      omega

/-- A call takes the first token off the string at the pointer. -/
theorem strtok_some {token str : Option Nat} (hp : (str <|> token) = some p) (h : HoldsAt mem p s)
    (hend : p + s.length < memorySize) (hd : delim ≠ 0) (dest : Local) :
    ∃ q, strtok mem delim token dest str = some ⟨some q, strcpy (Fat16.strtok delim s).1 0 dest,
        decide ((Fat16.strtok delim s).1 ≠ [])⟩ ∧
      HoldsAt mem q (Fat16.strtok delim s).2 ∧ q + (Fat16.strtok delim s).2.length < memorySize := by
  rw [strtok, hp]
  cases s with
  | nil =>
    have hnul := holdsAt_nil.mp h
    exact ⟨p, if_pos hnul, h, hend⟩
  | cons c cs =>
    obtain ⟨hfirst, hc0, -⟩ := holdsAt_cons.mp h
    obtain ⟨p', hskip, hskipped, hlen⟩ := @skipDelims_some mem delim p memorySize _ h hd (by omega)
    generalize hs : (c :: cs).dropWhile (· == delim) = t at *
    obtain ⟨q, hcopy, hcopied, hlen'⟩ := @copyToken_some mem delim p' memorySize t hskipped (by omega) 0 dest
    have hcall : Fat16.strtok delim (c :: cs) =
        (t.takeWhile (· != delim), (t.dropWhile (· != delim)).tail) := by rw [Fat16.strtok, hs]
    have hwrite := strtokCopy_eq delim t 0 dest
    have hfound : ((strtokCopy delim t 0 dest).1 > 0) ↔ t.takeWhile (· != delim) ≠ [] := by
      rw [strtokCopy_length, Nat.zero_add]
      exact List.length_pos_iff
    rw [Prod.mk.injEq] at hwrite
    rw [hwrite.2] at hcopied hlen'
    dsimp only
    rw [hfirst, if_neg hc0, hskip, Option.bind_some, hcopy, Option.map_some, hcall, hwrite.1,
      decide_eq_decide.mpr hfound]
    cases hrest : t.dropWhile (· != delim) with
    | nil =>
      rw [hrest] at hcopied hlen'
      rw [if_neg (not_not_intro (holdsAt_nil.mp hcopied))]
      rw [List.length_nil] at hlen'
      refine ⟨q, rfl, hcopied, ?_⟩
      change q + 0 < memorySize
      omega
    | cons d ds =>
      rw [hrest] at hcopied hlen'
      obtain ⟨hd, hd0, hds⟩ := holdsAt_cons.mp hcopied
      rw [if_pos (hd ▸ hd0)]
      refine ⟨q + 1, rfl, hds, ?_⟩
      rw [List.length_cons] at hlen'
      change q + 1 + ds.length < memorySize
      omega

/-! ### All calls -/

/-- What a call returns in terms of the tokens of the string at the pointer. -/
theorem strtok_tokens (token str : Option Nat) (hp : (str <|> token) = some p) (h : HoldsAt mem p s)
    (hend : p + s.length < memorySize) (hd : delim ≠ 0) (dest : Local) :
    ∃ r q rest, strtok mem delim token dest str = some r ∧ r.token = some q ∧ HoldsAt mem q rest ∧
      q + rest.length < memorySize ∧ tokens delim rest = (tokens delim s).tail ∧
      Holds r.dest.bytes ((tokens delim s).getD 0 []) ∧ (r.found = true ↔ tokens delim s ≠ []) := by
  obtain ⟨q, hcall, hrest, hend'⟩ := strtok_some hp h hend hd dest
  have hchars : ∀ c ∈ (Fat16.strtok delim s).1, c ≠ 0 := (strtok_chars h.noNul).1
  have hholds := holds_strcpy hchars dest
  refine ⟨_, q, _, hcall, rfl, hrest, hend', ?_⟩
  dsimp only
  rw [tokens_strtok delim s, decide_eq_true_iff]
  by_cases hempty : (Fat16.strtok delim s).1 = []
  · obtain ⟨-, hnone⟩ := strtok_empty hempty
    rw [if_pos hempty, hnone, hempty]
    rw [hempty] at hholds
    exact ⟨rfl, hholds, iff_of_false (fun hne => hne rfl) fun hne => hne rfl⟩
  · rw [if_neg hempty]
    exact ⟨rfl, hholds, iff_of_true hempty (List.cons_ne_nil _ _)⟩

end

/-- The k-th call gives the k-th run of characters between delimiters, and after the last one every call
gives NULL and an empty string. -/
theorem strtokCalls_tokens (mem : Nat → UInt8) (delim : UInt8) (hd : delim ≠ 0) (str : Nat) (hstr : 0 < str)
    (s : List UInt8) (h : HoldsAt mem str s) (hend : str + s.length < memorySize) (token : Option Nat)
    (dest : Local) (k : Nat) :
    ∃ r, strtokCalls mem delim token dest str k = some r ∧
      Holds r.dest.bytes ((tokens delim s).getD k []) ∧ (r.found = true ↔ k < (tokens delim s).length) := by
  suffices hall : ∃ r q rest, strtokCalls mem delim token dest str k = some r ∧ r.token = some q ∧
      HoldsAt mem q rest ∧ q + rest.length < memorySize ∧
      tokens delim rest = (tokens delim s).drop (k + 1) ∧
      Holds r.dest.bytes ((tokens delim s).getD k []) ∧
      (r.found = true ↔ k < (tokens delim s).length) by
    obtain ⟨r, -, -, hcall, -, -, -, -, hholds, hfound⟩ := hall
    exact ⟨r, hcall, hholds, hfound⟩
  induction k with
  | zero =>
    obtain ⟨r, q, rest, hcall, htoken, hrest, hend', htail, hholds, hfound⟩ :=
      strtok_tokens token (some str) rfl h hend hd dest
    rw [← show pointer str = some str from if_neg (Nat.ne_of_gt hstr)] at hcall
    exact ⟨r, q, rest, hcall, htoken, hrest, hend', htail.trans List.drop_one.symm, hholds,
      hfound.trans List.length_pos_iff.symm⟩
  | succ k ih =>
    obtain ⟨r, q, rest, hcall, htoken, hrest, hend', htokens, -, -⟩ := ih
    obtain ⟨r', q', rest', hcall', htoken', hrest', hend'', htail, hholds, hfound⟩ :=
      strtok_tokens r.token none htoken hrest hend' hd r.dest
    rw [htokens] at htail hholds hfound
    refine ⟨r', q', rest', ?_, htoken', hrest', hend'', ?_, ?_, ?_⟩
    · rw [strtokCalls, hcall]
      exact hcall'
    · rw [htail, List.tail_drop]
    · rw [List.getD_eq_getElem?_getD, List.getElem?_drop] at hholds
      rw [List.getD_eq_getElem?_getD]
      exact hholds
    · rw [hfound, ne_eq, List.drop_eq_nil_iff, Nat.not_le]

/- " ab  c" -/
def spacedText : List UInt8 := [32, 97, 98, 32, 32, 99]

def spacedMemory (a : Nat) : UInt8 := if 0x40000000 ≤ a then spacedText.getD (a - 0x40000000) 0 else 0

/-- The second call gives "c", the third one NULL. -/
theorem spacedText_tokens :
    (∃ r, strtokCalls spacedMemory 32 none numberArray 0x40000000 1 = some r ∧
      Holds r.dest.bytes [99] ∧ r.found = true) ∧
    ∃ r, strtokCalls spacedMemory 32 none numberArray 0x40000000 2 = some r ∧
      Holds r.dest.bytes [] ∧ r.found = false := by
  have htokens : tokens 32 spacedText = [[97, 98], [99]] := by decide
  have hholds : HoldsAt spacedMemory 0x40000000 spacedText := by
    have hmem : (fun j => spacedMemory (0x40000000 + j)) = (spacedText.getD · 0) := by
      funext j
      rw [spacedMemory, if_pos (Nat.le_add_right _ _), Nat.add_sub_cancel_left]
    rw [HoldsAt, hmem]
    exact holds_getD (noNul_of_all rfl)
  have hend : 0x40000000 + spacedText.length < memorySize := by
    unfold memorySize
    decide
  have hcalls := strtokCalls_tokens spacedMemory 32 (by decide) 0x40000000 (by decide) spacedText hholds
    hend none numberArray
  rw [htokens] at hcalls
  obtain ⟨r, hcall, htext, hfound⟩ := hcalls 1
  obtain ⟨r', hcall', htext', hfound'⟩ := hcalls 2
  exact ⟨⟨r, hcall, htext, hfound.mpr (by decide)⟩, r', hcall', htext',
    Bool.eq_false_iff.mpr fun h => absurd (hfound'.mp h) (by decide)⟩

end AdamOS.Strings
