import Mathlib.Data.List.Basic

/-! The order in which a list is gone round, and what changes of the list do to it. -/
namespace AdamOS.RoundRobin
variable {α β : Type*} {xs pre : List α} {a c q : α}

/- On the way round the list from `c` the members `pre` come before `a`. -/
def Between (xs : List α) (c a : α) (pre : List α) : Prop :=
  ∃ before later rest, xs = before ++ c :: later ∧ later ++ before = pre ++ a :: rest

theorem exists_between (hc : c ∈ xs) (ha : a ∈ xs) (hne : a ≠ c) : ∃ pre, Between xs c a pre := by
  obtain ⟨before, later, rfl⟩ := List.append_of_mem hc
  have hmem : a ∈ later ++ before := by
    rcases List.mem_append.mp ha with h | h
    · exact List.mem_append_right _ h
    · exact List.mem_append_left _ ((List.mem_cons.mp h).resolve_left hne)
  obtain ⟨pre, rest, h⟩ := List.append_of_mem hmem
  exact ⟨pre, before, later, rest, rfl, h⟩

theorem Between.length_le (h : Between xs c a pre) : pre.length + 2 ≤ xs.length := by
  obtain ⟨before, later, rest, rfl, hround⟩ := h
  have hlen := congrArg List.length hround
  rw [List.length_append, List.length_append, List.length_cons] at hlen
  rw [List.length_append, List.length_cons]
  omega

theorem Between.filter {keep : α → Bool} (h : Between xs c a pre) (hc : keep c = true)
    (ha : keep a = true) : Between (xs.filter keep) c a (pre.filter keep) := by
  obtain ⟨before, later, rest, rfl, hround⟩ := h
  refine ⟨before.filter keep, later.filter keep, rest.filter keep, ?_, ?_⟩
  · rw [List.filter_append, List.filter_cons_of_pos hc]
  · rw [← List.filter_append, hround, List.filter_append, List.filter_cons_of_pos ha]

/-- A newcomer at the end of the list takes one place at most. -/
theorem Between.append (h : Between xs c a pre) (d : α) :
    ∃ pre', Between (xs ++ [d]) c a pre' ∧ pre'.length ≤ pre.length + 1 := by
  obtain ⟨before, later, rest, rfl, hround⟩ := h
  rcases List.append_eq_append_iff.mp hround with ⟨mid, hpre, hbefore⟩ | ⟨mid, hlater, hrest⟩
  · refine ⟨later ++ d :: mid, ⟨before, later ++ [d], rest, ?_, ?_⟩, ?_⟩
    · rw [List.append_assoc, List.cons_append]
    · rw [hbefore, List.append_assoc, List.append_assoc, List.singleton_append, List.cons_append]
    · refine Nat.le_of_eq ?_
      rw [hpre, List.length_append, List.length_append, List.length_cons, Nat.add_assoc]
  · cases mid with
    | nil =>
      refine ⟨pre ++ [d], ⟨before, later ++ [d], rest, ?_, ?_⟩, ?_⟩
      · rw [List.append_assoc, List.cons_append]
      · rw [List.append_nil] at hlater
        rw [List.nil_append] at hrest
        rw [hlater, List.append_assoc, List.append_assoc, ← hrest]
      · exact Nat.le_of_eq (by rw [List.length_append, List.length_singleton])
    | cons b mid =>
      obtain ⟨rfl, hmid⟩ := List.cons.inj hrest
      refine ⟨pre, ⟨before, later ++ [d], mid ++ d :: before, ?_, ?_⟩, Nat.le_succ _⟩
      · rw [List.append_assoc, List.cons_append]
      · rw [hlater, List.append_assoc, List.append_assoc, List.cons_append, List.singleton_append]

/-- Going on to a member before `a` brings `a` nearer. -/
theorem Between.advance (h : Between xs c a pre) (hq : q ∈ pre) :
    ∃ pre', Between xs q a pre' ∧ pre'.length < pre.length := by
  obtain ⟨before, later, rest, rfl, hround⟩ := h
  obtain ⟨skipped, pre', rfl⟩ := List.append_of_mem hq
  rw [List.append_assoc, List.cons_append] at hround
  refine ⟨pre', ?_, by rw [List.length_append, List.length_cons]; omega⟩
  rcases List.append_eq_append_iff.mp hround with ⟨mid, hskip, hbefore⟩ | ⟨mid, hlater, hrest⟩
  · refine ⟨mid, pre' ++ a :: rest ++ c :: later, rest ++ c :: later ++ mid, ?_, ?_⟩
    · rw [hbefore, List.append_assoc, List.cons_append]
    · simp only [List.append_assoc, List.cons_append]
  · cases mid with
    | nil =>
      refine ⟨[], pre' ++ a :: rest ++ c :: later, rest ++ c :: later, ?_, ?_⟩
      · rw [List.nil_append] at hrest
        rw [← hrest, List.nil_append, List.cons_append]
      · simp only [List.append_assoc, List.cons_append, List.append_nil]
    | cons b mid =>
      obtain ⟨rfl, hmid⟩ := List.cons.inj hrest
      refine ⟨before ++ c :: skipped, mid, rest ++ c :: skipped, ?_, ?_⟩
      · rw [hlater, List.append_assoc, List.cons_append]
      · have hmid' : pre' ++ a :: rest = mid ++ before := hmid
        rw [← List.append_assoc, ← hmid', List.append_assoc, List.cons_append]

/-- The first member with a property, on the way round from `c`, comes no later than `a` if `a` has it. -/
theorem Between.find {f : α → Bool} {before later rest : List α}
    (hround : later ++ before = pre ++ a :: rest) (ha : f a = true) {q : α}
    (hq : (later ++ before ++ [c]).find? f = some q) : q ∈ pre ∨ q = a := by
  rw [hround, List.append_assoc, List.find?_append, List.cons_append, List.find?_cons_of_pos ha] at hq
  cases hfind : pre.find? f with
  | some p =>
    rw [hfind] at hq
    exact .inl (Option.some.inj hq ▸ List.mem_of_find?_eq_some hfind)
  | none =>
    rw [hfind] at hq
    exact .inr (Option.some.inj hq).symm

end AdamOS.RoundRobin
