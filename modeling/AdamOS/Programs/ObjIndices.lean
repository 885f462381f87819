import AdamOS.Programs.Obj

/-! Which texts parse_obj takes in without leaving a buffer or an array, and with faces whose indices are
those of vertices: the check it makes of a face has an empty body. -/
namespace AdamOS.Obj
open AdamOS.Fat16 AdamOS.Word
variable {F : Type} {stof : List UInt8 → F} {line : List UInt8} {ls : List (List UInt8)} {o o' : Mesh F}

/-! ### The tokens of a line -/

def firstToken (line : List UInt8) : List UInt8 × List UInt8 := strtok space (strtok space line).2
def secondToken (line : List UInt8) : List UInt8 × List UInt8 := strtok space (firstToken line).2
def thirdToken (line : List UInt8) : List UInt8 × List UInt8 := strtok space (secondToken line).2

def TokensFit (line : List UInt8) : Prop :=
  ∀ t ∈ [(strtok space line).1, (firstToken line).1, (secondToken line).1, (thirdToken line).1],
    t.length < tempSize

instance (line : List UInt8) : Decidable (TokensFit line) := inferInstanceAs (Decidable (∀ t ∈ _, _))

def vertexOf (stof : List UInt8 → F) (line : List UInt8) : Vertex F :=
  ⟨stof (firstToken line).1, stof (secondToken line).1, stof (thirdToken line).1⟩

def faceOf (line : List UInt8) : Face :=
  ⟨int32 (stoi (firstToken line).1 - 1), int32 (stoi (secondToken line).1 - 1),
    int32 (stoi (thirdToken line).1 - 1)⟩

theorem threeTokens_eq (line : List UInt8) : threeTokens line =
    if TokensFit line then some ((firstToken line).1, (secondToken line).1, (thirdToken line).1) else none :=
  rfl

/-! ### What a text adds -/

def isVertex (line : List UInt8) : Bool := startsWith 'v' line
def isFace (line : List UInt8) : Bool := startsWith 'f' line

def add (stof : List UInt8 → F) (ls : List (List UInt8)) (o : Mesh F) : Mesh F :=
  ⟨o.vertices ++ (ls.filter isVertex).map (vertexOf stof), o.faces ++ (ls.filter isFace).map faceOf⟩

/- The lines and their tokens fit the buffers, and what they add fits the arrays. -/
structure LinesFit (ls : List (List UInt8)) (o : Mesh F) : Prop where
  lengths : ∀ line ∈ ls, line.length < lineSize
  tokens : ∀ line ∈ ls, isData line = true → TokensFit line
  vertices : ls.countP isVertex = 0 ∨ o.vertices.length + ls.countP isVertex ≤ maxVertices
  faces : ls.countP isFace = 0 ∨ o.faces.length + ls.countP isFace ≤ maxFaces

theorem isVertex_not_isFace (h : isVertex line = true) : isFace line = false := by
  unfold isVertex startsWith at h
  unfold isFace startsWith
  rw [beq_iff_eq.mp h]
  decide

theorem add_cons : add stof (line :: ls) o = add stof ls (add stof [line] o) := by
  unfold add
  rw [← List.singleton_append, List.filter_append, List.filter_append, List.map_append, List.map_append]
  dsimp only
  rw [List.append_assoc, List.append_assoc]

theorem linesFit_cons : LinesFit (line :: ls) o ↔ LinesFit [line] o ∧ LinesFit ls (add stof [line] o) := by
  have hvertices : (add stof [line] o).vertices.length = o.vertices.length + [line].countP isVertex := by
    rw [add, List.length_append, List.length_map, ← List.countP_eq_length_filter]
  have hfaces : (add stof [line] o).faces.length = o.faces.length + [line].countP isFace := by
    rw [add, List.length_append, List.length_map, ← List.countP_eq_length_filter]
  constructor
  · rintro ⟨hlen, htok, hv, hf⟩
    rw [← List.singleton_append, List.countP_append] at hv hf
    refine ⟨⟨fun l hl => hlen l ?_, fun l hl => htok l ?_, by omega, by omega⟩,
      fun l hl => hlen l (List.mem_cons_of_mem _ hl), fun l hl => htok l (List.mem_cons_of_mem _ hl), by omega,
      by omega⟩
    · exact List.mem_singleton.mp hl ▸ List.mem_cons_self
    · exact List.mem_singleton.mp hl ▸ List.mem_cons_self
  · rintro ⟨⟨hlen, htok, hv, hf⟩, hlen', htok', hv', hf'⟩
    refine ⟨fun l hl => ?_, fun l hl => ?_, ?_, ?_⟩
    · rcases List.mem_cons.mp hl with rfl | hl
      · exact hlen l List.mem_cons_self
      · exact hlen' l hl
    · rcases List.mem_cons.mp hl with rfl | hl
      · exact htok l List.mem_cons_self
      · exact htok' l hl
    · rw [← List.singleton_append, List.countP_append]
      omega
    · rw [← List.singleton_append, List.countP_append]
      omega

theorem linesFit_singleton : LinesFit [line] o ↔ line.length < lineSize ∧
    (isData line = true → TokensFit line) ∧ (isVertex line = true → o.vertices.length < maxVertices) ∧
      (isFace line = true → o.faces.length < maxFaces) := by
  have hcount : ∀ q : List UInt8 → Bool, ∀ n m : Nat,
      ([line].countP q = 0 ∨ n + [line].countP q ≤ m) ↔ (q line = true → n < m) := by
    intro q n m
    rw [List.countP_singleton]
    cases q line with
    | false => exact ⟨fun _ h => absurd h Bool.false_ne_true, fun _ => .inl rfl⟩
    | true => exact ⟨fun h _ => h.resolve_left Nat.one_ne_zero, fun h => .inr (h rfl)⟩
  constructor
  · rintro ⟨hlen, htok, hv, hf⟩
    exact ⟨hlen line List.mem_cons_self, htok line List.mem_cons_self, (hcount ..).mp hv, (hcount ..).mp hf⟩
  · rintro ⟨hlen, htok, hv, hf⟩
    refine ⟨fun l hl => ?_, fun l hl => ?_, (hcount ..).mpr hv, (hcount ..).mpr hf⟩
    · exact List.mem_singleton.mp hl ▸ hlen
    · exact List.mem_singleton.mp hl ▸ htok

theorem addVertex_iff : addVertex stof line o = some o' ↔
    (TokensFit line ∧ o.vertices.length < maxVertices) ∧
      o' = { o with vertices := o.vertices ++ [vertexOf stof line] } := by
  rw [addVertex, threeTokens_eq]
  by_cases htok : TokensFit line
  · rw [if_pos htok, Option.bind_some]
    by_cases hroom : o.vertices.length < maxVertices
    · simp only [hroom, if_true, htok, and_self, true_and, Option.some.injEq]
      exact eq_comm
    · simp [hroom]
  · simp [htok]

theorem addFace_iff : addFace line o = some o' ↔
    (TokensFit line ∧ o.faces.length < maxFaces) ∧ o' = { o with faces := o.faces ++ [faceOf line] } := by
  rw [addFace, threeTokens_eq]
  by_cases htok : TokensFit line
  · rw [if_pos htok, Option.bind_some]
    by_cases hroom : o.faces.length < maxFaces
    · simp only [hroom, if_true, htok, and_self, true_and, Option.some.injEq]
      exact eq_comm
    · simp [hroom]
  · simp [htok]

theorem readLine_iff : readLine stof o line = some o' ↔ LinesFit [line] o ∧ o' = add stof [line] o := by
  have hread : readLine stof o line = if line.length < lineSize then
      if isVertex line then addVertex stof line o else if isFace line then addFace line o else some o
    else none := rfl
  have hdata : isData line = (isVertex line || isFace line) := rfl
  rw [linesFit_singleton, hread, hdata]
  by_cases hlen : line.length < lineSize
  · by_cases hv : isVertex line = true
    · have hf := isVertex_not_isFace hv
      have hadd : add stof [line] o = { o with vertices := o.vertices ++ [vertexOf stof line] } := by
        simp [add, hv, hf]
      simp [hlen, hv, hf, hadd, addVertex_iff]
    · by_cases hf : isFace line = true
      · have hadd : add stof [line] o = { o with faces := o.faces ++ [faceOf line] } := by simp [add, hv, hf]
        simp [hlen, hv, hf, hadd, addFace_iff]
      · have hadd : add stof [line] o = o := by simp [add, hv, hf]
        simp [hlen, hv, hf, hadd, eq_comm]
  · simp [hlen]

theorem readLines_iff : readLines stof ls o = some o' ↔ LinesFit ls o ∧ o' = add stof ls o := by
  induction ls generalizing o with
  | nil =>
    have hnil : add stof [] o = o := by
      rw [add, List.filter_nil, List.filter_nil, List.map_nil, List.map_nil, List.append_nil, List.append_nil]
    have hfit : LinesFit [] o :=
      ⟨fun _ h => absurd h List.not_mem_nil, fun _ h => absurd h List.not_mem_nil, .inl rfl, .inl rfl⟩
    rw [hnil]
    exact ⟨fun h => ⟨hfit, (Option.some.inj h).symm⟩, fun h => congrArg some h.2.symm⟩
  | cons line ls ih =>
    rw [readLines_cons, add_cons, @linesFit_cons F stof]
    constructor
    · intro h
      obtain ⟨o1, hone, hrest⟩ := Option.bind_eq_some_iff.mp h
      obtain ⟨hfit, rfl⟩ := readLine_iff.mp hone
      obtain ⟨hfits, he⟩ := ih.mp hrest
      exact ⟨⟨hfit, hfits⟩, he⟩
    · rintro ⟨⟨hfit, hfits⟩, he⟩
      exact Option.bind_eq_some_iff.mpr ⟨_, readLine_iff.mpr ⟨hfit, rfl⟩, ih.mpr ⟨hfits, he⟩⟩

/-! ### Indices -/

def Face.Within (n : Nat) (f : Face) : Prop := ∀ i ∈ [f.a, f.b, f.c], 0 ≤ i ∧ i < n

instance (n : Nat) (f : Face) : Decidable (f.Within n) := inferInstanceAs (Decidable (∀ i ∈ _, _))

/- A call of parse_obj stays in its buffers and arrays, and the faces it counts have the indices of vertices
   that are loaded. -/
def ParsesSafely (stof : List UInt8 → F) (buf : List UInt8) (o : Mesh F) : Prop :=
  ∃ o', parseObj stof buf o = some o' ∧ ∀ f ∈ o'.faces.drop o.faces.length, f.Within o'.vertices.length

/- The lines fit the buffers and the arrays, and the numbers of a face are those of vertices before or after
   it. -/
structure TextInRange (text : List UInt8) (o : Mesh F) : Prop where
  fit : LinesFit (lines text) o
  indices : ∀ line ∈ lines text, isFace line = true →
    (faceOf line).Within (o.vertices.length + (lines text).countP isVertex)

/-- parse_obj is safe on the texts that are in range, whatever lies behind them, and on no others. -/
theorem parseObj_safe_iff (stof : List UInt8 → F) (str : CString) (rest : List UInt8) (o : Mesh F) :
    ParsesSafely stof (str.chars ++ 0 :: rest) o ↔ TextInRange str.chars o := by
  have hparse : parseObj stof (str.chars ++ 0 :: rest) o = readLines stof (lines str.chars) o := by
    refine parseFrom_text str.noNul ?_
    rw [List.length_append]
    omega
  have hcount : (add stof (lines str.chars) o).vertices.length =
      o.vertices.length + (lines str.chars).countP isVertex := by
    rw [add, List.length_append, List.length_map, ← List.countP_eq_length_filter]
  have hnew : (add stof (lines str.chars) o).faces.drop o.faces.length =
      ((lines str.chars).filter isFace).map faceOf := List.drop_left
  unfold ParsesSafely
  rw [hparse]
  constructor
  · rintro ⟨o', ho', hall⟩
    obtain ⟨hfit, rfl⟩ := readLines_iff.mp ho'
    refine ⟨hfit, fun line hl hf => ?_⟩
    rw [← hcount]
    exact hall _ (hnew ▸ List.mem_map_of_mem (List.mem_filter.mpr ⟨hl, hf⟩))
  · rintro ⟨hfit, hindices⟩
    refine ⟨_, readLines_iff.mpr ⟨hfit, rfl⟩, fun f hf => ?_⟩
    rw [hnew] at hf
    obtain ⟨line, hline, rfl⟩ := List.mem_map.mp hf
    obtain ⟨hl, hface⟩ := List.mem_filter.mp hline
    rw [hcount]
    exact hindices line hl hface

/-! ### A face without a vertex -/

def onlyFace : CString := ⟨ascii "f 1 1 1\n", noNul_of_all rfl⟩

/-- The face is counted with index 0, and there is no vertex. -/
theorem onlyFace_unsafe : parseObj (fun _ => ()) (onlyFace.chars ++ [0]) (emptyMesh Unit) =
    some ⟨[], [⟨0, 0, 0⟩]⟩ ∧ ¬ParsesSafely (fun _ => ()) (onlyFace.chars ++ [0]) (emptyMesh Unit) := by
  have hparse : parseObj (fun _ => ()) (onlyFace.chars ++ [0]) (emptyMesh Unit) =
      some ⟨[], [⟨0, 0, 0⟩]⟩ := by decide +kernel
  refine ⟨hparse, fun ⟨o', ho', hall⟩ => ?_⟩
  rw [hparse] at ho'
  cases ho'
  exact absurd (hall ⟨0, 0, 0⟩ List.mem_cons_self) (by decide)

end AdamOS.Obj
