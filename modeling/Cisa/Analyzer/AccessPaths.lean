import Cisa.Analyzer.Oper

/-!
# The fields on the path of a GEP

The indices of a GEP lead from type to type. The loop of `Update` follows them through the
structs whose fields it tags, and through the first contained type of everything else. So it
leaves the path at the first struct that it does not tag and that is indexed with another field
than the first.
-/

namespace Cisa

open Std

namespace OperationLevelAnalyzer

variable (E : Env)

/-- The struct and the field number of an index into a type, if the struct is tracked; the
index is `none` when it is no constant. -/
def trackedField (x : TyPtr × Option ℤ) : Option (String × ℤ) := do
  let name ← E.structName x.1
  if isTrackedStruct name then return (name, ← x.2) else none

/-- The contained type that an index names: a field of a struct; all elements of an array have
one type. -/
def namedStep (x : TyPtr × Option ℤ) : ℤ :=
  match E.structName x.1 with
  | some _ => x.2.getD 0
  | none => 0

/-- The contained type that the loop goes on with. -/
def loopStep (x : TyPtr × Option ℤ) : ℤ := ((trackedField E x).map Prod.snd).getD 0

/-- The types that the indices lead through, each with its index. -/
def visitedTypes (step : TyPtr × Option ℤ → ℤ) : TyPtr → List (Option ℤ) →
    List (TyPtr × Option ℤ)
  | _, [] => []
  | T, i :: rest =>
    (T, i) :: match E.containedType T (step (T, i)) with
      | some S => visitedTypes step S rest
      | none => []

/-- `GEPOp->getPointerOperandType()->getNonOpaquePointerElementType()`. -/
def gepType (V : ValPtr) : Option TyPtr := (E.operand V 0).bind fun P => E.pointee (E.typeOf P)

def fieldIndices (V : ValPtr) : List (Option ℤ) := ((E.operands V).drop 2).map (constantIndex E)

/-- The path that a GEP walks. -/
def accessPath (V : ValPtr) : List (TyPtr × Option ℤ) :=
  ((gepType E V).map fun T => visitedTypes E (namedStep E) T (fieldIndices E V)).getD []

/-- The structs and field numbers for which an update calls `GetStructFieldTag` at a GEP. -/
def calledPairs (V : ValPtr) : List (String × ℤ) :=
  if isRefed E V || isModed E V then
    ((gepType E V).map fun T => walkIndices E T ((E.operands V).drop 2)).getD []
  else []

/-- A struct that is not tracked is indexed with another field than the first. -/
def SkipsField (x : TyPtr × Option ℤ) : Prop :=
  ∃ name, E.structName x.1 = some name ∧ isTrackedStruct name = false ∧ x.2.getD 0 ≠ 0

/-- What the loop visits when it takes the first field of a struct for the one that is
indexed, and goes on from there. -/
def belowFirstField (T : TyPtr) (rest : List (Option ℤ)) : List (TyPtr × Option ℤ) :=
  ((E.containedType T 0).map fun S => visitedTypes E (loopStep E) S rest).getD []

variable {E}

theorem fieldOf_eq (T : TyPtr) (O : ValPtr) :
    fieldOf E T O = trackedField E (T, constantIndex E O) := rfl

/-- What is visited after an index. -/
def visitedAfter (E : Env) (step : TyPtr × Option ℤ → ℤ) (x : TyPtr × Option ℤ)
    (rest : List (Option ℤ)) : List (TyPtr × Option ℤ) :=
  ((E.containedType x.1 (step x)).map fun S => visitedTypes E step S rest).getD []

theorem visitedTypes_cons (step : TyPtr × Option ℤ → ℤ) (T : TyPtr) (i : Option ℤ)
    (rest : List (Option ℤ)) :
    visitedTypes E step T (i :: rest) = (T, i) :: visitedAfter E step (T, i) rest := by
  rw [visitedTypes, visitedAfter]
  cases E.containedType T (step (T, i)) <;> rfl

theorem walkIndices_cons (T : TyPtr) (O : ValPtr) (rest : List ValPtr) :
    walkIndices E T (O :: rest) = (trackedField E (T, constantIndex E O)).toList ++
      ((E.containedType T (loopStep E (T, constantIndex E O))).map fun S =>
        walkIndices E S rest).getD [] := by
  rw [walkIndices, fieldOf_eq, ← loopStep]
  cases E.containedType T (loopStep E (T, constantIndex E O)) <;> rfl

theorem walkIndices_eq (T : TyPtr) (ops : List ValPtr) : walkIndices E T ops =
    (visitedTypes E (loopStep E) T (ops.map (constantIndex E))).filterMap (trackedField E) := by
  induction ops generalizing T with
  | nil => rfl
  | cons O rest ih =>
    rw [List.map_cons, visitedTypes_cons, walkIndices_cons, visitedAfter]
    have hafter : ((E.containedType T (loopStep E (T, constantIndex E O))).map fun S =>
          walkIndices E S rest).getD [] =
        (((E.containedType T (loopStep E (T, constantIndex E O))).map fun S =>
          visitedTypes E (loopStep E) S (rest.map (constantIndex E))).getD []).filterMap
            (trackedField E) := by
      cases E.containedType T (loopStep E (T, constantIndex E O)) with
      | none => rfl
      | some S => exact ih S
    rw [hafter]
    cases hfield : trackedField E (T, constantIndex E O) <;> simp [hfield]

theorem userTags_eq {V : ValPtr} {T : ℕ} (hop : E.opcode V = some (.gep T)) (fnames : FieldNames) :
    userTags E fnames V =
      (((calledPairs E V).map fun p => structFieldTag p.1 p.2 fnames).filter isKeptTag).flatMap
        fun tag => (if isModed E V then [(tag, OLATagIdx.mod)] else []) ++
          (if isRefed E V then [(tag, OLATagIdx.ref)] else []) := by
  rw [userTags, hop]
  dsimp only
  by_cases haccess : (isRefed E V || isModed E V) = true
  · rw [calledPairs, if_pos haccess]
    rfl
  · rw [Bool.or_eq_true, not_or] at haccess
    simp [calledPairs, haccess.1, haccess.2]

/-- The loop leaves the path at the fields that it skips, and only there. -/
theorem skipsField_iff (x : TyPtr × Option ℤ) :
    SkipsField E x ↔ namedStep E x ≠ loopStep E x := by
  rcases x with ⟨T, i⟩
  unfold SkipsField namedStep loopStep trackedField
  cases hname : E.structName T with
  | none => simp
  | some name =>
    by_cases htracked : isTrackedStruct name = true
    · cases i <;> simp [htracked]
    · simp [htracked]

theorem trackedField_of_skipsField {x : TyPtr × Option ℤ} (h : SkipsField E x) :
    trackedField E x = none := by
  obtain ⟨name, hname, htracked, _⟩ := h
  simp [trackedField, hname, htracked]

/-- Two ways to step agree up to the first index at which the steps differ. -/
theorem visitedTypes_split {step step' : TyPtr × Option ℤ → ℤ} {T : TyPtr}
    {idx : List (Option ℤ)} {pre post : List (TyPtr × Option ℤ)} {x : TyPtr × Option ℤ}
    (h : visitedTypes E step T idx = pre ++ x :: post) (hpre : ∀ y ∈ pre, step y = step' y) :
    visitedTypes E step' T idx =
      pre ++ x :: visitedAfter E step' x (idx.drop (pre.length + 1)) := by
  induction pre generalizing T idx with
  | nil =>
    cases idx with
    | nil => simp [visitedTypes] at h
    | cons i rest =>
      rw [visitedTypes_cons, List.nil_append, List.cons.injEq] at h
      obtain ⟨rfl, _⟩ := h
      rw [visitedTypes_cons]
      rfl
  | cons y pre ih =>
    cases idx with
    | nil => simp [visitedTypes] at h
    | cons i rest =>
      rw [visitedTypes_cons, List.cons_append, List.cons.injEq] at h
      obtain ⟨rfl, hafter⟩ := h
      rw [visitedTypes_cons, List.cons_append]
      have hstep := hpre (T, i) List.mem_cons_self
      rw [visitedAfter, hstep] at hafter
      cases hS : E.containedType T (step' (T, i)) with
      | none => simp [hS] at hafter
      | some S =>
        rw [hS, Option.map_some, Option.getD_some] at hafter
        have hrest := ih hafter fun z hz => hpre z (List.mem_cons_of_mem _ hz)
        rw [visitedAfter, hS, Option.map_some, Option.getD_some, hrest]
        rfl

theorem visitedTypes_congr {step step' : TyPtr × Option ℤ → ℤ} {T : TyPtr}
    {idx : List (Option ℤ)} (h : ∀ y ∈ visitedTypes E step T idx, step y = step' y) :
    visitedTypes E step' T idx = visitedTypes E step T idx := by
  induction idx generalizing T with
  | nil => rfl
  | cons i rest ih =>
    rw [visitedTypes_cons] at h
    rw [visitedTypes_cons, visitedTypes_cons]
    have hstep := h (T, i) List.mem_cons_self
    unfold visitedAfter at h ⊢
    rw [← hstep]
    cases hS : E.containedType T (step (T, i)) with
    | none => rfl
    | some S =>
      have hrest : ∀ y ∈ visitedTypes E step S rest, step y = step' y :=
        fun y hy => h y (List.mem_cons_of_mem _ (by simpa [hS] using hy))
      simp [ih hrest]

theorem first_skipped (path : List (TyPtr × Option ℤ)) :
    (∀ y ∈ path, ¬ SkipsField E y) ∨ ∃ pre x post, path = pre ++ x :: post ∧
      (∀ y ∈ pre, ¬ SkipsField E y) ∧ SkipsField E x := by
  induction path with
  | nil => exact Or.inl (by simp)
  | cons y path ih =>
    by_cases hy : SkipsField E y
    · exact Or.inr ⟨[], y, path, rfl, by simp, hy⟩
    · rcases ih with hall | ⟨pre, x, post, rfl, hpre, hx⟩
      · exact Or.inl (List.forall_mem_cons.mpr ⟨hy, hall⟩)
      · exact Or.inr ⟨y :: pre, x, post, rfl, List.forall_mem_cons.mpr ⟨hy, hpre⟩, hx⟩

/-- What the loop visits at a GEP. -/
def loopPath (E : Env) (V : ValPtr) : List (TyPtr × Option ℤ) :=
  ((gepType E V).map fun T => visitedTypes E (loopStep E) T (fieldIndices E V)).getD []

theorem calledPairs_eq {V : ValPtr} (haccess : isRefed E V = true ∨ isModed E V = true) :
    calledPairs E V = (loopPath E V).filterMap (trackedField E) := by
  rw [calledPairs, if_pos (by simpa using haccess), loopPath]
  cases gepType E V with
  | none => rfl
  | some T => exact walkIndices_eq T _

theorem loopPath_eq_accessPath {V : ValPtr} (h : ∀ y ∈ accessPath E V, ¬ SkipsField E y) :
    loopPath E V = accessPath E V := by
  unfold loopPath accessPath at *
  cases hT : gepType E V with
  | none => rfl
  | some T =>
    simp only [hT, Option.map_some, Option.getD_some] at h ⊢
    exact visitedTypes_congr fun y hy => not_not.mp fun hne => h y hy ((skipsField_iff y).mpr hne)

/-- At the first field that is skipped the loop goes on with the first contained type. -/
theorem loopPath_split {V : ValPtr} {pre post : List (TyPtr × Option ℤ)} {x : TyPtr × Option ℤ}
    (h : accessPath E V = pre ++ x :: post) (hpre : ∀ y ∈ pre, ¬ SkipsField E y)
    (hx : SkipsField E x) :
    loopPath E V = pre ++ x :: belowFirstField E x.1 ((fieldIndices E V).drop (pre.length + 1)) := by
  have hfirst : loopStep E x = 0 := by rw [loopStep, trackedField_of_skipsField hx]; rfl
  unfold loopPath accessPath at *
  cases hT : gepType E V with
  | none => simp [hT] at h
  | some T =>
    simp only [hT, Option.map_some, Option.getD_some] at h ⊢
    rw [visitedTypes_split h fun y hy => not_not.mp fun hne =>
      hpre y hy ((skipsField_iff y).mpr hne), visitedAfter, hfirst]
    rfl

/-- The pairs for which an update calls `GetStructFieldTag` at a GEP are the tracked fields on
its path iff no field is skipped, or what the remaining indices name below the first field of
the struct has the same tracked fields (but for those before it). -/
theorem calledPairs_right_iff (V : ValPtr) :
    (isRefed E V = true ∨ isModed E V = true → ∀ p,
      p ∈ calledPairs E V ↔ p ∈ (accessPath E V).filterMap (trackedField E)) ↔
    (isRefed E V = true ∨ isModed E V = true → ∀ pre x post,
      accessPath E V = pre ++ x :: post → (∀ y ∈ pre, ¬ SkipsField E y) → SkipsField E x →
      ∀ p, p ∉ pre.filterMap (trackedField E) →
        (p ∈ post.filterMap (trackedField E) ↔
          p ∈ (belowFirstField E x.1 ((fieldIndices E V).drop (pre.length + 1))).filterMap
            (trackedField E))) := by
  have hsplit : ∀ (pre after : List (TyPtr × Option ℤ)) (x : TyPtr × Option ℤ), SkipsField E x →
      ∀ p, p ∈ (pre ++ x :: after).filterMap (trackedField E) ↔
        p ∈ pre.filterMap (trackedField E) ∨ p ∈ after.filterMap (trackedField E) := by
    intro pre after x hx p
    rw [List.filterMap_append, List.filterMap_cons, trackedField_of_skipsField hx,
      List.mem_append]
  constructor
  · intro h haccess pre x post hpath hpre hx p hp
    have hiff := h haccess p
    rw [calledPairs_eq haccess, loopPath_split hpath hpre hx, hpath, hsplit _ _ _ hx,
      hsplit _ _ _ hx] at hiff
    tauto
  · intro h haccess p
    rw [calledPairs_eq haccess]
    rcases first_skipped (accessPath E V) with hall | ⟨pre, x, post, hpath, hpre, hx⟩
    · rw [loopPath_eq_accessPath hall]
    · have hiff := h haccess pre x post hpath hpre hx p
      rw [loopPath_split hpath hpre hx, hpath, hsplit _ _ _ hx, hsplit _ _ _ hx]
      tauto

/-- `struct.anon` is not tracked; its second field is `struct.inner`. -/
def innerOfAnon : Env :=
  let M : Module :=
    { values := [
        { kind := .function { name := "f", insts := [2, 3] } },
        { kind := .argument, ty := 3, users := [2] },
        { kind := .instruction (.gep 2), ty := 3, operands := [1, 4, 5, 5], users := [3] },
        { kind := .instruction .load, operands := [2] },
        { kind := .constantInt 0 },
        { kind := .constantInt 1 }]
      types := [
        { kind := .other 13, printed := "i32" },
        { kind := .struct (some "struct.inner") false [0, 0], printed := "%struct.inner" },
        { kind := .struct (some "struct.anon") false [0, 1], printed := "%struct.anon" },
        { kind := .pointer 2, printed := "%struct.anon*" }]
      functions := [0]
      names_nodup := by decide
      functions_listed := by decide }
  Env.ofModules [M]

/-- The load from field 1 of `struct.inner` is not tagged. -/
theorem innerOfAnon_missed : ¬ (isRefed innerOfAnon ⟨0, 2⟩ = true ∨
    isModed innerOfAnon ⟨0, 2⟩ = true → ∀ p, p ∈ calledPairs innerOfAnon ⟨0, 2⟩ ↔
      p ∈ (accessPath innerOfAnon ⟨0, 2⟩).filterMap (trackedField innerOfAnon)) := by
  intro h
  have hpair := (h (Or.inl (by decide)) ("struct.inner", 1)).mpr (by decide)
  revert hpair
  decide

end OperationLevelAnalyzer

end Cisa
