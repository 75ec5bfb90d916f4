import Cisa.AnalyzerManager.Commits

/-!
# The range of lines of a function

`_GetChangedFuncs` takes the lines from the prototype to the last instruction of the last
block. The blocks are not in the order of the source, and the last instruction need not have
a line; then the range ends early, or is empty.
-/

namespace Cisa

open Std

namespace AnalyzerManager

variable (E : Env)

/-- Some instruction of `F` has the line, and its location belongs to the text of `F`: `own`
tells these locations from the ones that come from inlined functions. -/
def OwnLine (own : ValPtr → Prop) (F : FuncPtr) (l : ℤ) : Prop :=
  ∃ I ∈ E.insts F, own I ∧ ∃ k : ℕ, (E.value I).debugLine = some k ∧ l = k

/-- A function is detected whenever a changed line lies between its prototype and a line of
its own text. -/
def DetectsChanges (own : ValPtr → Prop) (funcs : FuncSet) (chLines : List ℤ) : Prop :=
  ∀ F ∈ funcs, ∀ l, OwnLine E own F l → ∀ chLine ∈ chLines,
    getPrototypeLine E F ≤ chLine → chLine ≤ l → F ∈ getChangedFuncs E funcs chLines

/-- The line belongs to the text of `F` and comes after the line of the last instruction. -/
def PastTail (own : ValPtr → Prop) (F : FuncPtr) (chLine : ℤ) : Prop :=
  tailLine E F < chLine ∧ getPrototypeLine E F ≤ chLine ∧ ∃ l, OwnLine E own F l ∧ chLine ≤ l

variable {E} {own : ValPtr → Prop} {funcs : FuncSet} {chLines : List ℤ} {F : FuncPtr}

theorem mem_getChangedFuncs : F ∈ getChangedFuncs E funcs chLines ↔
    F ∈ funcs ∧ ∃ chLine ∈ chLines, getPrototypeLine E F ≤ chLine ∧ chLine ≤ tailLine E F := by
  simp [getChangedFuncs]

/-- For given changed lines: no function is missed as long as every function with a changed
line past its last instruction has another one before it. -/
theorem detectsChanges_iff : DetectsChanges E own funcs chLines ↔
    ∀ F ∈ funcs, (∃ chLine ∈ chLines, PastTail E own F chLine) →
      ∃ chLine ∈ chLines, getPrototypeLine E F ≤ chLine ∧ chLine ≤ tailLine E F := by
  constructor
  · rintro h F hF ⟨chLine, hchLine, _, hhead, l, hl, hle⟩
    exact (mem_getChangedFuncs.mp (h F hF l hl chLine hchLine hhead hle)).2
  · intro h F hF l hl chLine hchLine hhead hle
    apply mem_getChangedFuncs.mpr
    refine ⟨hF, ?_⟩
    by_cases htail : chLine ≤ tailLine E F
    · exact ⟨chLine, hchLine, hhead, htail⟩
    · have hpast : tailLine E F < chLine := by omega
      exact h F hF ⟨chLine, hchLine, hpast, hhead, l, hl, hle⟩

/-- For all changed lines: the last instruction of every function must have the last line of
the text of the function. -/
theorem detectsChanges_forall_iff : (∀ chLines, DetectsChanges E own funcs chLines) ↔
    ∀ F ∈ funcs, ∀ l, OwnLine E own F l → getPrototypeLine E F ≤ l → l ≤ tailLine E F := by
  constructor
  · intro h F hF l hl hhead
    have hmem := h [l] F hF l hl l (List.mem_singleton_self l) hhead le_rfl
    obtain ⟨_, chLine, hchLine, _, htail⟩ := mem_getChangedFuncs.mp hmem
    rwa [List.mem_singleton.mp hchLine] at htail
  · intro h chLines
    apply detectsChanges_iff.mpr
    rintro F hF ⟨chLine, _, htail, hhead, l, hl, hle⟩
    have hlast := h F hF l hl (hhead.trans hle)
    omega

/-- Which changes are detected: for given changed lines, and for all of them. -/
theorem getChangedFuncs_complete_iff (own : ValPtr → Prop) (funcs : FuncSet) :
    (∀ chLines, DetectsChanges E own funcs chLines ↔
      ∀ F ∈ funcs, (∃ chLine ∈ chLines, PastTail E own F chLine) →
        ∃ chLine ∈ chLines, getPrototypeLine E F ≤ chLine ∧ chLine ≤ tailLine E F) ∧
    ((∀ chLines, DetectsChanges E own funcs chLines) ↔
      ∀ F ∈ funcs, ∀ l, OwnLine E own F l → getPrototypeLine E F ≤ l → l ≤ tailLine E F) :=
  ⟨fun _ => detectsChanges_iff, detectsChanges_forall_iff⟩

/-- The store of line 12 comes before a return without a location. -/
def lastWithoutLine : Env := Env.ofModules [
  { values := [
      { kind := .function { name := "f", insts := [1, 2], subprogramLine := some 10 } },
      { kind := .instruction .store, debugLine := some 12 },
      { kind := .instruction .other }]
    types := []
    functions := [0]
    names_nodup := by decide
    functions_listed := by decide }]

theorem lastWithoutLine_missed :
    ¬ DetectsChanges lastWithoutLine (fun _ => True) (ExtTreeSet.ofElems [⟨0, 0⟩]) [12] := by
  intro h
  have hline : OwnLine lastWithoutLine (fun _ => True) ⟨0, 0⟩ 12 :=
    ⟨⟨0, 1⟩, by decide, trivial, 12, by decide, rfl⟩
  have hmem := h ⟨0, 0⟩ (by simp) 12 hline 12 (by simp) (by decide) le_rfl
  obtain ⟨_, chLine, hchLine, _, htail⟩ := mem_getChangedFuncs.mp hmem
  rw [List.mem_singleton.mp hchLine] at htail
  exact absurd htail (by decide)

end AnalyzerManager

end Cisa
