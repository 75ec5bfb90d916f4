import Cisa.CallGraph.TypeDive
import Cisa.Lib.Fold

/-!
# The module tables and the extended list of an update

`Tables` says that the three module tables describe one set of loaded modules.
`Extends` describes the list on which an update works: the updated files in their
order, and between them the affected modules, which are loaded already.
-/

namespace Cisa

open Std

/-- A path with the module its file parses to, for files that parse. -/
abbrev ParsedFile := String × ModPtr

namespace TypeDive

variable {E : Env}

def parsed (files : List ParsedFile) : List BCFile := files.map fun f => (f.1, some f.2)

/-- The three module tables agree; every path and every module is loaded once. -/
structure Tables (ctx : GlobalContext) : Prop where
  paths_nodup : (ctx.modules.map Prod.snd).Nodup
  mods_nodup : (ctx.modules.map Prod.fst).Nodup
  moduleMaps : ∀ (M : ModPtr) (p : String), ctx.moduleMaps[M]? = some p ↔ (M, p) ∈ ctx.modules
  moduleRevMaps : ∀ (p : String) (x : Option ModPtr),
    ctx.moduleRevMaps[p]? = some x ↔ ∃ M, x = some M ∧ (M, p) ∈ ctx.modules

/-- The modules that are loaded after the files have replaced the ones of their paths. -/
def nextModules (modules : List (ModPtr × String)) (files : List ParsedFile) :
    List (ModPtr × String) :=
  modules.filter (fun m => m.2 ∉ files.map Prod.fst) ++ files.map Prod.swap

theorem mem_nextModules {modules : List (ModPtr × String)} {files : List ParsedFile}
    {M : ModPtr} {p : String} : (M, p) ∈ nextModules modules files ↔
      (M, p) ∈ modules ∧ p ∉ files.map Prod.fst ∨ (p, M) ∈ files := by
  have hswap : (M, p) ∈ files.map Prod.swap ↔ (p, M) ∈ files := by
    simp
  rw [nextModules, List.mem_append, List.mem_filter, hswap]
  simp

theorem seen_of_nextModules {modules : List (ModPtr × String)} {files : List ParsedFile}
    {seen : List ModPtr} (hseen : ∀ M ∈ modules.map Prod.fst, M ∈ seen) :
    ∀ M ∈ (nextModules modules files).map Prod.fst, M ∈ files.map Prod.snd ++ seen := by
  intro M hM
  obtain ⟨⟨N, p⟩, hN, rfl⟩ := List.mem_map.mp hM
  rcases mem_nextModules.mp hN with ⟨hN, _⟩ | hN
  · exact List.mem_append_right _ (hseen _ (List.mem_map.mpr ⟨_, hN, rfl⟩))
  · exact List.mem_append_left _ (List.mem_map.mpr ⟨_, hN, rfl⟩)

namespace Tables

theorem empty : Tables {} := by
  refine ⟨by simp, by simp, by simp, by simp⟩

variable {ctx : GlobalContext}

theorem eq_of_path (h : Tables ctx) {M N : ModPtr} {p : String} (hM : (M, p) ∈ ctx.modules)
    (hN : (N, p) ∈ ctx.modules) : M = N := by
  have heq := List.inj_on_of_nodup_map h.paths_nodup hM hN rfl
  exact congrArg Prod.fst heq

theorem eq_of_mod (h : Tables ctx) {M : ModPtr} {p q : String} (hp : (M, p) ∈ ctx.modules)
    (hq : (M, q) ∈ ctx.modules) : p = q := by
  have heq := List.inj_on_of_nodup_map h.mods_nodup hp hq rfl
  exact congrArg Prod.snd heq

theorem filter_path (h : Tables ctx) {M : ModPtr} {p : String} (hM : (M, p) ∈ ctx.modules) :
    ctx.modules.filter (fun m => m.2 = p) = [(M, p)] := by
  have hnd : (ctx.modules.filter fun m => m.2 = p).Nodup := h.paths_nodup.of_map.filter _
  apply List.perm_singleton.mp
  rw [List.perm_ext_iff_of_nodup hnd (List.nodup_singleton _)]
  rintro ⟨N, q⟩
  rw [List.mem_filter, List.mem_singleton]
  constructor
  · rintro ⟨hN, hq⟩
    obtain rfl := of_decide_eq_true hq
    rw [h.eq_of_path hN hM]
  · rintro ⟨⟩
    exact ⟨hM, by simp⟩

theorem add (h : Tables ctx) {M : ModPtr} {path : String} (hM : M ∉ ctx.modules.map Prod.fst)
    (hp : path ∉ ctx.modules.map Prod.snd) : Tables (addModule ctx M path) := by
  have hM' : ∀ q, (M, q) ∉ ctx.modules := fun q hq => hM (List.mem_map.mpr ⟨_, hq, rfl⟩)
  have hp' : ∀ N, (N, path) ∉ ctx.modules := fun N hN => hp (List.mem_map.mpr ⟨_, hN, rfl⟩)
  refine ⟨?_, ?_, ?_, ?_⟩
  · simp only [addModule, List.map_append, List.map_cons, List.map_nil]
    exact h.paths_nodup.append (by simp) (by simpa using hp)
  · simp only [addModule, List.map_append, List.map_cons, List.map_nil]
    exact h.mods_nodup.append (by simp) (by simpa using hM)
  · intro N q
    simp only [addModule, ExtTreeMap.getElem?_insert_eq_ite, List.mem_append,
      List.mem_singleton, Prod.mk.injEq]
    split_ifs with hMN
    · subst hMN
      simp [hM', eq_comm]
    · simp [h.moduleMaps, Ne.symm hMN]
  · intro q x
    simp only [addModule, ExtTreeMap.getElem?_insert_eq_ite, List.mem_append,
      List.mem_singleton, Prod.mk.injEq]
    split_ifs with hq
    · subst hq
      simp [hp', eq_comm]
    · simp [h.moduleRevMaps, Ne.symm hq]

theorem modules_removeModule (h : Tables ctx) (path : String) :
    (removeModule ctx path).modules = ctx.modules.filter fun m => m.2 ≠ path := by
  have hfilter : ∀ modules : List (ModPtr × String), (modules.map Prod.snd).Nodup →
      modules.eraseP (fun m => m.2 = path) = modules.filter fun m => m.2 ≠ path := by
    intro modules hnd
    induction modules with
    | nil => rfl
    | cons m modules ih =>
      rw [List.map_cons, List.nodup_cons] at hnd
      by_cases hm : m.2 = path
      · have hrest : ∀ m' ∈ modules, m'.2 ≠ path := by
          intro m' hm' heq
          exact hnd.1 (List.mem_map.mpr ⟨m', hm', heq.trans hm.symm⟩)
        rw [List.eraseP_cons_of_pos (by simpa using hm),
          List.filter_cons_of_neg (by simpa using hm)]
        exact (List.filter_eq_self.mpr (by simpa using hrest)).symm
      · simp [hm, ih hnd.2]
  exact hfilter ctx.modules h.paths_nodup

theorem mem_modules_removeModule (h : Tables ctx) {M : ModPtr} {p path : String} :
    (M, p) ∈ (removeModule ctx path).modules ↔ (M, p) ∈ ctx.modules ∧ p ≠ path := by
  rw [h.modules_removeModule, List.mem_filter]
  simp

theorem remove (h : Tables ctx) (path : String) : Tables (removeModule ctx path) := by
  have hsub : ((removeModule ctx path).modules).Sublist ctx.modules := List.eraseP_sublist
  refine ⟨h.paths_nodup.sublist (hsub.map _), h.mods_nodup.sublist (hsub.map _), ?_, ?_⟩
  · intro M p
    rw [h.mem_modules_removeModule, ← h.moduleMaps]
    simp only [removeModule]
    cases hfind : ctx.moduleMaps.toList.find? fun e => e.2 = path with
    | none =>
      rw [List.find?_eq_none] at hfind
      constructor
      · intro hM
        refine ⟨hM, ?_⟩
        rintro rfl
        exact hfind (M, p) (by simpa using hM) (by simp)
      · exact And.left
    | some e =>
      have he : ctx.moduleMaps[e.1]? = some path := by
        have hmem := List.mem_of_find?_eq_some hfind
        have hpath := List.find?_some hfind
        rw [← of_decide_eq_true hpath]
        exact ExtTreeMap.mem_toList_iff_getElem?_eq_some.mp hmem
      rw [ExtTreeMap.getElem?_erase_eq_ite]
      split_ifs with heM
      · subst heM
        simp [he, eq_comm]
      · constructor
        · intro hM
          refine ⟨hM, ?_⟩
          rintro rfl
          exact heM (h.eq_of_path ((h.moduleMaps _ _).mp he) ((h.moduleMaps _ _).mp hM))
        · exact And.left
  · intro p x
    simp only [h.mem_modules_removeModule]
    simp only [removeModule, ExtTreeMap.getElem?_erase_eq_ite]
    split_ifs with hp
    · subst hp
      simp
    · simp [h.moduleRevMaps, Ne.symm hp]

end Tables

/-- The tables without the two that are cleaned up while the list is extended. -/
def forgetPaths (ctx : GlobalContext) : GlobalContext :=
  { ctx with callerPaths := ∅, candCallerPaths := ∅ }

/-- The module at the path is recorded as one that calls into the file. -/
def CallsInto (E : Env) (ctx : GlobalContext) (p : String) (f : ParsedFile) : Prop :=
  p ∈ ctx.callerPaths.row f.1 ∨
    ∃ F ∈ E.functions f.2, (E.function F).hasAddressTaken = true ∧
      p ∈ ctx.candCallerPaths.row (E.funcHash F false)

structure CallersLoaded (ctx : GlobalContext) : Prop where
  callerPaths : ∀ q, ∀ p ∈ ctx.callerPaths.row q, p ∈ ctx.modules.map Prod.snd
  candCallerPaths : ∀ h, ∀ p ∈ ctx.candCallerPaths.row h, p ∈ ctx.modules.map Prod.snd

/-- The list of an update after some of its files have been loaded. -/
structure Extends (ctx : GlobalContext) (paths : List String) (done : List ParsedFile)
    (x : Extension) : Prop where
  frame : forgetPaths x.ctx = forgetPaths ctx
  listed : x.mlist.filter (fun e => e.2 ∈ paths) = done.map fun f => (some f.2, f.1)
  affected : ∀ e ∈ x.mlist, e.2 ∉ paths → e.2 ∈ x.affSet ∧
    ∃ M, e.1 = some M ∧ (M, e.2) ∈ ctx.modules
  affSet : ∀ p ∈ x.affSet, p ∉ paths ∧ p ∈ x.mlist.map Prod.snd
  nodup : (x.mlist.map Prod.snd).Nodup

theorem mem_affSet_addAff {paths : List String} {x : Extension} {path p : String} :
    p ∈ (addAff paths x path).affSet ↔ p ∈ x.affSet ∨ path = p ∧ p ∉ paths := by
  unfold addAff
  split_ifs with h1 h2
  · constructor
    · exact Or.inl
    · rintro (h | ⟨rfl, h⟩)
      · exact h
      · exact absurd h1 h
  · constructor
    · exact Or.inl
    · rintro (h | ⟨rfl, _⟩)
      · exact h
      · exact h2
  · simp only [ExtTreeSet.mem_insert, LawfulEqCmp.compare_eq_iff_eq]
    constructor
    · rintro (rfl | h)
      · exact Or.inr ⟨rfl, h1⟩
      · exact Or.inl h
    · rintro (h | ⟨rfl, _⟩)
      · exact Or.inr h
      · exact Or.inl rfl

theorem Extends.addAff {ctx : GlobalContext} (ht : Tables ctx) {paths : List String}
    {done : List ParsedFile} {x : Extension} (h : Extends ctx paths done x) {path : String}
    (hpath : path ∈ ctx.modules.map Prod.snd) :
    Extends ctx paths done (addAff paths x path) := by
  unfold TypeDive.addAff
  split_ifs with h1 h2
  · exact h
  · exact h
  · obtain ⟨⟨M, q⟩, hM, rfl⟩ := List.mem_map.mp hpath
    have hrev : x.ctx.moduleRevMaps[q]? = some (some M) := by
      have hsame : (forgetPaths x.ctx).moduleRevMaps = ctx.moduleRevMaps := by
        rw [h.frame]
        rfl
      exact hsame ▸ (ht.moduleRevMaps _ _).mpr ⟨M, rfl, hM⟩
    have hget : x.ctx.moduleRevMaps.getD q none = some M := by
      rw [ExtTreeMap.getD_eq_getD_getElem?, hrev, Option.getD_some]
    have hnew : q ∉ x.mlist.map Prod.snd := by
      intro hq
      obtain ⟨e, he, hee⟩ := List.mem_map.mp hq
      exact h2 (hee ▸ (h.affected e he (by rwa [hee])).1)
    dsimp only
    rw [hget, ExtTreeMap.insert_eq_self hrev]
    refine ⟨h.frame, ?_, ?_, ?_, ?_⟩
    · simpa [List.filter_append, h1] using h.listed
    · intro e he hep
      rcases List.mem_append.mp he with he | he
      · obtain ⟨haff, hmod⟩ := h.affected e he hep
        exact ⟨by simp [haff], hmod⟩
      · obtain rfl := List.mem_singleton.mp he
        exact ⟨by simp, M, rfl, hM⟩
    · intro p hp
      simp only [ExtTreeSet.mem_insert, LawfulEqCmp.compare_eq_iff_eq] at hp
      rcases hp with rfl | hp
      · exact ⟨h1, by simp⟩
      · obtain ⟨hlist, hmem⟩ := h.affSet p hp
        exact ⟨hlist, by simpa using Or.inl (by simpa using hmem)⟩
    · simp only [List.map_append, List.map_cons, List.map_nil]
      exact h.nodup.append (by simp) (by simpa using hnew)

def callerTables (x : Extension) : SortedMap String (SortedSet String) × SortedMap SizeT (SortedSet String) :=
  (x.ctx.callerPaths, x.ctx.candCallerPaths)

theorem callerTables_addAff (paths : List String) (x : Extension) (path : String) :
    callerTables (addAff paths x path) = callerTables x := by
  unfold addAff
  split_ifs <;> rfl

theorem callerTables_addCandCallers (paths : List String) (x : Extension) (F : FuncPtr) :
    callerTables (addCandCallers E paths x F) = callerTables x := by
  unfold addCandCallers
  split_ifs
  · exact Fold.foldl_frame (callerTables_addAff paths) _ _
  · rfl

theorem mem_affSet_addAffs {paths : List String} {x : Extension} {ps : List String} {p : String} :
    p ∈ (ps.foldl (addAff paths) x).affSet ↔ p ∈ x.affSet ∨ p ∈ ps ∧ p ∉ paths := by
  rw [Fold.foldl_or (f := addAff paths) (P := fun x => p ∈ x.affSet)
    fun x path => mem_affSet_addAff]
  simp

/-- The part of one iteration between the two clean-ups. -/
def addCallers (E : Env) (paths : List String) (x : Extension) (f : ParsedFile) : Extension :=
  let x := (E.functions f.2).foldl (addCandCallers E paths) x
  (x.ctx.callerPaths.row f.1).toList.foldl (addAff paths) x

theorem callerTables_addCallers (paths : List String) (x : Extension) (f : ParsedFile) :
    callerTables (addCallers E paths x f) = callerTables x := by
  unfold addCallers
  exact (Fold.foldl_frame (callerTables_addAff paths) _ _).trans
    (Fold.foldl_frame (callerTables_addCandCallers paths) _ _)

theorem mem_affSet_addCallers {paths : List String} {x : Extension} {f : ParsedFile} {p : String} :
    p ∈ (addCallers E paths x f).affSet ↔
      p ∈ x.affSet ∨ CallsInto E x.ctx p f ∧ p ∉ paths := by
  unfold addCallers
  have htables : callerTables ((E.functions f.2).foldl (addCandCallers E paths) x) =
      callerTables x := Fold.foldl_frame (callerTables_addCandCallers paths) _ _
  have hcallers := congrArg Prod.fst htables
  simp only [callerTables] at hcallers
  dsimp only
  rw [mem_affSet_addAffs, hcallers, ExtTreeSet.mem_toList]
  rw [Fold.foldl_or_of (f := addCandCallers E paths) (P := fun x => p ∈ x.affSet)
    (I := fun y => callerTables y = callerTables x)
    (Q := fun F => (E.function F).hasAddressTaken = true ∧
      p ∈ x.ctx.candCallerPaths.row (E.funcHash F false) ∧ p ∉ paths) rfl]
  · simp only [CallsInto]
    constructor
    · rintro ((h | ⟨F, hF, hat, hp, hpaths⟩) | ⟨h, hpaths⟩)
      · exact Or.inl h
      · exact Or.inr ⟨Or.inr ⟨F, hF, hat, hp⟩, hpaths⟩
      · exact Or.inr ⟨Or.inl h, hpaths⟩
    · rintro (h | ⟨h | ⟨F, hF, hat, hp⟩, hpaths⟩)
      · exact Or.inl (Or.inl h)
      · exact Or.inr ⟨h, hpaths⟩
      · exact Or.inl (Or.inr ⟨F, hF, hat, hp, hpaths⟩)
  · intro y F _ hy
    refine ⟨(callerTables_addCandCallers paths y F).trans hy, ?_⟩
    have hcand := congrArg Prod.snd hy
    simp only [callerTables] at hcand
    unfold addCandCallers
    split_ifs with hat
    · rw [mem_affSet_addAffs, hcand, ExtTreeSet.mem_toList]
      simp [hat]
    · simp [hat]

theorem Extends.addCallers {ctx : GlobalContext} (ht : Tables ctx) {paths : List String}
    {done : List ParsedFile} {x : Extension} (h : Extends ctx paths done x) {f : ParsedFile}
    (hload : ∀ p, CallsInto E x.ctx p f → p ∈ ctx.modules.map Prod.snd) :
    Extends ctx paths done (addCallers E paths x f) := by
  have hall : ∀ (ps : List String) (y : Extension), Extends ctx paths done y →
      (∀ p ∈ ps, p ∈ ctx.modules.map Prod.snd) →
      Extends ctx paths done (ps.foldl (TypeDive.addAff paths) y) := by
    intro ps y hy hps
    exact Fold.foldl_invariant hy fun z p hp hz => hz.addAff ht (hps p hp)
  have hcand := Fold.foldl_invariant (f := addCandCallers E paths) (l := E.functions f.2) (s := x)
    (I := fun y => callerTables y = callerTables x ∧ Extends ctx paths done y) ⟨rfl, h⟩ ?_
  · apply hall _ _ hcand.2
    intro p hp
    have hcallers := congrArg Prod.fst hcand.1
    simp only [callerTables] at hcallers
    rw [hcallers, ExtTreeSet.mem_toList] at hp
    exact hload p (Or.inl hp)
  · intro y F hF hy
    refine ⟨(callerTables_addCandCallers paths y F).trans hy.1, ?_⟩
    have hcands := congrArg Prod.snd hy.1
    simp only [callerTables] at hcands
    unfold addCandCallers
    split_ifs with hat
    · apply hall _ _ hy.2
      intro p hp
      rw [hcands, ExtTreeSet.mem_toList] at hp
      exact hload p (Or.inr ⟨F, hF, hat, hp⟩)
    · exact hy.2

/-- What is known of the extended list after the files in `done`. -/
structure Extended (E : Env) (ctx : GlobalContext) (paths : List String) (done : List ParsedFile)
    (x : Extension) : Prop extends Extends ctx paths done x where
  mem_affSet : ∀ p, p ∈ x.affSet ↔ (∃ f ∈ done, CallsInto E ctx p f) ∧ p ∉ paths
  callerPaths : ∀ q p, p ∈ x.ctx.callerPaths.row q ↔
    p ∈ ctx.callerPaths.row q ∧ q ∉ done.map Prod.fst ∧ p ∉ done.map Prod.fst
  candCallerPaths : ∀ h p, p ∈ x.ctx.candCallerPaths.row h ↔
    p ∈ ctx.candCallerPaths.row h ∧ p ∉ done.map Prod.fst

def addListed (x : Extension) (f : ParsedFile) : Extension :=
  eraseCandCallerPath { x with mlist := x.mlist ++ [(some f.2, f.1)] } f.1

section Listed

variable {ctx : GlobalContext} {paths : List String} {done : List ParsedFile} {x : Extension}
  {f : ParsedFile}

theorem extend_eq : TypeDive.extend E paths x (f.1, some f.2) =
    eraseCallerPath (TypeDive.addCallers E paths (addListed x f) f) f.1 := rfl

theorem mem_paths_concat {p : String} :
    p ∈ (done ++ [f]).map Prod.fst ↔ p ∈ done.map Prod.fst ∨ p = f.1 := by
  simp

theorem Extended.candCallerPaths_addListed (h : Extended E ctx paths done x) {hash : SizeT}
    {p : String} : p ∈ (addListed x f).ctx.candCallerPaths.row hash ↔
      p ∈ ctx.candCallerPaths.row hash ∧ p ∉ (done ++ [f]).map Prod.fst := by
  simp only [addListed, eraseCandCallerPath, ExtTreeMap.mem_row_eraseInRows, h.candCallerPaths,
    mem_paths_concat]
  tauto

/-- The callers of a new file that are not listed are those before the update. -/
theorem Extended.callsInto_addListed (h : Extended E ctx paths done x) (hf : f.1 ∈ paths)
    (hnew : f.1 ∉ done.map Prod.fst) (hdone : ∀ g ∈ done, g.1 ∈ paths) {p : String}
    (hp : p ∉ paths) : CallsInto E (addListed x f).ctx p f ↔ CallsInto E ctx p f := by
  have hpdone : p ∉ done.map Prod.fst := by
    intro hmem
    obtain ⟨g, hg, rfl⟩ := List.mem_map.mp hmem
    exact hp (hdone g hg)
  have hpf : p ≠ f.1 := by
    rintro rfl
    exact hp hf
  have hcallers : p ∈ (addListed x f).ctx.callerPaths.row f.1 ↔ p ∈ ctx.callerPaths.row f.1 := by
    show p ∈ x.ctx.callerPaths.row f.1 ↔ _
    rw [h.callerPaths]
    exact and_iff_left ⟨hnew, hpdone⟩
  have hcands : ∀ hash, p ∈ (addListed x f).ctx.candCallerPaths.row hash ↔
      p ∈ ctx.candCallerPaths.row hash := by
    intro hash
    rw [h.candCallerPaths_addListed]
    exact and_iff_left fun hmem => (mem_paths_concat.mp hmem).elim hpdone hpf
  simp only [CallsInto, hcallers, hcands]

theorem Extends.concat (h : Extends ctx paths done x) (hf : f.1 ∈ paths)
    (hnew : f.1 ∉ done.map Prod.fst) : Extends ctx paths (done ++ [f]) (addListed x f) := by
  have hfnew : f.1 ∉ x.mlist.map Prod.snd := by
    intro hmem
    obtain ⟨e, he, heq⟩ := List.mem_map.mp hmem
    have hfilter : e ∈ x.mlist.filter fun e => e.2 ∈ paths := by
      simpa [he, heq] using hf
    rw [h.listed] at hfilter
    obtain ⟨g, hg, rfl⟩ := List.mem_map.mp hfilter
    exact hnew (List.mem_map.mpr ⟨g, hg, heq⟩)
  refine ⟨h.frame, ?_, ?_, ?_, ?_⟩
  · simp [addListed, eraseCandCallerPath, List.filter_append, h.listed, hf]
  · intro e he hep
    rcases List.mem_append.mp he with he | he
    · exact h.affected e he hep
    · obtain rfl := List.mem_singleton.mp he
      exact absurd hf hep
  · intro p hp
    obtain ⟨hpaths, hmem⟩ := h.affSet p hp
    refine ⟨hpaths, ?_⟩
    simp only [addListed, eraseCandCallerPath, List.map_append, List.mem_append]
    exact Or.inl hmem
  · simp only [addListed, eraseCandCallerPath, List.map_append, List.map_cons, List.map_nil]
    exact h.nodup.append (by simp) (by simpa using hfnew)

theorem Extended.loaded_of_callsInto (h : Extended E ctx paths done x) (hc : CallersLoaded ctx)
    {p : String} (hp : CallsInto E (addListed x f).ctx p f) : p ∈ ctx.modules.map Prod.snd := by
  rcases hp with hp | ⟨F, _, _, hp⟩
  · exact hc.callerPaths _ p ((h.callerPaths _ p).mp hp).1
  · exact hc.candCallerPaths _ p (h.candCallerPaths_addListed.mp hp).1

theorem Extended.extend (ht : Tables ctx) (hc : CallersLoaded ctx)
    (h : Extended E ctx paths done x) (hf : f.1 ∈ paths)
    (hnew : f.1 ∉ done.map Prod.fst) (hdone : ∀ g ∈ done, g.1 ∈ paths) :
    Extended E ctx paths (done ++ [f]) (TypeDive.extend E paths x (f.1, some f.2)) := by
  have hcalled := (h.toExtends.concat hf hnew).addCallers (E := E) ht
    fun p => h.loaded_of_callsInto hc
  have htables := callerTables_addCallers (E := E) paths (addListed x f) f
  rw [extend_eq]
  refine ⟨⟨hcalled.frame, hcalled.listed, hcalled.affected, hcalled.affSet, hcalled.nodup⟩,
    ?_, ?_, ?_⟩
  · intro p
    show p ∈ (TypeDive.addCallers E paths (addListed x f) f).affSet ↔ _
    rw [mem_affSet_addCallers]
    have hold : p ∈ (addListed x f).affSet ↔ (∃ g ∈ done, CallsInto E ctx p g) ∧ p ∉ paths :=
      h.mem_affSet p
    rw [hold]
    by_cases hp : p ∈ paths
    · simp [hp]
    · rw [h.callsInto_addListed hf hnew hdone hp]
      simp [hp, or_and_right, exists_or]
  · intro q p
    have hcallers := congrArg Prod.fst htables
    simp only [callerTables] at hcallers
    simp only [eraseCallerPath, ExtTreeMap.mem_row_eraseInRows, ExtTreeMap.mem_row_erase, hcallers]
    have hold : p ∈ (addListed x f).ctx.callerPaths.row q ↔ _ := h.callerPaths q p
    rw [hold, mem_paths_concat, mem_paths_concat, not_or, not_or, ne_comm, ne_comm (b := q)]
    tauto
  · intro hash p
    have hcands := congrArg Prod.snd htables
    simp only [callerTables] at hcands
    simp only [eraseCallerPath, hcands]
    exact h.candCallerPaths_addListed

end Listed

theorem extended_spec {ctx : GlobalContext} (ht : Tables ctx) (hc : CallersLoaded ctx)
    {files : List ParsedFile} (hnd : (files.map Prod.fst).Nodup) :
    Extended E ctx (files.map Prod.fst) files (extended E ctx (parsed files)) := by
  have hgen : ∀ (rest done : List ParsedFile) (x : Extension), files = done ++ rest →
      Extended E ctx (files.map Prod.fst) done x → Extended E ctx (files.map Prod.fst) files
        ((parsed rest).foldl (extend E (files.map Prod.fst)) x) := by
    intro rest
    induction rest with
    | nil =>
      intro done x hfiles hx
      rw [List.append_nil] at hfiles
      exact hfiles ▸ hx
    | cons f rest ih =>
      intro done x hfiles hx
      apply ih (done ++ [f]) _ (by simp [hfiles])
      rw [hfiles, List.map_append, List.map_cons] at hnd
      apply hx.extend ht hc
      · simp [hfiles]
      · exact fun hmem => (List.nodup_append.mp hnd).2.2 _ hmem _ List.mem_cons_self rfl
      · intro g hg
        rw [hfiles, List.map_append]
        exact List.mem_append_left _ (List.mem_map.mpr ⟨g, hg, rfl⟩)
  have hpaths : (parsed files).map Prod.fst = files.map Prod.fst := by
    simp [parsed, Function.comp_def]
  rw [extended, hpaths]
  apply hgen files [] _ rfl
  refine ⟨⟨rfl, rfl, by simp, by simp, by simp⟩, by simp, by simp, by simp⟩

end TypeDive

end Cisa
