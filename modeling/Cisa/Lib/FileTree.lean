import Cisa.Lib.Rows

/-!
# Trees of files

A path lists its names, the last first: the directory of a path is its tail, and what lies at
or below a path ends with it. Whatever a tree has lies in a directory of the tree. Operations
that a file system refuses have no result.
-/

set_option linter.unusedSectionVars false

open Std

/-- What a path names. -/
inductive Node (β : Type*)
  | file (content : β)
  | dir
deriving DecidableEq, Repr

/-- What the paths below a root name. -/
structure FileTree (α β : Type*) [Ord α] [TransOrd α] [LawfulEqOrd α] where
  nodes : SortedMap (List α) (Node β) := ∅
  root_not_mem : [] ∉ nodes := by simp
  dir_of_mem : ∀ n dir, n :: dir ∈ nodes → dir ≠ [] → nodes[dir]? = some .dir := by simp

namespace FileTree

variable {α β : Type*} [Ord α] [TransOrd α] [LawfulEqOrd α] [DecidableEq α] (T : FileTree α β)

/-- The path names a directory; the root is one. -/
def isDir (p : List α) : Bool :=
  p.isEmpty || match T.nodes[p]? with
    | some .dir => true
    | _ => false

theorem isDir_iff {T : FileTree α β} {p : List α} :
    T.isDir p = true ↔ p = [] ∨ T.nodes[p]? = some .dir := by
  unfold isDir
  cases h : T.nodes[p]? with
  | none => simp
  | some x => cases x <;> simp

/-- What has been written into the file of that name. -/
def content (p : List α) : Option β :=
  match T.nodes[p]? with
  | some (.file c) => some c
  | _ => none

theorem content_eq_some {T : FileTree α β} {p : List α} {c : β} :
    T.content p = some c ↔ T.nodes[p]? = some (.file c) := by
  unfold content
  cases h : T.nodes[p]? with
  | none => simp
  | some x => cases x <;> simp

def remove (p : List α) : Option (FileTree α β) :=
  match h : T.nodes[p]? with
  | some (.file _) => some {
      nodes := T.nodes.erase p
      root_not_mem := fun hmem => T.root_not_mem (ExtTreeMap.mem_erase.mp hmem).2
      dir_of_mem := by
        intro n dir hmem hne
        have hdir := T.dir_of_mem n dir (ExtTreeMap.mem_erase.mp hmem).2 hne
        rw [ExtTreeMap.getElem?_erase_eq_ite, if_neg, hdir]
        rintro rfl
        simp [h] at hdir }
  | _ => none

def removeTree (p : List α) : Option (FileTree α β) :=
  if p ≠ [] ∧ T.isDir p = true then some {
    nodes := T.nodes.filter fun q _ => !decide (p <:+ q)
    root_not_mem := by
      intro hmem
      obtain ⟨h, _⟩ := ExtTreeMap.mem_filter.mp hmem
      exact T.root_not_mem h
    dir_of_mem := by
      intro n dir hmem hne
      obtain ⟨h, hkeep⟩ := ExtTreeMap.mem_filter.mp hmem
      have hdir : ¬ p <:+ dir := by
        intro hp
        simp [hp.trans (List.suffix_cons n dir)] at hkeep
      rw [ExtTreeMap.getElem?_filter', T.dir_of_mem n dir h hne]
      simp [hdir] }
  else none

def listdir (p : List α) : Option (List α) :=
  if T.isDir p = true then
    some (T.nodes.keys.filterMap fun
      | [] => none
      | n :: dir => if dir = p then some n else none)
  else none

/-- Name something new, or something else than before, in a directory. -/
def insert (p : List α) (x : Node β) (hp : p ≠ []) (hdir : T.isDir p.tail = true)
    (hno : T.nodes[p]? ≠ some .dir) : FileTree α β where
  nodes := T.nodes.insert p x
  root_not_mem := by
    rw [ExtTreeMap.mem_insert, not_or]
    exact ⟨by simpa using hp, T.root_not_mem⟩
  dir_of_mem := by
    intro n dir hmem hne
    rw [ExtTreeMap.getElem?_insert_eq_ite]
    rw [ExtTreeMap.mem_insert, LawfulEqCmp.compare_eq_iff_eq] at hmem
    by_cases heq : p = n :: dir
    · subst heq
      have hlt : n :: dir ≠ dir := by simp
      rw [if_neg hlt]
      exact (isDir_iff.mp hdir).resolve_left hne
    · have hold := T.dir_of_mem n dir (hmem.resolve_left heq) hne
      rw [if_neg, hold]
      rintro rfl
      exact hno hold

def mkdir (p : List α) : Option (FileTree α β) :=
  if h : p ≠ [] ∧ T.isDir p.tail = true ∧ T.nodes[p]? = none then
    some (T.insert p .dir h.1 h.2.1 (by simp [h.2.2]))
  else none

/-- Create a directory with the directories above it, unless it exists. -/
def makedirs : List α → FileTree α β → Option (FileTree α β)
  | [], T => some T
  | n :: dir, T => do
    let T ← if dir = [] ∨ dir ∈ T.nodes then some T else makedirs dir T
    if T.isDir (n :: dir) = true then some T else T.mkdir (n :: dir)

def write (p : List α) (content : β) : Option (FileTree α β) :=
  if h : p ≠ [] ∧ T.isDir p.tail = true ∧ T.isDir p = false then
    some (T.insert p (.file content) h.1 h.2.1 (by
      intro hno
      have := isDir_iff.mpr (Or.inr hno)
      simp [h.2.2] at this))
  else none

variable {T} {T' : FileTree α β} {p q s : List α} {c : β}

theorem isDir_of_suffix (hs : s ∈ T.nodes) (hq : q <:+ s) (hne : q ≠ s) : T.isDir q = true := by
  induction s with
  | nil => exact absurd (List.suffix_nil.mp hq) hne
  | cons n dir ih =>
    rcases List.suffix_cons_iff.mp hq with heq | hq
    · exact absurd heq hne
    · by_cases hroot : dir = []
      · subst hroot
        exact isDir_iff.mpr (Or.inl (List.suffix_nil.mp hq))
      · have hdir := T.dir_of_mem n dir hs hroot
        by_cases heq : q = dir
        · exact isDir_iff.mpr (Or.inr (heq ▸ hdir))
        · exact ih (ExtTreeMap.mem_iff_isSome_getElem?.mpr (by simp [hdir])) hq heq

theorem mem_of_getElem? {x : Node β} (h : T.nodes[p]? = some x) : p ∈ T.nodes :=
  ExtTreeMap.mem_iff_isSome_getElem?.mpr (by simp [h])

theorem mem_of_suffix (hs : s ∈ T.nodes) (hq : q <:+ s) (hne : q ≠ []) : q ∈ T.nodes := by
  by_cases heq : q = s
  · exact heq ▸ hs
  · exact mem_of_getElem? ((isDir_iff.mp (isDir_of_suffix hs hq heq)).resolve_left hne)

theorem eq_of_suffix_of_file (hfile : T.nodes[p]? = some (.file c)) (hs : s ∈ T.nodes)
    (hp : p <:+ s) : s = p := by
  by_contra hne
  rcases isDir_iff.mp (isDir_of_suffix hs hp (Ne.symm hne)) with rfl | hdir
  · exact T.root_not_mem (mem_of_getElem? hfile)
  · simp [hfile] at hdir

theorem eq_of_suffix_of_childless (hno : ∀ n, n :: p ∉ T.nodes) (hs : s ∈ T.nodes) (hp : p <:+ s) :
    s = p := by
  obtain ⟨t, rfl⟩ := hp
  rcases List.eq_nil_or_concat' t with rfl | ⟨t, n, rfl⟩
  · rfl
  · refine absurd (mem_of_suffix hs (q := n :: p) ⟨t, by simp⟩ (by simp)) (hno n)

theorem listdir_eq_some (h : T.isDir p = true) :
    ∃ names, T.listdir p = some names ∧ (names = [] ↔ ∀ n, n :: p ∉ T.nodes) := by
  refine ⟨_, if_pos h, ?_⟩
  rw [List.filterMap_eq_nil_iff]
  constructor
  · intro hno n hmem
    have := hno (n :: p) (ExtTreeMap.mem_keys.mpr hmem)
    simp at this
  · intro hno q hq
    rw [ExtTreeMap.mem_keys] at hq
    split
    · rfl
    · rename_i n dir
      rw [if_neg]
      rintro rfl
      exact hno n hq

/-- The tree has the nodes of the other that have the property, and no others. -/
def Restricts (T T' : FileTree α β) (K : List α → Prop) : Prop :=
  ∀ q x, T'.nodes[q]? = some x ↔ T.nodes[q]? = some x ∧ K q

theorem remove_eq_some (h : T.nodes[p]? = some (.file c)) :
    ∃ T', T.remove p = some T' ∧ T.Restricts T' (· ≠ p) := by
  unfold remove
  split
  · refine ⟨_, rfl, ?_⟩
    intro q x
    dsimp only
    rw [ExtTreeMap.getElem?_erase_eq_ite]
    split_ifs with hp
    · simp [hp]
    · exact (and_iff_left fun hq => hp hq.symm).symm
  · rename_i hno
    exact absurd h (hno c)

theorem removeTree_eq_some (hne : p ≠ []) (h : T.nodes[p]? = some .dir) :
    ∃ T', T.removeTree p = some T' ∧ T.Restricts T' fun q => ¬ p <:+ q := by
  refine ⟨_, if_pos ⟨hne, isDir_iff.mpr (Or.inr h)⟩, ?_⟩
  intro q x
  dsimp only
  rw [ExtTreeMap.getElem?_filter', Option.filter_eq_some_iff]
  simp

theorem write_eq_some_iff : (∃ T', T.write p c = some T') ↔
    p ≠ [] ∧ T.isDir p.tail = true ∧ T.isDir p = false := by
  unfold write
  split_ifs with h
  · simp [h]
  · simpa using h

theorem getElem?_write (h : T.write p c = some T') (q : List α) :
    T'.nodes[q]? = if p = q then some (.file c) else T.nodes[q]? := by
  unfold write at h
  split_ifs at h
  obtain rfl := Option.some.inj h
  exact ExtTreeMap.getElem?_insert_eq_ite

theorem content_write (h : T.write p c = some T') (q : List α) :
    T'.content q = if p = q then some c else T.content q := by
  rw [content, getElem?_write h]
  split_ifs
  · rfl
  · rfl

/-- There is no file at or above the path. -/
def NoFile (T : FileTree α β) (p : List α) : Prop :=
  ∀ q, q <:+ p → ∀ c, T.nodes[q]? ≠ some (.file c)

theorem noFile_cons {n : α} : T.NoFile (n :: p) ↔
    T.NoFile p ∧ ∀ c, T.nodes[n :: p]? ≠ some (.file c) := by
  unfold NoFile
  simp only [List.suffix_cons_iff]
  constructor
  · exact fun h => ⟨fun q hq => h q (Or.inr hq), h _ (Or.inl rfl)⟩
  · rintro ⟨hp, hn⟩ q (rfl | hq)
    · exact hn
    · exact hp q hq

/-- Above a directory there are directories. -/
theorem noFile_of_isDir (h : T.isDir p = true) : T.NoFile p := by
  intro q hq c hfile
  rcases isDir_iff.mp h with rfl | hdir
  · obtain rfl := List.suffix_nil.mp hq
    exact T.root_not_mem (mem_of_getElem? hfile)
  · obtain rfl := eq_of_suffix_of_file hfile (mem_of_getElem? hdir) hq
    simp [hfile] at hdir

theorem getElem?_of_suffix (h : T.isDir p = true) (hq : q <:+ p) (hne : q ≠ []) :
    T.nodes[q]? = some .dir := by
  rcases isDir_iff.mp h with rfl | hdir
  · exact absurd (List.suffix_nil.mp hq) hne
  · by_cases heq : q = p
    · exact heq ▸ hdir
    · exact (isDir_iff.mp (isDir_of_suffix (mem_of_getElem? hdir) hq heq)).resolve_left hne

/-- One directory is created where the one above it exists, unless one of them is a file. -/
theorem mkdir_spec {n : α} (hexists : p = [] ∨ p ∈ T.nodes) :
    (T.NoFile (n :: p) ∧
      ∃ T', (if T.isDir (n :: p) = true then some T else T.mkdir (n :: p)) = some T' ∧
        ∀ q, T'.nodes[q]? = if q <:+ n :: p ∧ q ≠ [] then some .dir else T.nodes[q]?) ∨
    (¬ T.NoFile (n :: p) ∧
      (if T.isDir (n :: p) = true then some T else T.mkdir (n :: p)) = none) := by
  by_cases hdir : T.isDir (n :: p) = true
  · left
    refine ⟨noFile_of_isDir hdir, T, if_pos hdir, ?_⟩
    intro q
    split_ifs with hq
    · exact getElem?_of_suffix hdir hq.1 hq.2
    · rfl
  rw [if_neg hdir]
  unfold mkdir
  by_cases hp : T.isDir p = true
  · by_cases hnode : T.nodes[n :: p]? = none
    · left
      refine ⟨?_, _, dif_pos ⟨by simp, hp, hnode⟩, ?_⟩
      · rw [noFile_cons]
        exact ⟨noFile_of_isDir hp, by simp [hnode]⟩
      · intro q
        refine ExtTreeMap.getElem?_insert_eq_ite.trans ?_
        by_cases hq : q <:+ n :: p ∧ q ≠ []
        · rw [if_pos hq]
          rcases List.suffix_cons_iff.mp hq.1 with rfl | hq'
          · exact if_pos rfl
          · split_ifs
            · rfl
            · exact getElem?_of_suffix hp hq' hq.2
        · rw [if_neg hq, if_neg]
          rintro rfl
          exact hq ⟨List.suffix_rfl, by simp⟩
    · right
      refine ⟨?_, dif_neg fun h => hnode h.2.2⟩
      intro hno
      obtain ⟨x, hx⟩ := Option.ne_none_iff_exists'.mp hnode
      cases x with
      | file c => exact hno _ List.suffix_rfl c hx
      | dir => exact hdir (isDir_iff.mpr (Or.inr hx))
  · right
    refine ⟨?_, dif_neg fun h => hp h.2.1⟩
    intro hno
    rw [isDir_iff, not_or] at hp
    obtain ⟨x, hx⟩ := Option.isSome_iff_exists.mp
      (ExtTreeMap.mem_iff_isSome_getElem?.mp (hexists.resolve_left hp.1))
    cases x with
    | file c => exact hno p (List.suffix_cons n p) c hx
    | dir => exact hp.2 hx

/-- The directories of a path are created, unless there is a file on the way. -/
theorem makedirs_spec (p : List α) :
    (T.NoFile p ∧ ∃ T', makedirs p T = some T' ∧
      ∀ q, T'.nodes[q]? = if q <:+ p ∧ q ≠ [] then some .dir else T.nodes[q]?) ∨
    (¬ T.NoFile p ∧ makedirs p T = none) := by
  induction p with
  | nil =>
    left
    refine ⟨noFile_of_isDir rfl, T, rfl, ?_⟩
    intro q
    rw [if_neg]
    rintro ⟨hq, hne⟩
    exact hne (List.suffix_nil.mp hq)
  | cons n dir ih =>
    rw [makedirs]
    by_cases hexists : dir = [] ∨ dir ∈ T.nodes
    · rw [if_pos hexists]
      exact mkdir_spec hexists
    · rw [if_neg hexists]
      rw [not_or] at hexists
      have hnone : T.nodes[n :: dir]? = none := by
        by_contra hsome
        obtain ⟨x, hx⟩ := Option.ne_none_iff_exists'.mp hsome
        exact hexists.2 (mem_of_suffix (mem_of_getElem? hx) (List.suffix_cons n dir) hexists.1)
      rcases ih with ⟨hno, T₁, hT₁, hnodes⟩ | ⟨hfile, hT₁⟩
      · rw [hT₁]
        have hdir : T₁.nodes[dir]? = some .dir := by
          rw [hnodes, if_pos ⟨List.suffix_rfl, hexists.1⟩]
        have hnot : ¬ n :: dir <:+ dir := fun h => by simpa using h.length_le
        have hnone₁ : T₁.nodes[n :: dir]? = none := by
          rw [hnodes, if_neg fun h => hnot h.1, hnone]
        have hno₁ : T₁.NoFile (n :: dir) := by
          rw [noFile_cons]
          exact ⟨noFile_of_isDir (isDir_iff.mpr (Or.inr hdir)), by simp [hnone₁]⟩
        have hnoT : T.NoFile (n :: dir) := by
          rw [noFile_cons]
          exact ⟨hno, by simp [hnone]⟩
        rcases mkdir_spec (T := T₁) (n := n) (Or.inr (mem_of_getElem? hdir)) with
          ⟨_, T', hT', hnodes'⟩ | ⟨hfile, _⟩
        · left
          refine ⟨hnoT, T', hT', ?_⟩
          intro q
          rw [hnodes', hnodes]
          by_cases hq : q <:+ n :: dir ∧ q ≠ []
          · rw [if_pos hq, if_pos hq]
          · rw [if_neg hq, if_neg hq, if_neg]
            exact fun h => hq ⟨h.1.trans (List.suffix_cons n dir), h.2⟩
        · exact absurd hno₁ hfile
      · right
        refine ⟨?_, by rw [hT₁]; rfl⟩
        rw [noFile_cons]
        exact fun h => hfile h.1

/-- Something at or below the path is not on the way to one of the removed paths. -/
def Kept (T : FileTree α β) (removed : List (List α)) (q : List α) : Prop :=
  ∃ s ∈ T.nodes, q <:+ s ∧ ∀ r ∈ removed, ¬ s <:+ r

theorem kept_nil (hq : q ∈ T.nodes) : T.Kept [] q := ⟨q, hq, List.suffix_rfl, by simp⟩

theorem Restricts.mem_iff {K : List α → Prop} (h : T.Restricts T' K) :
    q ∈ T'.nodes ↔ q ∈ T.nodes ∧ K q := by
  simp only [ExtTreeMap.mem_iff_isSome_getElem?, Option.isSome_iff_exists]
  constructor
  · rintro ⟨x, hx⟩
    obtain ⟨hT, hq⟩ := (h q x).mp hx
    exact ⟨⟨x, hT⟩, hq⟩
  · rintro ⟨⟨x, hx⟩, hq⟩
    exact ⟨x, (h q x).mpr ⟨hx, hq⟩⟩

/-- Removing paths in turn keeps what all of them together keep. -/
theorem Restricts.kept_cons {r : List α} {removed : List (List α)} {T'' : FileTree α β}
    (h : T.Restricts T' (T.Kept [r])) (h' : T'.Restricts T'' (T'.Kept removed)) :
    T.Restricts T'' (T.Kept (r :: removed)) := by
  intro q x
  rw [h', h, and_assoc]
  apply and_congr_right
  intro hx
  have hq := mem_of_getElem? hx
  constructor
  · rintro ⟨-, s, hs, hqs, hno⟩
    obtain ⟨hsT, s', hs', hss', hr⟩ := h.mem_iff.mp hs
    refine ⟨s', hs', hqs.trans hss', ?_⟩
    rw [List.forall_mem_cons]
    exact ⟨hr r List.mem_cons_self, fun r' hr' hsr => hno r' hr' (hss'.trans hsr)⟩
  · rintro ⟨s, hs, hqs, hno⟩
    rw [List.forall_mem_cons] at hno
    have hkept : ∀ p, p <:+ s → T.Kept [r] p := fun p hp => ⟨s, hs, hp, by simpa using hno.1⟩
    exact ⟨hkept q hqs, s, h.mem_iff.mpr ⟨hs, hkept s List.suffix_rfl⟩, hqs, hno.2⟩

theorem not_kept_of_leaf (hleaf : ∀ s ∈ T.nodes, p <:+ s → s = p) : ¬ T.Kept [p] p := by
  rintro ⟨s, hs, hp, hno⟩
  exact hno p List.mem_cons_self (hleaf s hs hp ▸ List.suffix_rfl)

end FileTree
