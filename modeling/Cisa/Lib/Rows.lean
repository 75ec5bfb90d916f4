import Mathlib.Tactic

/-!
# Maps of sets, read and written through `operator[]`

`SortedMap` and `SortedSet` are the ordered map and the ordered set of the standard
library. A map whose values are sets is used as a relation: `m.row k` is what
`m[k]` reads, and the writers below are `m[k].insert(a)`, `m[k].erase(a)` and
`for (auto &p : m) p.second.erase(a)`. Every writer comes with the effect it has
on the rows and on the keys, so that later proofs never open a tree.
-/

set_option linter.unusedSectionVars false

open Std

/-- `std::map`, `std::unordered_map` and `DenseMap`, up to the order of iteration. -/
abbrev SortedMap (κ ν : Type*) [Ord κ] := ExtTreeMap κ ν compare

/-- `std::set`, iterated in ascending order. -/
abbrev SortedSet (α : Type*) [Ord α] := ExtTreeSet α compare

namespace Std.ExtTreeSet

variable {α : Type*} [Ord α] [TransOrd α] [LawfulEqOrd α]

def ofElems (xs : List α) : SortedSet α := xs.foldl (fun s a => s.insert a) ∅

theorem mem_foldl_insert {xs : List α} {s : SortedSet α} {b : α} :
    b ∈ xs.foldl (fun s a => s.insert a) s ↔ b ∈ xs ∨ b ∈ s := by
  induction xs generalizing s with
  | nil => simp
  | cons a xs ih =>
    rw [List.foldl_cons, ih, List.mem_cons, mem_insert, compare_eq_iff_eq]
    tauto

@[simp] theorem mem_ofElems {xs : List α} {b : α} : b ∈ (ofElems xs : SortedSet α) ↔ b ∈ xs := by
  simp [ofElems, mem_foldl_insert]

theorem isEmpty_eq_false_iff_exists {s : SortedSet α} : s.isEmpty = false ↔ ∃ a, a ∈ s := by
  rw [isEmpty_eq_false_iff, eq_empty_iff_forall_not_mem]
  simp only [not_forall, not_not]

theorem nodup_toList {s : SortedSet α} : s.toList.Nodup :=
  s.distinct_toList.imp fun h heq => h (compare_eq_iff_eq.mpr heq)

end Std.ExtTreeSet

namespace Std.ExtTreeMap

section Entries

variable {κ ν : Type*} [Ord κ] [TransOrd κ] [LawfulEqOrd κ] [DecidableEq κ]

theorem getElem?_insert_eq_ite {m : SortedMap κ ν} {k k' : κ} {v : ν} :
    (m.insert k v)[k']? = if k = k' then some v else m[k']? := by
  simp [getElem?_insert]

theorem getElem?_erase_eq_ite {m : SortedMap κ ν} {k k' : κ} :
    (m.erase k)[k']? = if k = k' then none else m[k']? := by
  simp [getElem?_erase]

theorem insert_eq_self {m : SortedMap κ ν} {k : κ} {v : ν} (h : m[k]? = some v) :
    m.insert k v = m := by
  apply ext_getElem?
  intro k'
  rw [getElem?_insert_eq_ite]
  split_ifs with hk
  · rw [← hk, h]
  · rfl

/-- After a list of insertions a key of the list has one of the values the list has for it. -/
theorem exists_getElem?_insertMany {m : SortedMap κ ν} {l : List (κ × ν)} {k : κ} {v : ν}
    (h : (k, v) ∈ l) : ∃ v', (k, v') ∈ l ∧ (m.insertMany l)[k]? = some v' := by
  induction l using List.reverseRecOn with
  | nil => simp at h
  | append_singleton l p ih =>
    rw [insertMany_append, insertMany_list_singleton, getElem?_insert_eq_ite]
    by_cases hp : p.1 = k
    · exact ⟨p.2, by simp [← hp], by rw [if_pos hp]⟩
    · have hl : (k, v) ∈ l := by
        rcases List.mem_append.mp h with hl | hl
        · exact hl
        · exact absurd (by rw [← List.mem_singleton.mp hl]) hp
      obtain ⟨v', hv', hget⟩ := ih hl
      exact ⟨v', List.mem_append_left _ hv', by rw [if_neg hp, hget]⟩

theorem mem_of_getElem?_insertMany {l : List (κ × ν)} {k : κ} {v : ν}
    (h : ((∅ : SortedMap κ ν).insertMany l)[k]? = some v) : (k, v) ∈ l := by
  induction l using List.reverseRecOn with
  | nil => simp at h
  | append_singleton l p ih =>
    rw [insertMany_append, insertMany_list_singleton, getElem?_insert_eq_ite] at h
    split_ifs at h with hp
    · obtain rfl := Option.some.inj h
      simp [← hp]
    · exact List.mem_append_left _ (ih h)

/-- Where entries are inserted in turn, the last one for a key counts, whatever was there. -/
theorem getElem?_insertMany_eq_or {m : SortedMap κ ν} {l : List (κ × ν)} {k : κ} :
    (m.insertMany l)[k]? = ((∅ : SortedMap κ ν).insertMany l)[k]?.or m[k]? := by
  induction l generalizing m with
  | nil => simp
  | cons p l ih =>
    rw [insertMany_cons, insertMany_cons, ih, @ih ((∅ : SortedMap κ ν).insert p.1 p.2),
      Option.or_assoc, getElem?_insert_eq_ite, getElem?_insert_eq_ite]
    split_ifs <;> simp

end Entries

variable {κ α : Type*} [Ord κ] [TransOrd κ] [LawfulEqOrd κ] [Ord α] [TransOrd α] [LawfulEqOrd α]

/-- What `m[k]` reads: a missing row is empty. -/
def row (m : SortedMap κ (SortedSet α)) (k : κ) : SortedSet α := m.getD k ∅

/-- `m[k].insert(a)`. -/
def addTo (m : SortedMap κ (SortedSet α)) (k : κ) (a : α) : SortedMap κ (SortedSet α) :=
  m.insert k ((m.row k).insert a)

/-- `m[k].insert(s.begin(), s.end())`. -/
def addAll (m : SortedMap κ (SortedSet α)) (k : κ) (s : SortedSet α) : SortedMap κ (SortedSet α) :=
  m.insert k (m.row k ∪ s)

/-- `m[k].erase(a)`; like the source it leaves a row under `k`. -/
def eraseFrom (m : SortedMap κ (SortedSet α)) (k : κ) (a : α) : SortedMap κ (SortedSet α) :=
  m.insert k ((m.row k).erase a)

/-- `for (auto &p : m) p.second.erase(a)`. -/
def eraseInRows (m : SortedMap κ (SortedSet α)) (a : α) : SortedMap κ (SortedSet α) :=
  m.map fun _ s => s.erase a

theorem row_of_getElem? {m : SortedMap κ (SortedSet α)} {k : κ} {s : SortedSet α}
    (h : m[k]? = some s) : m.row k = s := by
  rw [row, getD_eq_getD_getElem?, h, Option.getD_some]

theorem row_of_getElem?_none {m : SortedMap κ (SortedSet α)} {k : κ} (h : m[k]? = none) :
    m.row k = ∅ := by
  rw [row, getD_eq_getD_getElem?, h, Option.getD_none]

theorem row_insert {m : SortedMap κ (SortedSet α)} {k k' : κ} {s : SortedSet α} [DecidableEq κ] :
    row (m.insert k s) k' = if k = k' then s else m.row k' := by
  simp [row, getD_insert]

@[simp] theorem row_empty (k : κ) : (∅ : SortedMap κ (SortedSet α)).row k = ∅ := by
  simp [row]

theorem row_erase {m : SortedMap κ (SortedSet α)} {k k' : κ} [DecidableEq κ] :
    row (m.erase k) k' = if k = k' then ∅ else m.row k' := by
  simp [row, getD_erase]

@[simp] theorem row_erase_self {m : SortedMap κ (SortedSet α)} {k : κ} : row (m.erase k) k = ∅ := by
  simp [row]

@[simp] theorem mem_row_insert {m : SortedMap κ (SortedSet α)} {k k' : κ} {s : SortedSet α}
    {b : α} :
    b ∈ row (m.insert k s) k' ↔ (k = k' ∧ b ∈ s) ∨ (k ≠ k' ∧ b ∈ m.row k') := by
  by_cases h : k = k'
  · simp [row, h]
  · simp [row, getD_insert, h]

@[simp] theorem mem_row_addTo {m : SortedMap κ (SortedSet α)} {k k' : κ} {a b : α} :
    b ∈ (m.addTo k a).row k' ↔ (k = k' ∧ a = b) ∨ b ∈ m.row k' := by
  rw [addTo, mem_row_insert]
  by_cases h : k = k'
  · subst h; simp
  · simp [h]

@[simp] theorem mem_row_addAll {m : SortedMap κ (SortedSet α)} {k k' : κ} {s : SortedSet α}
    {b : α} :
    b ∈ (m.addAll k s).row k' ↔ (k = k' ∧ b ∈ s) ∨ b ∈ m.row k' := by
  rw [addAll, mem_row_insert]
  by_cases h : k = k'
  · subst h; simp [ExtTreeSet.mem_union_iff, or_comm]
  · simp [h]

@[simp] theorem mem_row_eraseFrom {m : SortedMap κ (SortedSet α)} {k k' : κ} {a b : α} :
    b ∈ (m.eraseFrom k a).row k' ↔ ¬ (k = k' ∧ a = b) ∧ b ∈ m.row k' := by
  rw [eraseFrom, mem_row_insert]
  by_cases h : k = k'
  · subst h; simp
  · simp [h]

@[simp] theorem mem_row_erase {m : SortedMap κ (SortedSet α)} {k k' : κ} {b : α} :
    b ∈ row (m.erase k) k' ↔ k ≠ k' ∧ b ∈ m.row k' := by
  by_cases h : k = k'
  · simp [row, h]
  · simp [row, getD_erase, h]

theorem row_map {m : SortedMap κ (SortedSet α)} {k : κ} {f : SortedSet α → SortedSet α}
    (h : f ∅ = ∅) :
    row (m.map fun _ s => f s) k = f (m.row k) := by
  unfold row
  rw [getD_eq_getD_getElem?, getD_eq_getD_getElem?, getElem?_map]
  cases m[k]? <;> simp [h]

@[simp] theorem mem_row_eraseInRows {m : SortedMap κ (SortedSet α)} {k : κ} {a b : α} :
    b ∈ (m.eraseInRows a).row k ↔ a ≠ b ∧ b ∈ m.row k := by
  rw [eraseInRows, row_map (f := fun s => s.erase a) (by simp)]
  simp

theorem addTo_comm [DecidableEq κ] (m : SortedMap κ (SortedSet α)) (k k' : κ) (a b : α) :
    (m.addTo k a).addTo k' b = (m.addTo k' b).addTo k a := by
  apply ext_getElem?
  intro j
  simp only [addTo, getElem?_insert_eq_ite, row_insert]
  by_cases hk : k = k'
  · subst hk
    have hset : ((m.row k).insert a).insert b = ((m.row k).insert b).insert a := by
      apply ExtTreeSet.ext_mem
      intro c
      rw [ExtTreeSet.mem_insert, ExtTreeSet.mem_insert, ExtTreeSet.mem_insert,
        ExtTreeSet.mem_insert]
      exact or_left_comm
    by_cases hj : k = j
    · subst hj
      simp [hset]
    · simp [hj]
  · have hk' : k' ≠ k := fun h => hk h.symm
    by_cases hj : k' = j
    · subst hj
      simp [hk]
    · simp [hj, hk']

@[simp] theorem mem_addTo {m : SortedMap κ (SortedSet α)} {k k' : κ} {a : α} :
    k' ∈ m.addTo k a ↔ k = k' ∨ k' ∈ m := by
  simp [addTo]

@[simp] theorem mem_addAll {m : SortedMap κ (SortedSet α)} {k k' : κ} {s : SortedSet α} :
    k' ∈ m.addAll k s ↔ k = k' ∨ k' ∈ m := by
  simp [addAll]

@[simp] theorem mem_eraseFrom {m : SortedMap κ (SortedSet α)} {k k' : κ} {a : α} :
    k' ∈ m.eraseFrom k a ↔ k = k' ∨ k' ∈ m := by
  simp [eraseFrom]

@[simp] theorem mem_eraseInRows {m : SortedMap κ (SortedSet α)} {k : κ} {a : α} :
    k ∈ m.eraseInRows a ↔ k ∈ m := by
  simp [eraseInRows]

theorem mem_row_iff_exists {m : SortedMap κ (SortedSet α)} {k : κ} {a : α} :
    a ∈ m.row k ↔ ∃ r ∈ m.toList, r.1 = k ∧ a ∈ r.2 := by
  unfold row
  rw [getD_eq_getD_getElem?]
  constructor
  · intro ha
    cases hk : m[k]? with
    | none => simp [hk] at ha
    | some s =>
      rw [hk, Option.getD_some] at ha
      exact ⟨(k, s), mem_toList_iff_getElem?_eq_some.mpr hk, rfl, ha⟩
  · intro h
    obtain ⟨r, hr, rfl, ha⟩ := h
    rwa [mem_toList_iff_getElem?_eq_some.mp hr]

theorem not_mem_row_of_forall {m : SortedMap κ (SortedSet α)} {a : α}
    (h : ∀ r ∈ m.toList, a ∉ r.2) (k : κ) : a ∉ m.row k := by
  intro ha
  obtain ⟨r, hr, _, har⟩ := mem_row_iff_exists.mp ha
  exact h r hr har

theorem mem_of_mem_row {m : SortedMap κ (SortedSet α)} {k : κ} {a : α} (h : a ∈ m.row k) :
    k ∈ m := by
  by_contra hk
  simp [row, getD_eq_fallback hk] at h

end Std.ExtTreeMap
