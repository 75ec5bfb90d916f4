import Mathlib.Tactic

/-!
# The words of a line

Words are the longest runs without separators, and `words_append` takes the first one off
a line. Decimal numerals are read as the longest run of digits. What has no newline lies in
one line of a text.
-/

namespace Words

variable {α : Type*} (sep : α → Bool)

def words (cs : List α) : List (List α) := (cs.splitOnP sep).filter fun w => !w.isEmpty

variable {sep} {w cs : List α} {c : α}

theorem words_append_cons (hc : sep c = true) (w cs : List α) :
    words sep (w ++ c :: cs) = words sep w ++ words sep cs := by
  unfold words
  rw [List.splitOnP_append_cons w cs hc, List.filter_append]

theorem words_self (hw : ∀ c ∈ w, sep c = false) (hne : w ≠ []) : words sep w = [w] := by
  unfold words
  rw [List.splitOnP_eq_singleton hw]
  simp [hne]

theorem words_append (hw : ∀ c ∈ w, sep c = false) (hne : w ≠ []) (hc : sep c = true) :
    words sep (w ++ c :: cs) = w :: words sep cs := by
  rw [words_append_cons hc, words_self hw hne]
  rfl

theorem words_flatMap_cons (hc : sep c = true) {ws : List (List α)}
    (hws : ∀ w ∈ ws, w ≠ [] ∧ ∀ x ∈ w, sep x = false) : words sep (ws.flatMap (c :: ·)) = ws := by
  -- after a separator, and up to the next one
  have hrest : ∀ ws : List (List α), (∀ w ∈ ws, w ≠ [] ∧ ∀ x ∈ w, sep x = false) →
      ∀ w, w ≠ [] → (∀ x ∈ w, sep x = false) →
        words sep (w ++ ws.flatMap (c :: ·)) = w :: ws := by
    intro ws
    induction ws with
    | nil =>
      intro _ w hne hw
      rw [List.flatMap_nil, List.append_nil, words_self hw hne]
    | cons v ws ih =>
      intro hws w hne hw
      rw [List.forall_mem_cons] at hws
      rw [List.flatMap_cons, List.cons_append, words_append hw hne hc, ih hws.2 v hws.1.1 hws.1.2]
  cases ws with
  | nil => rfl
  | cons w ws =>
    rw [List.forall_mem_cons] at hws
    have hnil : words sep ([] : List α) = [] := by simp [words]
    have happend := words_append_cons hc [] (w ++ ws.flatMap (c :: ·))
    rw [List.nil_append, hnil, List.nil_append] at happend
    rw [List.flatMap_cons, List.cons_append, happend, hrest ws hws.2 w hws.1.1 hws.1.2]

/-- The longest run of digits at the start, as a number, and what follows it. -/
def readNat (cs : List Char) : Option (ℕ × List Char) :=
  let digits := cs.takeWhile Char.isDigit
  if digits.isEmpty then none
  else some (Nat.ofDigitChars 10 digits 0, cs.dropWhile Char.isDigit)

theorem readNat_append {n : ℕ} {d : Char} {cs : List Char} (hd : d.isDigit = false) :
    readNat (Nat.toDigits 10 n ++ d :: cs) = some (n, d :: cs) := by
  have hdigits : ∀ c ∈ Nat.toDigits 10 n, c.isDigit = true := fun c hc =>
    Nat.isDigit_of_mem_toDigits (by omega) (by omega) hc
  have htake : (Nat.toDigits 10 n ++ d :: cs).takeWhile Char.isDigit = Nat.toDigits 10 n := by
    rw [List.takeWhile_append_of_pos hdigits, List.takeWhile_cons_of_neg (by simp [hd]),
      List.append_nil]
  have hdrop : (Nat.toDigits 10 n ++ d :: cs).dropWhile Char.isDigit = d :: cs := by
    rw [List.dropWhile_append_of_pos hdigits, List.dropWhile_cons_of_neg (by simp [hd])]
  unfold readNat
  simp only [htake, hdrop, Nat.ofDigitChars_ten_toDigits]
  rw [if_neg]
  simp [Nat.toDigits_ne_nil]

theorem flatten_mapIdx_separated {β γ : Type*} (separator : List γ) (part : β → List γ)
    (xs : List β) :
    (xs.mapIdx fun idx x => part x ++ if xs.length ≤ idx + 1 then [] else separator).flatten =
      separator.intercalate (xs.map part) := by
  induction xs with
  | nil => rfl
  | cons x xs ih =>
    rw [List.mapIdx_cons]
    cases xs with
    | nil => simp
    | cons y ys =>
      have htail := ih
      simp only [List.length_cons, Nat.add_le_add_iff_right] at htail ⊢
      rw [List.map_cons, List.map_cons, List.intercalate_cons_cons, ← List.map_cons, ← htail]
      simp

/-- The lines, each with its newline. -/
def unlines (ls : List (List Char)) : List Char := ls.flatMap (· ++ ['\n'])

@[simp] theorem unlines_nil : unlines [] = [] := rfl

@[simp] theorem unlines_cons (l : List Char) (ls : List (List Char)) :
    unlines (l :: ls) = l ++ '\n' :: unlines ls := by
  simp [unlines]

theorem unlines_append (ls ms : List (List Char)) :
    unlines (ls ++ ms) = unlines ls ++ unlines ms := List.flatMap_append

theorem unlines_infix {ls ms : List (List Char)} (h : ls <:+: ms) : unlines ls <:+: unlines ms := by
  obtain ⟨before, after, rfl⟩ := h
  rw [unlines_append, unlines_append]
  exact List.infix_append _ _ _

theorem unlines_flatten (L : List (List (List Char))) :
    unlines L.flatten = (L.map unlines).flatten := by
  induction L with
  | nil => rfl
  | cons ls L ih => rw [List.flatten_cons, unlines_append, ih, List.map_cons, List.flatten_cons]

section Infix

variable {p s x y a b : List α}

theorem eq_append_of_not_mem (hc : c ∉ w) (h : w ++ cs = a ++ c :: b) :
    ∃ a', a = w ++ a' ∧ cs = a' ++ c :: b := by
  rcases List.append_eq_append_iff.mp h with ⟨a', rfl, hcs⟩ | ⟨w', rfl, hcs⟩
  · exact ⟨a', rfl, hcs⟩
  · cases w' with
    | nil => exact ⟨[], by simp, by simpa using hcs.symm⟩
    | cons d w' =>
      obtain ⟨rfl, -⟩ := List.cons_eq_cons.mp hcs
      simp at hc

theorem infix_of_infix_append_cons (hc : c ∉ x) (h : x <:+: a ++ c :: b) : x <:+: a ∨ x <:+: b := by
  obtain ⟨p, s, h⟩ := h
  rcases List.append_eq_append_iff.mp h with ⟨a', rfl, -⟩ | ⟨b', hpx, hb⟩
  · exact .inl ⟨p, a', rfl⟩
  · cases b' with
    | nil =>
      rw [List.append_nil] at hpx
      exact .inl (hpx ▸ List.infix_append_right)
    | cons d b' =>
      obtain ⟨rfl, rfl⟩ := List.cons_eq_cons.mp hb
      rcases List.append_eq_append_iff.mp hpx with ⟨a', rfl, rfl⟩ | ⟨p', rfl, hp⟩
      · simp at hc
      · cases p' with
        | nil =>
          rw [List.nil_append] at hp
          rw [← hp] at hc
          simp at hc
        | cons d p' =>
          obtain ⟨rfl, rfl⟩ := List.cons_eq_cons.mp hp
          exact .inr ⟨p', s, rfl⟩

theorem prefix_of_append_cons_eq (hs : c ∉ s) (h : y ++ c :: s = a ++ c :: b) : a <+: y := by
  rcases List.append_eq_append_iff.mp h with ⟨a', rfl, hcs⟩ | ⟨y', rfl, -⟩
  · cases a' with
    | nil => simp
    | cons d a' =>
      obtain ⟨-, rfl⟩ := List.cons_eq_cons.mp hcs
      simp at hs
  · exact List.prefix_append a y'

/-- What is quoted lies between the first `c` and the last one. -/
theorem infix_of_quoted (hp : c ∉ p) (hs : c ∉ s)
    (h : c :: x ++ [c] <:+: p ++ c :: (y ++ c :: s)) : x <:+: y := by
  obtain ⟨a, b, h⟩ := h
  have hfirst : p ++ c :: (y ++ c :: s) = a ++ c :: (x ++ c :: b) := by simpa using h.symm
  obtain ⟨a', -, hy⟩ := eq_append_of_not_mem hp hfirst
  cases a' with
  | nil =>
    obtain ⟨-, hy⟩ := List.cons_eq_cons.mp hy
    exact (prefix_of_append_cons_eq hs hy).isInfix
  | cons d a' =>
    obtain ⟨-, hy⟩ := List.cons_eq_cons.mp hy
    have hlast : y ++ c :: s = (a' ++ c :: x) ++ c :: b := by simpa using hy
    have hin : x <:+: a' ++ c :: x := ⟨a' ++ [c], [], by simp⟩
    exact hin.trans (prefix_of_append_cons_eq hs hlast).isInfix

end Infix

theorem exists_infix_of_infix_unlines {x : List Char} {ls : List (List Char)} (hx : '\n' ∉ x)
    (hne : x ≠ []) (h : x <:+: unlines ls) : ∃ l ∈ ls, x <:+: l := by
  induction ls with
  | nil => exact absurd (List.infix_nil.mp h) hne
  | cons l ls ih =>
    rw [unlines_cons] at h
    rcases infix_of_infix_append_cons hx h with h | h
    · exact ⟨l, List.mem_cons_self, h⟩
    · obtain ⟨m, hm, h⟩ := ih h
      exact ⟨m, List.mem_cons_of_mem l hm, h⟩

end Words
