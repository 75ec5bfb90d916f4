import Cisa.Lib.Words

/-!
# JSON texts

A text is split into tokens and blanks, and the tokens of a value follow the grammar. Strings
are decoded character by character. A comma is never followed by a closing bracket, and a
string that has been decoded is not longer than what is between its quotes.
-/

namespace Json

inductive Value
  | null
  | bool (b : Bool)
  | number (w : List Char)
  | string (s : String)
  | array (vs : List Value)
  | object (fields : List (String × Value))

inductive Token
  | leftBrace
  | rightBrace
  | leftBracket
  | rightBracket
  | comma
  | colon
  | null
  | bool (b : Bool)
  | number (w : List Char)
  | string (s : String)

/-! ## Strings -/

/-- The characters that may not stand for themselves in a string: the quotation mark, the
backslash and the control characters. -/
def mustEscape (c : Char) : Bool := c = '"' || c = '\\' || c.toNat < 0x20

/-- The letters after a backslash, with the characters they stand for. -/
def escapes : List (Char × Char) :=
  [('"', '"'), ('\\', '\\'), ('/', '/'), ('b', '\x08'), ('f', '\x0c'), ('n', '\n'), ('r', '\r'),
    ('t', '\t')]

def hexValue (c : Char) : Option ℕ :=
  if '0' ≤ c ∧ c ≤ '9' then some (c.toNat - '0'.toNat)
  else if 'a' ≤ c ∧ c ≤ 'f' then some (c.toNat - 'a'.toNat + 10)
  else if 'A' ≤ c ∧ c ≤ 'F' then some (c.toNat - 'A'.toNat + 10)
  else none

/-- Four hexadecimal digits. -/
structure CodeUnit (ds : List Char) (u : ℕ) : Prop where
  length : ds.length = 4
  digits : ∀ d ∈ ds, (hexValue d).isSome
  value : u = ds.foldl (fun n d => 16 * n + (hexValue d).getD 0) 0

/-- `Chars raw cs`: between the quotes stands `raw`, and the string is `cs`. -/
inductive Chars : List Char → List Char → Prop
  | nil : Chars [] []
  | plain {c raw cs} (hc : mustEscape c = false) : Chars raw cs → Chars (c :: raw) (c :: cs)
  | escape {e c raw cs} (he : (e, c) ∈ escapes) : Chars raw cs → Chars ('\\' :: e :: raw) (c :: cs)
  | codeUnit {ds u raw cs} (hds : CodeUnit ds u) (hu : u < 0xd800 ∨ 0xdfff < u) :
      Chars raw cs → Chars ('\\' :: 'u' :: ds ++ raw) (Char.ofNat u :: cs)
  | surrogates {ds u es v raw cs} (hds : CodeUnit ds u) (hu : 0xd800 ≤ u ∧ u < 0xdc00)
      (hes : CodeUnit es v) (hv : 0xdc00 ≤ v ∧ v < 0xe000) : Chars raw cs →
      Chars ('\\' :: 'u' :: ds ++ '\\' :: 'u' :: es ++ raw)
        (Char.ofNat (0x10000 + 0x400 * (u - 0xd800) + (v - 0xdc00)) :: cs)

variable {raw cs : List Char}

theorem newline_not_mem_of_codeUnit {ds : List Char} {u : ℕ} (h : CodeUnit ds u) : '\n' ∉ ds := by
  intro hmem
  have hdigit := h.digits '\n' hmem
  revert hdigit
  decide

theorem newline_not_mem_of_chars (h : Chars raw cs) : '\n' ∉ raw := by
  induction h with
  | nil => simp
  | plain hc _ ih =>
    rw [List.mem_cons, not_or]
    exact ⟨fun heq => by subst heq; revert hc; decide, ih⟩
  | @escape e c _ _ he _ ih =>
    have hne : e ≠ '\n' := by
      rintro rfl
      revert he
      simp [escapes]
    simp [hne.symm, ih]
  | codeUnit hds _ _ ih => simp [newline_not_mem_of_codeUnit hds, ih]
  | surrogates hds _ hes _ _ ih =>
    simp [newline_not_mem_of_codeUnit hds, newline_not_mem_of_codeUnit hes, ih]

theorem Chars.of_plain (h : ∀ c ∈ cs, mustEscape c = false) : Chars cs cs := by
  induction cs with
  | nil => exact .nil
  | cons c cs ih =>
    exact .plain (h c List.mem_cons_self) (ih fun d hd => h d (List.mem_cons_of_mem c hd))

theorem length_le_of_chars (h : Chars raw cs) : cs.length ≤ raw.length := by
  induction h with
  | nil => rfl
  | plain _ _ ih => simpa using ih
  | escape _ _ ih =>
    simp only [List.length_cons]
    omega
  | codeUnit _ _ _ ih =>
    simp only [List.length_cons, List.length_append]
    omega
  | surrogates _ _ _ _ _ ih =>
    simp only [List.length_cons, List.length_append]
    omega

/-- A string with a character that must be escaped is longer between its quotes. -/
theorem longer_of_chars (h : Chars raw cs) (hcs : ∃ c ∈ cs, mustEscape c = true) :
    '\\' ∈ raw ∧ cs.length < raw.length := by
  induction h with
  | nil => simp at hcs
  | @plain c _ _ hc _ ih =>
    obtain ⟨d, hd, hesc⟩ := hcs
    have hne : d ≠ c := by
      rintro rfl
      rw [hc] at hesc
      cases hesc
    obtain ⟨hmem, hlt⟩ := ih ⟨d, (List.mem_cons.mp hd).resolve_left hne, hesc⟩
    exact ⟨List.mem_cons_of_mem c hmem, by simpa using hlt⟩
  | escape _ h _ =>
    have hle := length_le_of_chars h
    refine ⟨List.mem_cons_self, ?_⟩
    simp only [List.length_cons]
    omega
  | codeUnit _ _ h _ =>
    have hle := length_le_of_chars h
    refine ⟨by simp, ?_⟩
    simp only [List.length_cons, List.length_append]
    omega
  | surrogates _ _ _ _ h _ =>
    have hle := length_le_of_chars h
    refine ⟨by simp, ?_⟩
    simp only [List.length_cons, List.length_append]
    omega

/-! ## Words -/

/-- A sign, an integer without leading zeros, a fraction and an exponent. -/
def IsNumber (w : List Char) : Prop :=
  ∃ sign int frac exp, w = sign ++ int ++ frac ++ exp ∧
    (sign = [] ∨ sign = ['-']) ∧
    (int = ['0'] ∨ ∃ d ds, int = d :: ds ∧ d ≠ '0' ∧ ∀ c ∈ int, c.isDigit = true) ∧
    (frac = [] ∨ ∃ ds, frac = '.' :: ds ∧ ds ≠ [] ∧ ∀ c ∈ ds, c.isDigit = true) ∧
    (exp = [] ∨ ∃ e s ds, exp = e :: (s ++ ds) ∧ (e = 'e' ∨ e = 'E') ∧
      (s = [] ∨ s = ['+'] ∨ s = ['-']) ∧ ds ≠ [] ∧ ∀ c ∈ ds, c.isDigit = true)

/-- The word of a token. -/
inductive Spells : List Char → Token → Prop
  | leftBrace : Spells ['\x7b'] .leftBrace
  | rightBrace : Spells ['\x7d'] .rightBrace
  | leftBracket : Spells ['['] .leftBracket
  | rightBracket : Spells [']'] .rightBracket
  | comma : Spells [','] .comma
  | colon : Spells [':'] .colon
  | null : Spells ['n', 'u', 'l', 'l'] .null
  | isTrue : Spells ['t', 'r', 'u', 'e'] (.bool true)
  | isFalse : Spells ['f', 'a', 'l', 's', 'e'] (.bool false)
  | number {w} (h : IsNumber w) : Spells w (.number w)
  | string {raw s} (h : Chars raw s.toList) : Spells ('"' :: raw ++ ['"']) (.string s)

def isBlank (c : Char) : Bool := c = ' ' || c = '\t' || c = '\n' || c = '\r'

/-- A character of a number. -/
def isNumeric (c : Char) : Bool := c.isDigit || c = '-' || c = '+' || c = '.' || c = 'e' || c = 'E'

variable {w : List Char} {t : Token}

theorem IsNumber.ne_nil (h : IsNumber w) : w ≠ [] := by
  obtain ⟨_, int, _, _, rfl, _, hint, _⟩ := h
  have hne : int ≠ [] := by
    rcases hint with rfl | ⟨d, ds, rfl, -⟩ <;> simp
  simp [hne]

theorem IsNumber.isNumeric (h : IsNumber w) : ∀ c ∈ w, isNumeric c = true := by
  have hdigit : ∀ c : Char, c.isDigit = true → Json.isNumeric c = true := by
    intro c hc
    simp [Json.isNumeric, hc]
  obtain ⟨sign, int, frac, exp, rfl, hsign, hint, hfrac, hexp⟩ := h
  intro c hc
  simp only [List.mem_append] at hc
  rcases hc with ((hc | hc) | hc) | hc
  · rcases hsign with rfl | rfl
    · simp at hc
    · rw [List.mem_singleton.mp hc]
      rfl
  · rcases hint with rfl | ⟨d, ds, rfl, -, hds⟩
    · rw [List.mem_singleton.mp hc]
      rfl
    · exact hdigit c (hds c hc)
  · rcases hfrac with rfl | ⟨ds, rfl, -, hds⟩
    · simp at hc
    · rcases List.mem_cons.mp hc with rfl | hc
      · rfl
      · exact hdigit c (hds c hc)
  · rcases hexp with rfl | ⟨e, s, ds, rfl, he, hs, -, hds⟩
    · simp at hc
    · rcases List.mem_cons.mp hc with rfl | hc
      · rcases he with rfl | rfl <;> rfl
      · rcases List.mem_append.mp hc with hc | hc
        · rcases hs with rfl | rfl | rfl
          · simp at hc
          · rw [List.mem_singleton.mp hc]
            rfl
          · rw [List.mem_singleton.mp hc]
            rfl
        · exact hdigit c (hds c hc)

theorem IsNumber.not_mem (h : IsNumber w) {c : Char} (hc : Json.isNumeric c = false) : c ∉ w := by
  intro hmem
  rw [h.isNumeric c hmem] at hc
  cases hc

theorem Spells.ne_nil (h : Spells w t) : w ≠ [] := by
  cases h with
  | number h => exact h.ne_nil
  | _ => simp

theorem Spells.newline_not_mem (h : Spells w t) : '\n' ∉ w := by
  cases h with
  | number h => exact h.not_mem (by decide)
  | string h => simp [newline_not_mem_of_chars h]
  | _ => decide

theorem Spells.not_blank {c : Char} (h : Spells (c :: w) t) : isBlank c = false := by
  generalize hv : c :: w = v at h
  cases h with
  | number h =>
    subst hv
    have hc := h.isNumeric c List.mem_cons_self
    by_contra hblank
    simp only [isBlank, Bool.not_eq_false, Bool.or_eq_true, decide_eq_true_eq] at hblank
    rcases hblank with ((rfl | rfl) | rfl) | rfl <;> revert hc <;> decide
  | string _ =>
    obtain ⟨rfl, -⟩ := List.cons_eq_cons.mp hv
    rfl
  | _ =>
    obtain ⟨rfl, -⟩ := List.cons_eq_cons.mp hv
    rfl

theorem Spells.eq_comma (h : Spells (w ++ [',']) t) : t = .comma := by
  generalize hv : w ++ [','] = v at h
  have hlast : v.getLast? = some ',' := by rw [← hv, List.getLast?_concat]
  cases h with
  | comma => rfl
  | number h => exact absurd (List.mem_of_getLast? hlast) (h.not_mem (by decide))
  | string _ =>
    rw [List.getLast?_append] at hlast
    simp at hlast
  | _ => simp at hlast

theorem Spells.eq_rightBracket (h : Spells (']' :: w) t) : t = .rightBracket := by
  generalize hv : ']' :: w = v at h
  cases h with
  | rightBracket => rfl
  | number h =>
    subst hv
    exact absurd List.mem_cons_self (h.not_mem (by decide))
  | _ => simp at hv

/-! ## Splitting a text into tokens -/

inductive Lexes : List Char → List Token → Prop
  | nil : Lexes [] []
  | blank {c cs ts} (hc : isBlank c = true) : Lexes cs ts → Lexes (c :: cs) ts
  | token {w t cs ts} (hw : Spells w t) : Lexes cs ts → Lexes (w ++ cs) (t :: ts)

variable {a b text : List Char} {ts us : List Token}

theorem Spells.lexes (h : Spells w t) : Lexes w [t] := by
  simpa using Lexes.token h .nil

theorem Lexes.append (ha : Lexes a ts) (hb : Lexes b us) : Lexes (a ++ b) (ts ++ us) := by
  induction ha with
  | nil => exact hb
  | blank hc _ ih => exact .blank hc ih
  | token hw _ ih =>
    rw [List.append_assoc]
    exact .token hw ih

theorem Lexes.flatten_mapIdx {α : Type*} {chars : ℕ → α → List Char} {tokens : ℕ → α → List Token}
    {xs : List α} (h : ∀ idx, ∀ x ∈ xs, Lexes (chars idx x) (tokens idx x)) :
    Lexes (xs.mapIdx chars).flatten (xs.mapIdx tokens).flatten := by
  induction xs generalizing chars tokens with
  | nil => exact .nil
  | cons x xs ih =>
    rw [List.mapIdx_cons, List.mapIdx_cons, List.flatten_cons, List.flatten_cons]
    exact (h 0 x List.mem_cons_self).append
      (ih fun idx y hy => h (idx + 1) y (List.mem_cons_of_mem x hy))

/-- No token contains a newline. -/
theorem Lexes.split (h : Lexes (a ++ '\n' :: b) ts) :
    ∃ us vs, ts = us ++ vs ∧ Lexes a us ∧ Lexes b vs := by
  generalize hcs : a ++ '\n' :: b = cs at h
  induction h generalizing a with
  | nil => simp at hcs
  | @blank c _ ts hc hlex ih =>
    cases a with
    | nil =>
      obtain ⟨-, rfl⟩ := List.cons_eq_cons.mp hcs
      exact ⟨[], ts, rfl, .nil, hlex⟩
    | cons d a =>
      obtain ⟨rfl, htail⟩ := List.cons_eq_cons.mp hcs
      obtain ⟨us, vs, rfl, ha, hb⟩ := ih htail
      exact ⟨us, vs, rfl, .blank hc ha, hb⟩
  | @token w t _ _ hw _ ih =>
    obtain ⟨a', rfl, htail⟩ := Words.eq_append_of_not_mem hw.newline_not_mem hcs.symm
    obtain ⟨us, vs, rfl, ha, hb⟩ := ih htail.symm
    exact ⟨t :: us, vs, rfl, .token hw ha, hb⟩

theorem Lexes.eq_nil (h : Lexes [] ts) : ts = [] := by
  generalize hcs : ([] : List Char) = cs at h
  cases h with
  | nil => rfl
  | blank => cases hcs
  | token hw _ => exact absurd (List.append_eq_nil_iff.mp hcs.symm).1 hw.ne_nil

theorem Lexes.ends_comma (h : Lexes (a ++ [',']) ts) : ∃ us, ts = us ++ [.comma] := by
  generalize hcs : a ++ [','] = cs at h
  induction h generalizing a with
  | nil => simp at hcs
  | blank hc _ ih =>
    cases a with
    | nil =>
      obtain ⟨rfl, -⟩ := List.cons_eq_cons.mp hcs
      cases hc
    | cons d a => exact ih (List.cons_eq_cons.mp hcs).2
  | @token w t cs ts hw hlex ih =>
    rcases List.append_eq_append_iff.mp hcs with ⟨w', rfl, hcomma⟩ | ⟨a', rfl, htail⟩
    · cases w' with
      | nil =>
        obtain ⟨us, rfl⟩ := @ih [] hcomma
        exact ⟨t :: us, rfl⟩
      | cons c w' =>
        obtain ⟨rfl, hnil⟩ := List.cons_eq_cons.mp hcomma
        obtain ⟨rfl, rfl⟩ := List.append_eq_nil_iff.mp hnil.symm
        rw [hw.eq_comma, hlex.eq_nil]
        exact ⟨[], rfl⟩
    · obtain ⟨us, rfl⟩ := ih htail.symm
      exact ⟨t :: us, rfl⟩

theorem Lexes.cons_cases {c : Char} (h : Lexes (c :: cs) ts) :
    isBlank c = true ∧ Lexes cs ts ∨ ∃ w t us, Spells (c :: w) t ∧ ts = t :: us := by
  generalize hv : c :: cs = v at h
  cases h with
  | nil => cases hv
  | blank hc h =>
    obtain ⟨rfl, rfl⟩ := List.cons_eq_cons.mp hv
    exact .inl ⟨hc, h⟩
  | @token w t _ us hw _ =>
    cases w with
    | nil => exact absurd rfl hw.ne_nil
    | cons d w =>
      obtain ⟨rfl, -⟩ := List.cons_eq_cons.mp hv
      exact .inr ⟨w, t, us, hw, rfl⟩

theorem Lexes.starts_rightBracket (h : Lexes (']' :: cs) ts) : ∃ us, ts = .rightBracket :: us := by
  obtain ⟨hblank, -⟩ | ⟨w, t, us, hw, rfl⟩ := h.cons_cases
  · cases hblank
  · rw [hw.eq_rightBracket]
    exact ⟨us, rfl⟩

theorem Lexes.of_cons_blank {c : Char} (hc : isBlank c = true) (h : Lexes (c :: cs) ts) :
    Lexes cs ts := by
  obtain ⟨-, h⟩ | ⟨w, t, us, hw, -⟩ := h.cons_cases
  · exact h
  · rw [hw.not_blank] at hc
    cases hc

/-- A string stands between quotation marks in the text. -/
theorem Lexes.quoted {s : String} (h : Lexes cs ts) (hs : .string s ∈ ts) :
    ∃ raw, Chars raw s.toList ∧ '"' :: raw ++ ['"'] <:+: cs := by
  induction h with
  | nil => simp at hs
  | blank _ _ ih =>
    obtain ⟨raw, hraw, hin⟩ := ih hs
    exact ⟨raw, hraw, hin.trans (List.suffix_cons _ _).isInfix⟩
  | @token w _ cs _ hw _ ih =>
    rcases List.mem_cons.mp hs with rfl | hs
    · cases hw with
      | string hraw => exact ⟨_, hraw, (List.prefix_append _ cs).isInfix⟩
    · obtain ⟨raw, hraw, hin⟩ := ih hs
      exact ⟨raw, hraw, hin.trans (List.suffix_append w cs).isInfix⟩

/-! ## Values -/

/-- The tokens of a value: items and members are separated by commas. -/
inductive IsValue : List Token → Value → Prop
  | null : IsValue [.null] .null
  | bool (c : Bool) : IsValue [.bool c] (.bool c)
  | number (w : List Char) : IsValue [.number w] (.number w)
  | string (s : String) : IsValue [.string s] (.string s)
  | array (items : List (List Token × Value)) (hitems : ∀ i ∈ items, IsValue i.1 i.2) :
      IsValue (.leftBracket :: [Token.comma].intercalate (items.map Prod.fst) ++ [.rightBracket])
        (.array (items.map Prod.snd))
  | object (members : List (String × List Token × Value))
      (hmembers : ∀ m ∈ members, IsValue m.2.1 m.2.2) :
      IsValue (.leftBrace :: [Token.comma].intercalate
        (members.map fun m => .string m.1 :: .colon :: m.2.1) ++ [.rightBrace])
        (.object (members.map fun m => (m.1, m.2.2)))

/-- The text is well formed and its value is `v`. -/
def Decodes (text : List Char) (v : Value) : Prop := ∃ ts, Lexes text ts ∧ IsValue ts v

/-- A comma before a closing bracket. -/
def Trails (s t : Token) : Prop := s = .comma ∧ t = .rightBracket

/-- Tokens between two separators. -/
structure Inner (ts : List Token) : Prop where
  ne_nil : ts ≠ []
  chain : ts.IsChain fun s t => ¬Trails s t
  head : ts.head? ≠ some .rightBracket
  last : ts.getLast? ≠ some .comma

theorem Inner.singleton (hbracket : t ≠ .rightBracket) (hcomma : t ≠ .comma) : Inner [t] where
  ne_nil := by simp
  chain := List.isChain_singleton t
  head := by simpa using hbracket
  last := by simpa using hcomma

theorem Inner.append (hts : Inner ts) (hus : Inner us) : Inner (ts ++ us) where
  ne_nil := by simp [hts.ne_nil]
  chain := by
    refine List.isChain_append.mpr ⟨hts.chain, hus.chain, ?_⟩
    rintro s hs t - ⟨rfl, -⟩
    exact hts.last hs
  head := by
    rw [List.head?_append_of_ne_nil _ hts.ne_nil]
    exact hts.head
  last := by
    rw [List.getLast?_append_of_ne_nil _ hus.ne_nil]
    exact hus.last

theorem Inner.append_comma (hts : Inner ts) (hus : Inner us) : Inner (ts ++ .comma :: us) where
  ne_nil := by simp
  chain := by
    refine List.isChain_append.mpr ⟨hts.chain, ?_, ?_⟩
    · refine List.isChain_cons.mpr ⟨?_, hus.chain⟩
      rintro t ht ⟨-, rfl⟩
      exact hus.head ht
    · rintro s hs t - ⟨rfl, -⟩
      exact hts.last hs
  head := by
    rw [List.head?_append_of_ne_nil _ hts.ne_nil]
    exact hts.head
  last := by
    rw [List.getLast?_append_of_ne_nil _ (by simp), List.getLast?_cons_of_ne_nil hus.ne_nil]
    exact hus.last

theorem Inner.intercalate {parts : List (List Token)} (h : ∀ p ∈ parts, Inner p)
    (hne : parts ≠ []) : Inner ([Token.comma].intercalate parts) := by
  induction parts with
  | nil => exact absurd rfl hne
  | cons p parts ih =>
    cases parts with
    | nil =>
      rw [List.intercalate_singleton]
      exact h p List.mem_cons_self
    | cons q parts =>
      rw [List.intercalate_cons_cons]
      have htail := ih (fun r hr => h r (List.mem_cons_of_mem p hr)) (by simp)
      simpa using (h p List.mem_cons_self).append_comma htail

theorem Inner.enclose {s : Token} {parts : List (List Token)} (hs : s ≠ .rightBracket)
    (hcomma : s ≠ .comma) (ht : t ≠ .comma) (h : ∀ p ∈ parts, Inner p) :
    Inner (s :: [Token.comma].intercalate parts ++ [t]) := by
  have hlast : ([t] : List Token).getLast? ≠ some .comma := by simpa using ht
  cases parts with
  | nil =>
    exact {
      ne_nil := by simp
      chain := by simp [Trails, hcomma]
      head := by simpa using hs
      last := hlast }
  | cons p parts =>
    have hinner := (Inner.singleton hs hcomma).append (Inner.intercalate h (by simp))
    exact {
      ne_nil := by simp
      chain := by
        refine List.isChain_append.mpr ⟨hinner.chain, List.isChain_singleton t, ?_⟩
        rintro x hx y - ⟨rfl, -⟩
        exact hinner.last hx
      head := by simpa using hs
      last := by
        rw [List.getLast?_append_of_ne_nil _ (by simp)]
        exact hlast }

theorem IsValue.inner {v : Value} (h : IsValue ts v) : Inner ts := by
  induction h with
  | array items _ ih =>
    refine .enclose (by simp) (by simp) (by simp) fun p hp => ?_
    obtain ⟨i, hi, rfl⟩ := List.mem_map.mp hp
    exact ih i hi
  | object members _ ih =>
    refine .enclose (by simp) (by simp) (by simp) fun p hp => ?_
    obtain ⟨m, hm, rfl⟩ := List.mem_map.mp hp
    have hkey : Inner [.string m.1] := .singleton (by simp) (by simp)
    have hcolon : Inner [.colon] := .singleton (by simp) (by simp)
    exact hkey.append (hcolon.append (ih m hm))
  | _ => exact .singleton (by simp) (by simp)

/-- No comma comes before a closing bracket at the start of a line. -/
theorem not_decodes_of_trailing {v : Value} :
    ¬Decodes (a ++ ',' :: '\n' :: ' ' :: ' ' :: ']' :: b) v := by
  rintro ⟨ts, hlex, hv⟩
  rw [show a ++ ',' :: '\n' :: ' ' :: ' ' :: ']' :: b =
    (a ++ [',']) ++ '\n' :: ' ' :: ' ' :: ']' :: b by simp] at hlex
  obtain ⟨us, vs, rfl, hus, hvs⟩ := hlex.split
  obtain ⟨us, rfl⟩ := hus.ends_comma
  obtain ⟨vs, rfl⟩ := ((hvs.of_cons_blank rfl).of_cons_blank rfl).starts_rightBracket
  have hchain := hv.inner.chain
  rw [List.append_assoc] at hchain
  exact (List.isChain_cons_cons.mp (List.isChain_append.mp hchain).2.1).1 ⟨rfl, rfl⟩

theorem mem_intercalate {parts : List (List Token)} {p : List Token} (hp : p ∈ parts)
    (ht : t ∈ p) : t ∈ [Token.comma].intercalate parts := by
  induction parts with
  | nil => simp at hp
  | cons q parts ih =>
    cases parts with
    | nil =>
      obtain rfl := List.mem_singleton.mp hp
      simpa using ht
    | cons r parts =>
      rw [List.intercalate_cons_cons, List.mem_append, List.mem_append]
      rcases List.mem_cons.mp hp with rfl | hp
      · exact .inl (.inl ht)
      · exact .inr (ih hp)

theorem Decodes.quoted {fields : List (String × Value)} {k : String}
    (h : Decodes text (.object fields)) (hk : k ∈ fields.map Prod.fst) :
    ∃ raw, Chars raw k.toList ∧ '"' :: raw ++ ['"'] <:+: text := by
  obtain ⟨ts, hlex, hv⟩ := h
  cases hv with
  | object members _ =>
    apply hlex.quoted
    obtain ⟨m, hm, rfl⟩ : ∃ m ∈ members, m.1 = k := by simpa using hk
    have hpart : .string m.1 ∈ Token.string m.1 :: .colon :: m.2.1 := List.mem_cons_self
    have hmem := mem_intercalate
      (List.mem_map_of_mem (f := fun m => Token.string m.1 :: .colon :: m.2.1) hm) hpart
    exact List.mem_append_left _ (List.mem_cons_of_mem _ hmem)

end Json
