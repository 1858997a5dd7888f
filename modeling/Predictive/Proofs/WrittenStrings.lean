import Predictive.Json.Lexeme

/-! Strings as JSON writes them. Between quotes a character stands for itself or is escaped by a
letter or by its UTF-16 units in hexadecimal digits. A unit that is half of a character may
also stand alone, and then the string denotes no text: it can be passed over, but not read.
Texts are described forwards, from the characters to how they are written, so that no scanner
has a part in what they mean. -/
namespace Predictive.Json

def HexDigit (c : Char) (d : Nat) : Prop :=
  "0123456789abcdef".toList[d]? = some c ∨ "0123456789ABCDEF".toList[d]? = some c

inductive HexUnit : List Char → Nat → Prop
  | mk {a b c d : Char} {i j k l : Nat} : HexDigit a i → HexDigit b j → HexDigit c k →
      HexDigit d l → HexUnit [a, b, c, d] (((i * 16 + j) * 16 + k) * 16 + l)

def letters : List (Char × Char) :=
  [('"', '"'), ('\\', '\\'), ('/', '/'), ('b', '\x08'), ('f', '\x0c'), ('n', '\n'), ('r', '\r'),
    ('t', '\t')]

inductive Written : List Char → Char → Prop
  | plain {c : Char} : c ≠ '"' → c ≠ '\\' → 0x20 ≤ c.toNat → Written [c] c
  | letter {l c : Char} : (l, c) ∈ letters → Written ['\\', l] c
  | unit {ds : List Char} {c : Char} : HexUnit ds c.toNat → Written ('\\' :: 'u' :: ds) c
  | pair {ds es : List Char} {c : Char} : 0x10000 ≤ c.toNat →
      HexUnit ds (0xD800 + (c.toNat - 0x10000) / 0x400) →
      HexUnit es (0xDC00 + (c.toNat - 0x10000) % 0x400) →
      Written ('\\' :: 'u' :: (ds ++ '\\' :: 'u' :: es)) c

/-- The text begins with the second half of a character. -/
def Trails (cs : List Char) : Prop :=
  ∃ ds m rest, cs = '\\' :: 'u' :: (ds ++ rest) ∧ HexUnit ds m ∧ 0xDC00 ≤ m ∧ m < 0xE000

/-- The characters of a string from after its opening quote, and what follows the closing one.
Half of a character is `none`; two halves that belong together are one character. -/
inductive Quoted : List Char → List (Option Char) → List Char → Prop
  | close {rest : List Char} : Quoted ('"' :: rest) [] rest
  | char {w cs rest : List Char} {c : Char} {name : List (Option Char)} : Written w c →
      Quoted cs name rest → Quoted (w ++ cs) (some c :: name) rest
  | half {ds cs rest : List Char} {n : Nat} {name : List (Option Char)} : HexUnit ds n →
      0xD800 ≤ n → n < 0xE000 → (n < 0xDC00 → ¬Trails cs) → Quoted cs name rest →
      Quoted ('\\' :: 'u' :: (ds ++ cs)) (none :: name) rest

variable {c : Char} {d n : Nat} {ds w cs rest : List Char} {name : List (Option Char)}

theorem hexDigit?_of_hexDigit (h : HexDigit c d) : hexDigit? c = some d := by
  have hsmall : ∀ i : Fin 16, hexDigit? "0123456789abcdef".toList[i] = some i.val := by decide
  have hcapital : ∀ i : Fin 16, hexDigit? "0123456789ABCDEF".toList[i] = some i.val := by decide
  rcases h with h | h <;> obtain ⟨hd, rfl⟩ := List.getElem?_eq_some_iff.1 h
  · exact hsmall ⟨d, hd⟩
  · exact hcapital ⟨d, hd⟩

theorem hexDigit_of_hexDigit? (h : hexDigit? c = some d) : HexDigit c d := by
  have hdecimal : ∀ i : Fin 10,
      "0123456789abcdef".toList[i.val]? = some (Char.ofNat (48 + i.val)) := by decide
  have hsmall : ∀ i : Fin 6,
      "0123456789abcdef".toList[10 + i.val]? = some (Char.ofNat (97 + i.val)) := by decide
  have hcapital : ∀ i : Fin 6,
      "0123456789ABCDEF".toList[10 + i.val]? = some (Char.ofNat (65 + i.val)) := by decide
  have same : ∀ a, a ≤ c.toNat → Char.ofNat (a + (c.toNat - a)) = c := fun a ha => by
    rw [Nat.add_sub_cancel' ha, Char.ofNat_toNat]
  unfold hexDigit? at h
  split at h
  next hb =>
    have hl : 48 ≤ c.toNat := hb.1
    have hu : c.toNat ≤ 57 := hb.2
    cases h
    exact .inl ((hdecimal ⟨c.toNat - 48, by omega⟩).trans (congrArg some (same 48 hl)))
  split at h
  next hb =>
    have hl : 97 ≤ c.toNat := hb.1
    have hu : c.toNat ≤ 102 := hb.2
    have hd : c.toNat - 87 = 10 + (c.toNat - 97) := by omega
    cases h
    rw [hd]
    exact .inl ((hsmall ⟨c.toNat - 97, by omega⟩).trans (congrArg some (same 97 hl)))
  split at h
  next hb =>
    have hl : 65 ≤ c.toNat := hb.1
    have hu : c.toNat ≤ 70 := hb.2
    have hd : c.toNat - 55 = 10 + (c.toNat - 65) := by omega
    cases h
    rw [hd]
    exact .inr ((hcapital ⟨c.toNat - 65, by omega⟩).trans (congrArg some (same 65 hl)))
  next => cases h

theorem unit_hexUnit (h : HexUnit ds n) : unit (ds ++ rest) = .ok (n, rest) := by
  cases h with
  | mk ha hb hc hd =>
    simp only [List.cons_append, List.nil_append, unit, hexDigit?_of_hexDigit ha,
      hexDigit?_of_hexDigit hb, hexDigit?_of_hexDigit hc, hexDigit?_of_hexDigit hd]

theorem hexUnit_of_unit (h : unit cs = .ok (n, rest)) : ∃ ds, HexUnit ds n ∧ cs = ds ++ rest := by
  unfold unit at h
  split at h
  next a b c d tail =>
    split at h
    next ha hb hc hd =>
      cases h
      exact ⟨[a, b, c, d], .mk (hexDigit_of_hexDigit? ha) (hexDigit_of_hexDigit? hb)
        (hexDigit_of_hexDigit? hc) (hexDigit_of_hexDigit? hd), rfl⟩
    next => cases h
  next => cases h

theorem escaped?_letter {l : Char} (h : (l, c) ∈ letters) : escaped? l = some c ∧ l ≠ 'u' := by
  simp only [letters, List.mem_cons, List.not_mem_nil, or_false, Prod.mk.injEq] at h
  rcases h with ⟨rfl, rfl⟩ | ⟨rfl, rfl⟩ | ⟨rfl, rfl⟩ | ⟨rfl, rfl⟩ | ⟨rfl, rfl⟩ | ⟨rfl, rfl⟩ |
    ⟨rfl, rfl⟩ | ⟨rfl, rfl⟩ <;> decide

theorem escape_letter {l : Char} (h : (l, c) ∈ letters) : escape (l :: rest) = .ok (c, rest) := by
  obtain ⟨he, hu⟩ := escaped?_letter h
  rw [escape, if_neg hu, he]

theorem isLeading_iff : isLeading n = true ↔ 0xD800 ≤ n ∧ n < 0xDC00 := by
  simp [isLeading]

theorem isTrailing_iff : isTrailing n = true ↔ 0xDC00 ≤ n ∧ n < 0xE000 := by
  simp [isTrailing]

theorem isLeading_eq_false (h : n < 0xD800 ∨ 0xDC00 ≤ n) : isLeading n = false :=
  Bool.eq_false_iff.2 fun hl => by have := isLeading_iff.1 hl; omega

theorem isTrailing_eq_false (h : n < 0xDC00 ∨ 0xE000 ≤ n) : isTrailing n = false :=
  Bool.eq_false_iff.2 fun ht => by have := isTrailing_iff.1 ht; omega

theorem toNat_valid (c : Char) : c.toNat < 0xD800 ∨ 0xE000 ≤ c.toNat ∧ c.toNat < 0x110000 :=
  c.valid.imp_right fun h => ⟨h.1, h.2⟩

theorem escape_unit (h : HexUnit ds c.toNat) :
    escape ('u' :: (ds ++ rest)) = .ok (c, rest) := by
  have := toNat_valid c
  rw [escape, if_pos rfl, unit_hexUnit h]
  dsimp only
  rw [isTrailing_eq_false (by omega), isLeading_eq_false (by omega)]
  simp

theorem paired_units (h : 0x10000 ≤ c.toNat) :
    paired (0xD800 + (c.toNat - 0x10000) / 0x400) (0xDC00 + (c.toNat - 0x10000) % 0x400) = c := by
  have he : 0x10000 + (0xD800 + (c.toNat - 0x10000) / 0x400 - 0xD800) * 0x400 +
      (0xDC00 + (c.toNat - 0x10000) % 0x400 - 0xDC00) = c.toNat := by omega
  rw [paired, he, Char.ofNat_toNat]

theorem escape_pair {es : List Char} (h : 0x10000 ≤ c.toNat)
    (hd : HexUnit ds (0xD800 + (c.toNat - 0x10000) / 0x400))
    (he : HexUnit es (0xDC00 + (c.toNat - 0x10000) % 0x400)) :
    escape ('u' :: (ds ++ '\\' :: 'u' :: (es ++ rest))) = .ok (c, rest) := by
  have := toNat_valid c
  have hl : isLeading (0xD800 + (c.toNat - 0x10000) / 0x400) = true :=
    isLeading_iff.2 (by omega)
  have ht : isTrailing (0xDC00 + (c.toNat - 0x10000) % 0x400) = true :=
    isTrailing_iff.2 (by omega)
  have htrail : trailing ('\\' :: 'u' :: (es ++ rest)) =
      .ok (0xDC00 + (c.toNat - 0x10000) % 0x400, rest) := by
    simp only [trailing, literal, if_true, unit_hexUnit he, ht]
  rw [escape, if_pos rfl, unit_hexUnit hd]
  dsimp only
  rw [isTrailing_eq_false (by omega), hl, htrail]
  simp [paired_units h]

theorem eq_append_of_literal {es : List Char} (h : literal es cs = .ok rest) : cs = es ++ rest := by
  fun_induction literal es cs with
  | case1 => cases h; rfl
  | case2 => cases h
  | case3 e es cs ih => rw [ih h]; rfl
  | case4 => cases h

theorem trails_of_trailing (h : trailing cs = .ok (n, rest)) : Trails cs := by
  unfold trailing at h
  split at h
  next => cases h
  next hl =>
    split at h
    next => cases h
    next m tail hm =>
      split at h
      next ht =>
        obtain ⟨ds, hd, rfl⟩ := hexUnit_of_unit hm
        exact ⟨ds, m, tail, eq_append_of_literal hl, hd, isTrailing_iff.1 ht⟩
      next => cases h

theorem escape_half (h : HexUnit ds n) (hl : 0xD800 ≤ n) (hu : n < 0xE000)
    (ht : n < 0xDC00 → ¬Trails cs) : ∃ fault, escape ('u' :: (ds ++ cs)) = .error fault := by
  rw [escape, if_pos rfl, unit_hexUnit h]
  dsimp only
  by_cases hn : n < 0xDC00
  · rw [isTrailing_eq_false (.inl hn), isLeading_iff.2 ⟨hl, hn⟩]
    cases htrail : trailing cs with
    | error fault => exact ⟨fault, rfl⟩
    | ok r => exact absurd (trails_of_trailing htrail) (ht hn)
  · rw [isTrailing_iff.2 ⟨Nat.le_of_not_lt hn, hu⟩]
    exact ⟨.malformed, rfl⟩

theorem string_escape (h : escape cs = .ok (c, rest)) :
    string ('\\' :: cs) = (string rest).map fun r => (c :: r.1, r.2) := by
  rw [string, if_neg (by decide), if_pos rfl]
  split
  next he => rw [h] at he; cases he
  next he => rw [h] at he; cases he; rfl

theorem skipString_escape (h : skipEscape cs = .ok rest) :
    skipString ('\\' :: cs) = skipString rest := by
  rw [skipString, if_neg (by decide), if_pos rfl]
  split
  next he => rw [h] at he; cases he
  next he => rw [h] at he; cases he; rfl

theorem skipEscape_letter {l : Char} (h : (l, c) ∈ letters) :
    skipEscape (l :: rest) = .ok rest := by
  obtain ⟨he, hu⟩ := escaped?_letter h
  rw [skipEscape, if_neg hu, he]
  rfl

theorem skipEscape_unit (h : HexUnit ds n) : skipEscape ('u' :: (ds ++ rest)) = .ok rest := by
  rw [skipEscape, if_pos rfl, unit_hexUnit h]
  rfl

theorem string_written (h : Written w c) :
    string (w ++ cs) = (string cs).map fun r => (c :: r.1, r.2) := by
  cases h with
  | plain hq hb hc =>
    rw [List.singleton_append, string, if_neg hq, if_neg hb, if_neg (Nat.not_lt.2 hc)]
  | letter h => exact string_escape (escape_letter h)
  | unit h => exact string_escape (escape_unit h)
  | pair h hd he =>
    simp only [List.cons_append, List.append_assoc]
    exact string_escape (escape_pair h hd he)

theorem skipString_written (h : Written w c) : skipString (w ++ cs) = skipString cs := by
  cases h with
  | plain hq hb hc =>
    rw [List.singleton_append, skipString, if_neg hq, if_neg hb, if_neg (Nat.not_lt.2 hc)]
  | letter h => exact skipString_escape (skipEscape_letter h)
  | unit h => exact skipString_escape (skipEscape_unit h)
  | pair _ hd he =>
    simp only [List.cons_append, List.append_assoc]
    rw [skipString_escape (skipEscape_unit hd), skipString_escape (skipEscape_unit he)]

theorem skipString_quoted (h : Quoted cs name rest) : skipString cs = .ok rest := by
  induction h with
  | close => rw [skipString, if_pos rfl]
  | char hw _ ih => rw [skipString_written hw, ih]
  | half hn _ _ _ _ ih => rw [skipString_escape (skipEscape_unit hn), ih]

theorem string_quoted {text : List Char} (h : Quoted cs (text.map some) rest) :
    string cs = .ok (text, rest) := by
  induction text generalizing cs with
  | nil => cases h; rw [string, if_pos rfl]
  | cons c text ih =>
    cases h with
    | char hw h => rw [string_written hw, ih h]; rfl

theorem none_mem_or_exists_map (name : List (Option Char)) :
    none ∈ name ∨ ∃ text : List Char, name = text.map some := by
  induction name with
  | nil => exact .inr ⟨[], rfl⟩
  | cons c name ih =>
    cases c with
    | none => exact .inl List.mem_cons_self
    | some c =>
      rcases ih with hn | ⟨text, rfl⟩
      · exact .inl (List.mem_cons_of_mem _ hn)
      · exact .inr ⟨c :: text, rfl⟩

theorem string_half (h : Quoted cs name rest) (hn : none ∈ name) :
    ∃ fault, string cs = .error fault := by
  induction h with
  | close => cases hn
  | char hw _ ih =>
    obtain ⟨fault, hf⟩ := ih (by simpa using hn)
    rw [string_written hw, hf]
    exact ⟨fault, rfl⟩
  | half hd hl hu ht =>
    obtain ⟨fault, hf⟩ := escape_half hd hl hu ht
    rw [string, if_neg (by decide), if_pos rfl]
    split
    next he => exact ⟨_, rfl⟩
    next he => rw [hf] at he; cases he

end Predictive.Json
