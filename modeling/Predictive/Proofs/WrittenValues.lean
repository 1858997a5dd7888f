import Mathlib.Data.List.DropRight
import Predictive.Json.Skip
import Predictive.Proofs.WrittenNumerals
import Predictive.Proofs.WrittenStrings

/-! Values as JSON writes them, with any space between their words. Values, items and members
contain each other, so they are one family of texts, told apart by an index, and one induction
goes through values of any depth. The scanner that passes over a value keeps the open
brackets in a list, so what it does with a text holds under any brackets. -/
namespace Predictive.Json

def Spaced (cs rest : List Char) : Prop :=
  ∃ ws, (∀ c ∈ ws, c ∈ [' ', '\t', '\n', '\r']) ∧ cs = ws ++ rest

/-- What a value is to a reader of numbers. -/
inductive Content where
  | numeral (n : Numeral)
  | null
  | other

structure Member where
  key : List (Option Char)
  content : Content

def words : List (List Char × Content) :=
  [("null".toList, .null), ("true".toList, .other), ("false".toList, .other)]

inductive Part where
  | value (v : Content)
  /-- Items of an array; unless the first one is yet to come, each has a comma before it. -/
  | items (isFirst : Bool) (vs : List Content)
  | members (isFirst : Bool) (ms : List Member)

/-- The texts of a part, up to what follows it. -/
inductive Phrase : Part → List Char → List Char → Prop
  | word {w cs rest : List Char} {v : Content} : (w, v) ∈ words → Spaced cs (w ++ rest) →
      Phrase (.value v) cs rest
  | numeral {text cs rest : List Char} {n : Numeral} : Spaced cs (text ++ rest) →
      NumeralText text n → Ends rest → Phrase (.value (.numeral n)) cs rest
  | string {cs start rest : List Char} {s : List (Option Char)} : Spaced cs ('"' :: start) →
      Quoted start s rest → Phrase (.value .other) cs rest
  | array {cs start stop rest : List Char} {vs : List Content} : Spaced cs ('[' :: start) →
      Phrase (.items true vs) start stop → Spaced stop (']' :: rest) →
      Phrase (.value .other) cs rest
  | object {cs start stop rest : List Char} {ms : List Member} : Spaced cs ('\x7b' :: start) →
      Phrase (.members true ms) start stop → Spaced stop ('\x7d' :: rest) →
      Phrase (.value .other) cs rest
  | noItems {isFirst : Bool} {cs : List Char} : Phrase (.items isFirst []) cs cs
  | firstItem {cs mid rest : List Char} {v : Content} {vs : List Content} :
      Phrase (.value v) cs mid → Phrase (.items false vs) mid rest →
      Phrase (.items true (v :: vs)) cs rest
  | nextItem {cs start rest : List Char} {v : Content} {vs : List Content} :
      Spaced cs (',' :: start) → Phrase (.items true (v :: vs)) start rest →
      Phrase (.items false (v :: vs)) cs rest
  | noMembers {isFirst : Bool} {cs : List Char} : Phrase (.members isFirst []) cs cs
  | firstMember {cs start mid stop next rest : List Char} {m : Member} {ms : List Member} :
      Spaced cs ('"' :: start) → Quoted start m.key mid → Spaced mid (':' :: stop) →
      Phrase (.value m.content) stop next → Phrase (.members false ms) next rest →
      Phrase (.members true (m :: ms)) cs rest
  | nextMember {cs start rest : List Char} {m : Member} {ms : List Member} :
      Spaced cs (',' :: start) → Phrase (.members true (m :: ms)) start rest →
      Phrase (.members false (m :: ms)) cs rest

variable {p : Part} {v : Content} {vs : List Content} {m : Member} {ms : List Member}
  {b : Bracket} {bs : List Bracket} {c d : Char} {cs tail rest : List Char}

theorem isSpace_of_mem (h : c ∈ [' ', '\t', '\n', '\r']) : isSpace c = true :=
  List.all_eq_true.1 (rfl : [' ', '\t', '\n', '\r'].all isSpace = true) c h

theorem Spaced.refl (cs : List Char) : Spaced cs cs :=
  ⟨[], nofun, rfl⟩

theorem Spaced.skipSpace (h : Spaced cs (c :: rest)) (hc : isSpace c = false) :
    skipSpace cs = c :: rest := by
  obtain ⟨ws, hw, rfl⟩ := h
  rw [Json.skipSpace, List.dropWhile_append_of_pos fun c h => isSpace_of_mem (hw c h),
    List.dropWhile_cons_of_neg (by rw [hc]; decide)]

theorem Spaced.skipSpace_nil (h : Spaced cs []) : Json.skipSpace cs = [] := by
  obtain ⟨ws, hw, rfl⟩ := h
  rw [Json.skipSpace, List.dropWhile_append_of_pos fun c h => isSpace_of_mem (hw c h)]
  rfl

theorem ne_of_startsNumeral (hc : startsNumeral c = true) (hd : startsNumeral d = false) :
    c ≠ d := by
  rintro rfl
  rw [hc] at hd
  cases hd

theorem isSpace_of_startsNumeral (h : startsNumeral c = true) : isSpace c = false := by
  have hall : ∀ d, startsNumeral d = false → c ≠ d := fun d => ne_of_startsNumeral h
  simp [isSpace, hall ' ' rfl, hall '\t' rfl, hall '\n' rfl, hall '\r' rfl]

def Content.Begins : Content → Char → Prop
  | numeral _, c => startsNumeral c = true
  | null, c => c = 'n'
  | other, c => c ∈ ['t', 'f', '"', '[', '\x7b']

theorem words_cases {w : List Char} (h : (w, v) ∈ words) :
    w = "null".toList ∧ v = .null ∨ w = "true".toList ∧ v = .other ∨
      w = "false".toList ∧ v = .other := by
  simpa [words] using h

theorem Phrase.begins (h : Phrase (.value v) cs rest) :
    ∃ c tail, skipSpace cs = c :: tail ∧ v.Begins c ∧ Phrase (.value v) (c :: tail) rest := by
  cases h with
  | word hw hs =>
    rcases words_cases hw with ⟨rfl, rfl⟩ | ⟨rfl, rfl⟩ | ⟨rfl, rfl⟩
    · exact ⟨'n', _, hs.skipSpace rfl, rfl, .word hw (.refl _)⟩
    · exact ⟨'t', _, hs.skipSpace rfl, by simp [Content.Begins], .word hw (.refl _)⟩
    · exact ⟨'f', _, hs.skipSpace rfl, by simp [Content.Begins], .word hw (.refl _)⟩
  | numeral hs hn he =>
    obtain ⟨c, tail, rfl, hc⟩ := hn.starts
    exact ⟨c, _, hs.skipSpace (isSpace_of_startsNumeral hc), hc, .numeral (.refl _) hn he⟩
  | string hs hq =>
    exact ⟨'"', _, hs.skipSpace rfl, by simp [Content.Begins], .string (.refl _) hq⟩
  | array hs hi hr =>
    exact ⟨'[', _, hs.skipSpace rfl, by simp [Content.Begins], .array (.refl _) hi hr⟩
  | object hs hm hr =>
    exact ⟨'\x7b', _, hs.skipSpace rfl, by simp [Content.Begins], .object (.refl _) hm hr⟩

theorem Content.Begins.ne_close (h : v.Begins c) : c ≠ ']' := by
  cases v with
  | numeral n => exact ne_of_startsNumeral h rfl
  | null => rw [h]; decide
  | other => rintro rfl; simp [Content.Begins] at h

theorem skipFrom_value (hs : skipSpace cs = c :: tail) :
    skipFrom .value bs cs =
      if c = '[' then skipFrom .opened (.square :: bs) tail
      else if c = '\x7b' then skipFrom .opened (.curly :: bs) tail
      else (skipScalar (c :: tail)).bind (skipFrom .closed bs) := by
  rw [skipFrom]
  split
  next he => rw [hs] at he; cases he
  next he =>
    rw [hs] at he
    cases he
    congr 2
    split
    next hk => rw [hk]; rfl
    next hk => rw [hk]; rfl

theorem skipFrom_key (hs : skipSpace cs = '"' :: tail) :
    skipFrom .key bs cs = (skipKey tail).bind (skipFrom .value bs) := by
  rw [skipFrom]
  split
  next he => rw [hs] at he; cases he
  next he =>
    rw [hs] at he
    cases he
    rw [if_pos rfl]
    split
    next hk => rw [hk]; rfl
    next hk => rw [hk]; rfl

theorem skipFrom_closed (hs : skipSpace cs = c :: tail) :
    skipFrom .closed (b :: bs) cs =
      if c = b.close then skipFrom .closed bs tail
      else if c = ',' then skipFrom b.holds (b :: bs) tail else .error .malformed := by
  rw [skipFrom]
  split
  next he => rw [hs] at he; cases he
  next he => rw [hs] at he; cases he; rfl

theorem skipFrom_opened (hs : skipSpace cs = c :: tail) :
    skipFrom .opened (b :: bs) cs =
      if c = b.close then skipFrom .closed bs tail
      else skipFrom b.holds (b :: bs) (c :: tail) := by
  rw [skipFrom]
  split
  next he => rw [hs] at he; cases he
  next he => rw [hs] at he; cases he; rfl

theorem skipSpace_skipSpace (cs : List Char) : skipSpace (skipSpace cs) = skipSpace cs :=
  List.dropWhile_idempotent isSpace cs

theorem opened_value (h : Phrase (.value v) cs rest) :
    skipFrom .opened (.square :: bs) cs = skipFrom .value (.square :: bs) cs := by
  obtain ⟨c, tail, hs, hc, _⟩ := h.begins
  have ht : skipSpace (c :: tail) = c :: tail := by rw [← hs, skipSpace_skipSpace]
  rw [skipFrom_opened hs, Bracket.close, if_neg hc.ne_close, Bracket.holds, skipFrom_value hs,
    skipFrom_value ht]

theorem opened_key (hs : skipSpace cs = '"' :: tail) :
    skipFrom .opened (.curly :: bs) cs = skipFrom .key (.curly :: bs) cs := by
  have ht : skipSpace ('"' :: tail) = '"' :: tail := by rw [← hs, skipSpace_skipSpace]
  rw [skipFrom_opened hs, if_neg (by decide), Bracket.holds, skipFrom_key hs, skipFrom_key ht]

theorem skipFrom_scalar (hs : skipSpace cs = c :: tail) (hb : c ≠ '[') (hc : c ≠ '\x7b')
    (h : skipScalar (c :: tail) = .ok rest) :
    skipFrom .value bs cs = skipFrom .closed bs rest := by
  rw [skipFrom_value hs, if_neg hb, if_neg hc, h]
  rfl

theorem skipScalar_numeral {n : Numeral} (hc : startsNumeral c = true)
    (h : numeral .malformed (c :: tail) = .ok (n, rest)) : skipScalar (c :: tail) = .ok rest := by
  have hne : ∀ d, startsNumeral d = false → c ≠ d := fun d => ne_of_startsNumeral hc
  rw [skipScalar, if_neg (hne 'n' rfl), if_neg (hne 't' rfl), if_neg (hne 'f' rfl),
    if_neg (hne '"' rfl), if_pos hc, h]
  rfl

/-- Where a scanner stands before a part. -/
def Part.before : Part → Place
  | value _ => .value
  | items true _ | members true _ => .opened
  | items false _ | members false _ => .closed

def Part.after : Part → Place
  | items true [] | members true [] => .opened
  | _ => .closed

def Part.within : Part → List Bracket → List Bracket
  | value _, bs => bs
  | items .., bs => .square :: bs
  | members .., bs => .curly :: bs

theorem close_part {place : Place} (hp : place = .opened ∨ place = .closed)
    (h : Spaced cs (b.close :: rest)) :
    skipFrom place (b :: bs) cs = skipFrom .closed bs rest := by
  have hs : skipSpace cs = b.close :: rest := h.skipSpace (by cases b <;> rfl)
  rcases hp with rfl | rfl
  · rw [skipFrom_opened hs, if_pos rfl]
  · rw [skipFrom_closed hs, if_pos rfl]

theorem Part.after_items (vs : List Content) :
    (items true vs).after = .opened ∨ (items true vs).after = .closed := by
  cases vs with
  | nil => exact .inl rfl
  | cons => exact .inr rfl

theorem Part.after_members (ms : List Member) :
    (members true ms).after = .opened ∨ (members true ms).after = .closed := by
  cases ms with
  | nil => exact .inl rfl
  | cons => exact .inr rfl

theorem skipFrom_phrase (h : Phrase p cs rest) (bs : List Bracket) :
    skipFrom p.before (p.within bs) cs = skipFrom p.after (p.within bs) rest := by
  induction h generalizing bs with
  | word hw hs =>
    rcases words_cases hw with ⟨rfl, rfl⟩ | ⟨rfl, rfl⟩ | ⟨rfl, rfl⟩ <;>
      exact skipFrom_scalar (hs.skipSpace rfl) (by decide) (by decide) rfl
  | numeral hs hn he =>
    have hr := numeral_text .malformed hn he
    obtain ⟨c, tail, rfl, hc⟩ := hn.starts
    exact skipFrom_scalar (hs.skipSpace (isSpace_of_startsNumeral hc))
      (ne_of_startsNumeral hc rfl) (ne_of_startsNumeral hc rfl) (skipScalar_numeral hc hr)
  | string hs hq =>
    exact skipFrom_scalar (hs.skipSpace rfl) (by decide) (by decide) (skipString_quoted hq)
  | @array cs start stop rest vs hs _ hr ih =>
    calc skipFrom .value bs cs
      _ = skipFrom .opened (.square :: bs) start := by
        rw [skipFrom_value (hs.skipSpace rfl), if_pos rfl]
      _ = skipFrom (Part.items true vs).after (.square :: bs) stop := ih bs
      _ = skipFrom .closed bs rest := close_part (Part.after_items vs) hr
  | @object cs start stop rest ms hs _ hr ih =>
    calc skipFrom .value bs cs
      _ = skipFrom .opened (.curly :: bs) start := by
        rw [skipFrom_value (hs.skipSpace rfl), if_neg (by decide), if_pos rfl]
      _ = skipFrom (Part.members true ms).after (.curly :: bs) stop := ih bs
      _ = skipFrom .closed bs rest := close_part (Part.after_members ms) hr
  | @noItems isFirst cs => cases isFirst <;> rfl
  | @firstItem cs mid rest v vs hv _ ihv ih =>
    calc skipFrom .opened (.square :: bs) cs
      _ = skipFrom .value (.square :: bs) cs := opened_value hv
      _ = skipFrom .closed (.square :: bs) mid := ihv (.square :: bs)
      _ = skipFrom .closed (.square :: bs) rest := ih bs
  | @nextItem cs start rest v vs hs hf ih =>
    calc skipFrom .closed (.square :: bs) cs
      _ = skipFrom .value (.square :: bs) start := by
        rw [skipFrom_closed (hs.skipSpace rfl), if_neg (by decide), if_pos rfl, Bracket.holds]
      _ = skipFrom .opened (.square :: bs) start := by
        cases hf with
        | firstItem hv _ => exact (opened_value hv).symm
      _ = skipFrom .closed (.square :: bs) rest := ih bs
  | @noMembers isFirst cs => cases isFirst <;> rfl
  | @firstMember cs start mid stop next rest m ms hs hk hc _ _ ihv ih =>
    have hkey : skipKey start = .ok stop := by
      rw [skipKey, skipString_quoted hk]
      dsimp only
      rw [colon, hc.skipSpace rfl]
      rfl
    calc skipFrom .opened (.curly :: bs) cs
      _ = skipFrom .key (.curly :: bs) cs := opened_key (hs.skipSpace rfl)
      _ = skipFrom .value (.curly :: bs) stop := by
        rw [skipFrom_key (hs.skipSpace rfl), hkey]
        rfl
      _ = skipFrom .closed (.curly :: bs) next := ihv (.curly :: bs)
      _ = skipFrom .closed (.curly :: bs) rest := ih bs
  | @nextMember cs start rest m ms hs hf ih =>
    calc skipFrom .closed (.curly :: bs) cs
      _ = skipFrom .key (.curly :: bs) start := by
        rw [skipFrom_closed (hs.skipSpace rfl), if_neg (by decide), if_pos rfl, Bracket.holds]
      _ = skipFrom .opened (.curly :: bs) start := by
        cases hf with
        | firstMember hq _ _ _ _ => exact (opened_key (hq.skipSpace rfl)).symm
      _ = skipFrom .closed (.curly :: bs) rest := ih bs

/-- A value of any depth is passed over to its end. -/
theorem skipValue_phrase (h : Phrase (.value v) cs rest) : skipValue cs = .ok rest := by
  calc skipValue cs
    _ = skipFrom .closed [] rest := skipFrom_phrase h []
    _ = .ok rest := by rw [skipFrom]

end Predictive.Json
