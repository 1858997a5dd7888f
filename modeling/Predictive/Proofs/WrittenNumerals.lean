import Predictive.Json.Numeral

/-! Numerals as JSON writes them: a sign, digits without a leading zero, and perhaps a fraction
and an exponent. A numeral that ends where nothing can go on with it is read to its end
and keeps its digits, so what it is worth is a question about its text alone. -/
namespace Predictive.Json

def Run (cs : List Char) : Prop :=
  cs ≠ [] ∧ ∀ c ∈ cs, c.isDigit = true

def digitsOf (cs : List Char) : List Nat :=
  cs.map (·.toNat - 48)

/-- Digits before the point: a zero begins no other run than itself. -/
def Whole (cs : List Char) : Prop :=
  Run cs ∧ (cs.head? = some '0' → cs = ['0'])

inductive FractionText : List Char → Option (List Nat) → Prop
  | none : FractionText [] none
  | some {cs : List Char} : Run cs → FractionText ('.' :: cs) (some (digitsOf cs))

inductive ExponentText : List Char → Option (Bool × List Nat) → Prop
  | none : ExponentText [] none
  | unsigned {e : Char} {cs : List Char} : e = 'e' ∨ e = 'E' → Run cs →
      ExponentText (e :: cs) (some (false, digitsOf cs))
  | plus {e : Char} {cs : List Char} : e = 'e' ∨ e = 'E' → Run cs →
      ExponentText (e :: '+' :: cs) (some (false, digitsOf cs))
  | minus {e : Char} {cs : List Char} : e = 'e' ∨ e = 'E' → Run cs →
      ExponentText (e :: '-' :: cs) (some (true, digitsOf cs))

inductive NumeralText : List Char → Numeral → Prop
  | mk {whole fraction exponent : List Char} {f : Option (List Nat)}
      {e : Option (Bool × List Nat)} (negative : Bool) : Whole whole →
      FractionText fraction f → ExponentText exponent e →
      NumeralText ((if negative then ['-'] else []) ++ (whole ++ (fraction ++ exponent)))
        ⟨negative, digitsOf whole, f, e⟩

/-- Nothing follows that a numeral could go on with. -/
def Ends (rest : List Char) : Prop :=
  ∀ c ∈ rest.head?, c.isDigit = false ∧ c ≠ '.' ∧ c ≠ 'e' ∧ c ≠ 'E'

variable {atEnd : TextFault} {cs rest whole fraction exponent text : List Char} {n : Numeral}
  {f : Option (List Nat)} {e : Option (Bool × List Nat)}

theorem digits_run (h : Run cs) (hr : ∀ c ∈ rest.head?, c.isDigit = false) :
    digits atEnd (cs ++ rest) = .ok (digitsOf cs, rest) := by
  have ht : rest.takeWhile Char.isDigit = [] := by
    cases rest with
    | nil => rfl
    | cons c tail => simp [hr c rfl]
  have hd : rest.dropWhile Char.isDigit = rest := by
    cases rest with
    | nil => rfl
    | cons c tail => simp [hr c rfl]
  have hv : digitValues (cs ++ rest) = digitsOf cs := by
    rw [digitValues, List.takeWhile_append_of_pos h.2, ht, List.append_nil, digitsOf]
  have ha : afterDigits (cs ++ rest) = rest := by
    rw [afterDigits, List.dropWhile_append_of_pos h.2, hd]
  unfold digits
  rw [hv, ha]
  split
  next he => exact absurd (List.map_eq_nil_iff.1 he) h.1
  next => rfl

theorem eq_zero_of_toNat {c : Char} (h : c.isDigit = true) (hz : c.toNat - 48 = 0) : c = '0' := by
  have hc : 48 ≤ c.toNat := by
    simp only [Char.isDigit, Bool.and_eq_true, decide_eq_true_eq] at h
    exact h.1
  exact Char.toNat_inj.1 (by simp; omega)

theorem wholeDigits_whole (h : Whole cs) (hr : ∀ c ∈ rest.head?, c.isDigit = false) :
    wholeDigits atEnd (cs ++ rest) = .ok (digitsOf cs, rest) := by
  have hz : ¬((digitsOf cs).head? = some 0 ∧ digitsOf cs ≠ [0]) := by
    rintro ⟨hh, hn⟩
    obtain ⟨c, hc, hz⟩ := Option.map_eq_some_iff.1 (List.head?_map.symm.trans hh)
    have he := eq_zero_of_toNat (h.1.2 c (List.mem_of_head? hc)) hz
    rw [h.2 (he ▸ hc)] at hn
    exact hn rfl
  rw [wholeDigits, digits_run h.1 hr]
  dsimp only
  rw [if_neg hz]

theorem ExponentText.head (h : ExponentText exponent e) (hr : Ends rest) :
    ∀ c ∈ (exponent ++ rest).head?, c.isDigit = false ∧ c ≠ '.' := by
  intro c hc
  cases h with
  | none => exact ⟨(hr c hc).1, (hr c hc).2.1⟩
  | unsigned he | plus he | minus he =>
    cases hc
    rcases he with rfl | rfl <;> decide

theorem FractionText.head (h : FractionText fraction f) (he : ExponentText exponent e)
    (hr : Ends rest) : ∀ c ∈ (fraction ++ (exponent ++ rest)).head?, c.isDigit = false := by
  intro c hc
  cases h with
  | none => exact (he.head hr c hc).1
  | some =>
    cases hc
    decide

theorem fractionDigits?_text (h : FractionText fraction f) (he : ExponentText exponent e)
    (hr : Ends rest) :
    fractionDigits? atEnd (fraction ++ (exponent ++ rest)) = .ok (f, exponent ++ rest) := by
  cases h with
  | none =>
    rw [List.nil_append]
    unfold fractionDigits?
    split
    next tail hs => exact absurd rfl (he.head hr '.' (by rw [hs]; rfl)).2
    next => rfl
  | some h =>
    rw [List.cons_append, fractionDigits?, digits_run h fun c hc => (he.head hr c hc).1]
    rfl

theorem Run.exists_cons (h : Run cs) : ∃ c tail, cs = c :: tail ∧ c.isDigit = true := by
  obtain ⟨c, tail, rfl⟩ := List.exists_cons_of_ne_nil h.1
  exact ⟨c, tail, rfl, h.2 c List.mem_cons_self⟩

theorem exponentSign_run (h : Run cs) : exponentSign (cs ++ rest) = (false, cs ++ rest) := by
  obtain ⟨c, tail, rfl, hc⟩ := h.exists_cons
  rw [List.cons_append]
  unfold exponentSign
  split
  next hs => cases hs; exact absurd hc (by decide)
  next hs => cases hs; exact absurd hc (by decide)
  next => rfl

theorem exponentDigits?_text (h : ExponentText exponent e) (hr : Ends rest) :
    exponentDigits? atEnd (exponent ++ rest) = .ok (e, rest) := by
  have hd : ∀ c ∈ rest.head?, c.isDigit = false := fun c hc => (hr c hc).1
  cases h with
  | none =>
    cases rest with
    | nil => rfl
    | cons c tail =>
      have hc : ¬(c = 'e' ∨ c = 'E') := not_or.2 (hr c rfl).2.2
      rw [List.nil_append, exponentDigits?, if_neg hc]
  | unsigned he h =>
    rw [List.cons_append, exponentDigits?, if_pos he, exponentSign_run h, digits_run h hd]
    rfl
  | plus he h | minus he h =>
    rw [List.cons_append, List.cons_append, exponentDigits?, if_pos he, exponentSign,
      digits_run h hd]
    rfl

theorem unsignedNumeral_text (atEnd : TextFault) (hw : Whole whole) (hf : FractionText fraction f)
    (he : ExponentText exponent e) (hr : Ends rest) (negative : Bool) :
    unsignedNumeral atEnd negative (whole ++ (fraction ++ (exponent ++ rest))) =
      .ok (⟨negative, digitsOf whole, f, e⟩, rest) := by
  rw [unsignedNumeral, wholeDigits_whole hw (hf.head he hr)]
  dsimp only
  rw [fractionDigits?_text hf he hr]
  dsimp only
  rw [exponentDigits?_text he hr]
  rfl

theorem numeral_text (atEnd : TextFault) (h : NumeralText text n) (hr : Ends rest) :
    numeral atEnd (text ++ rest) = .ok (n, rest) := by
  cases h with
  | @mk whole fraction exponent f e negative hw hf he =>
    have hu := unsignedNumeral_text atEnd hw hf he hr negative
    cases negative with
    | true =>
      simp only [if_true, List.append_assoc, List.cons_append, List.nil_append]
      rw [numeral, hu]
    | false =>
      simp only [Bool.false_eq_true, if_false, List.append_assoc, List.nil_append]
      obtain ⟨c, tail, rfl, hc⟩ := hw.1.exists_cons
      unfold numeral
      split
      next hs =>
        cases hs
        exact absurd hc (by decide)
      next => exact hu

theorem NumeralText.starts (h : NumeralText text n) :
    ∃ c tail, text = c :: tail ∧ startsNumeral c = true := by
  cases h with
  | mk negative hw hf he =>
    cases negative with
    | true => exact ⟨'-', _, rfl, rfl⟩
    | false =>
      obtain ⟨c, tail, rfl, hc⟩ := hw.1.exists_cons
      exact ⟨c, _, rfl, by rw [startsNumeral, hc, Bool.or_true]⟩

def decimal (k : Nat) : Numeral :=
  ⟨false, digitsOf (Nat.toDigits 10 k), none, none⟩

theorem value_digitsOf (cs : List Char) :
    Numeral.value (digitsOf cs) = Nat.ofDigitChars 10 cs 0 := by
  rw [Numeral.value, digitsOf, List.foldl_map, Nat.ofDigitChars_eq_foldl]
  simp only [Nat.mul_comm]
  rfl

theorem value_decimal (k : Nat) : Numeral.value (decimal k).whole = k := by
  rw [decimal, value_digitsOf, Nat.ofDigitChars_ten_toDigits]

theorem whole_toDigits (k : Nat) : Whole (Nat.toDigits 10 k) := by
  refine ⟨⟨Nat.toDigits_ne_nil, fun c hc =>
    Nat.isDigit_of_mem_toDigits (by decide) (by decide) hc⟩, ?_⟩
  induction k using Nat.strongRecOn with
  | _ k ih =>
    intro hz
    by_cases hk : k < 10
    · rw [Nat.toDigits_of_lt_base hk] at hz ⊢
      rw [Option.some.inj hz]
    · obtain ⟨c, tail, he⟩ := List.exists_cons_of_ne_nil (@Nat.toDigits_ne_nil (k / 10) 10)
      rw [Nat.toDigits_of_base_le (by decide) (Nat.le_of_not_lt hk), he] at hz
      have hd : k / 10 = 0 := calc
        k / 10 = Nat.ofDigitChars 10 (Nat.toDigits 10 (k / 10)) 0 :=
          Nat.ofDigitChars_ten_toDigits.symm
        _ = Nat.ofDigitChars 10 ['0'] 0 := by rw [ih (k / 10) (by omega) (he ▸ hz)]
        _ = 0 := rfl
      omega

theorem decimal_text (k : Nat) : NumeralText (toString k).toList (decimal k) := by
  simpa [decimal] using NumeralText.mk false (whole_toDigits k) .none .none

end Predictive.Json
