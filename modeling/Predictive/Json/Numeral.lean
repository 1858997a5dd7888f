import Predictive.Json.Lexeme

/-! Numerals of JSON, and what they are worth. A numeral keeps its digits as written;
whether it is a count, and whether a binary64 number can hold it, are questions about
the digits that are answered in exact arithmetic. -/
namespace Predictive.Json

structure Numeral where
  negative : Bool
  whole : List Nat
  fraction : Option (List Nat)
  /-- Whether the exponent is negative, and its digits, if there is one. -/
  exponent : Option (Bool × List Nat)
deriving DecidableEq, Repr

def digitValues (cs : List Char) : List Nat :=
  (cs.takeWhile Char.isDigit).map (·.toNat - 48)

def afterDigits (cs : List Char) : List Char :=
  cs.dropWhile Char.isDigit

def digits (atEnd : TextFault) (cs : List Char) : Except TextFault (List Nat × List Char) :=
  match digitValues cs with
  | [] => .error (if cs = [] then atEnd else .malformed)
  | ds => .ok (ds, afterDigits cs)

def wholeDigits (atEnd : TextFault) (cs : List Char) :
    Except TextFault (List Nat × List Char) :=
  match digits atEnd cs with
  | .error fault => .error fault
  | .ok (ds, rest) =>
    if ds.head? = some 0 ∧ ds ≠ [0] then .error .malformed else .ok (ds, rest)

def fractionDigits? (atEnd : TextFault) (cs : List Char) :
    Except TextFault (Option (List Nat) × List Char) :=
  match cs with
  | '.' :: rest => (digits atEnd rest).map fun r => (some r.1, r.2)
  | _ => .ok (none, cs)

def exponentSign : List Char → Bool × List Char
  | '+' :: rest => (false, rest)
  | '-' :: rest => (true, rest)
  | cs => (false, cs)

def exponentDigits? (atEnd : TextFault) (cs : List Char) :
    Except TextFault (Option (Bool × List Nat) × List Char) :=
  match cs with
  | c :: rest =>
    if c = 'e' ∨ c = 'E' then
      (digits atEnd (exponentSign rest).2).map fun r => (some ((exponentSign rest).1, r.1), r.2)
    else .ok (none, cs)
  | [] => .ok (none, [])

def unsignedNumeral (atEnd : TextFault) (negative : Bool) (cs : List Char) :
    Except TextFault (Numeral × List Char) :=
  match wholeDigits atEnd cs with
  | .error fault => .error fault
  | .ok (whole, cs) =>
    match fractionDigits? atEnd cs with
    | .error fault => .error fault
    | .ok (fraction, cs) =>
      (exponentDigits? atEnd cs).map fun r => (⟨negative, whole, fraction, r.1⟩, r.2)

def numeral (atEnd : TextFault) (cs : List Char) : Except TextFault (Numeral × List Char) :=
  match cs with
  | '-' :: rest => unsignedNumeral atEnd true rest
  | _ => unsignedNumeral atEnd false cs

def startsNumeral (c : Char) : Bool :=
  c == '-' || c.isDigit

namespace Numeral

def value (ds : List Nat) : Nat :=
  ds.foldl (fun n d => n * 10 + d) 0

/-- The natural number below `2 ^ 64` that is written without sign, point and exponent. -/
def count? (n : Numeral) : Option Nat :=
  if n.negative = false ∧ n.fraction = none ∧ n.exponent = none ∧ value n.whole < UInt64.size then
    some (value n.whole)
  else none

/-- Appends digits to a significand while it fits 64 bits, and tells how many were left. -/
def absorb : List Nat → Nat → Nat × Nat
  | [], n => (n, 0)
  | d :: ds, n => if n * 10 + d < UInt64.size then absorb ds (n * 10 + d) else (n, ds.length + 1)

/-- The nearest number of 53 significant bits, a tie going to the even one. -/
def round53 (n : Nat) : Nat :=
  if n < 1 <<< 53 then n
  else
    let unit := 1 <<< (n.log2 - 52)
    let q := n / unit
    let r := n % unit
    (if 2 * r > unit ∨ (2 * r = unit ∧ q % 2 = 1) then q + 1 else q) * unit

/-- The significand of at most 64 bits, and the power of ten that goes with it. -/
def scientific (n : Numeral) : Nat × Int :=
  let (whole, dropped) := absorb n.whole 0
  let fraction := n.fraction.getD []
  let (significand, ignored) := absorb fraction whole
  let shift : Int := match n.exponent with
    | none => 0
    | some (true, ds) => -(value ds : Int)
    | some (false, ds) => value ds
  (significand, dropped - (fraction.length - ignored : Nat) + shift)

/-- Whether the number is too large for binary64: its significand and its power of ten
are rounded to 53 bits, and their product reaches the point that rounds to infinity. -/
def overflows (n : Numeral) : Bool :=
  let (significand, power) := n.scientific
  if significand = 0 ∨ power < 0 then false
  else if power > 308 then true
  else decide (1 <<< 1024 - 1 <<< 970 ≤ round53 significand * round53 (Nat.pow 10 power.toNat))

end Numeral

theorem length_digits_lt {atEnd : TextFault} {cs rest : List Char} {ds : List Nat}
    (h : digits atEnd cs = .ok (ds, rest)) : rest.length < cs.length := by
  unfold digits at h
  split at h
  · contradiction
  next hne =>
    cases h
    cases cs with
    | nil => exact absurd rfl hne
    | cons c rest =>
      by_cases hc : c.isDigit = true
      · rw [afterDigits, List.dropWhile_cons_of_pos hc]
        exact Nat.lt_succ_of_le (List.dropWhile_suffix _).length_le
      · simp [digitValues, hc] at hne

theorem length_wholeDigits_lt {atEnd : TextFault} {cs rest : List Char} {ds : List Nat}
    (h : wholeDigits atEnd cs = .ok (ds, rest)) : rest.length < cs.length := by
  unfold wholeDigits at h
  split at h
  · contradiction
  next hd =>
    split at h
    · contradiction
    · cases h
      exact length_digits_lt hd

theorem length_fractionDigits?_le {atEnd : TextFault} {cs rest : List Char}
    {f : Option (List Nat)} (h : fractionDigits? atEnd cs = .ok (f, rest)) :
    rest.length ≤ cs.length := by
  unfold fractionDigits? at h
  split at h
  · obtain ⟨r, hr, he⟩ := map_eq_ok_iff.1 h
    cases he
    exact Nat.le_of_lt (Nat.lt_succ_of_lt (length_digits_lt hr))
  · cases h
    exact Nat.le_refl _

theorem length_exponentSign_le (cs : List Char) : (exponentSign cs).2.length ≤ cs.length := by
  unfold exponentSign
  split <;> simp

theorem length_exponentDigits?_le {atEnd : TextFault} {cs rest : List Char}
    {e : Option (Bool × List Nat)} (h : exponentDigits? atEnd cs = .ok (e, rest)) :
    rest.length ≤ cs.length := by
  unfold exponentDigits? at h
  split at h
  next c tail =>
    split at h
    · obtain ⟨r, hr, he⟩ := map_eq_ok_iff.1 h
      cases he
      have := length_digits_lt hr
      have := length_exponentSign_le tail
      rw [List.length_cons]
      omega
    · cases h
      exact Nat.le_refl _
  · cases h
    exact Nat.le_refl _

theorem length_unsignedNumeral_lt {atEnd : TextFault} {negative : Bool} {cs rest : List Char}
    {n : Numeral} (h : unsignedNumeral atEnd negative cs = .ok (n, rest)) :
    rest.length < cs.length := by
  unfold unsignedNumeral at h
  split at h
  · contradiction
  next hw =>
    split at h
    · contradiction
    next hf =>
      obtain ⟨r, hr, he⟩ := map_eq_ok_iff.1 h
      cases he
      have := length_wholeDigits_lt hw
      have := length_fractionDigits?_le hf
      have := length_exponentDigits?_le hr
      omega

theorem length_numeral_lt {atEnd : TextFault} {cs rest : List Char} {n : Numeral}
    (h : numeral atEnd cs = .ok (n, rest)) : rest.length < cs.length := by
  unfold numeral at h
  split at h
  · exact Nat.lt_succ_of_lt (length_unsignedNumeral_lt h)
  · exact length_unsignedNumeral_lt h

end Predictive.Json
