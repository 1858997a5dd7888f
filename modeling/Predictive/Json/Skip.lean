import Predictive.Json.Numeral

/-! Passing over a value that nobody asked for. The value has to be well formed, but its
strings may hold lone surrogates and its numerals may be out of range. Brackets that are
still open are kept in a list, so there is no limit to how deep they may nest. -/
namespace Predictive.Json

inductive Bracket where
  | square
  | curly
deriving DecidableEq, Repr

def Bracket.close : Bracket → Char
  | square => ']'
  | curly => '}'

/-- What is expected next. -/
inductive Place where
  | opened
  | value
  | key
  | closed
deriving DecidableEq, Repr

def Bracket.holds : Bracket → Place
  | square => .value
  | curly => .key

def Place.weight : Place → Nat
  | opened => 1
  | _ => 0

def skipScalar : List Char → Except TextFault (List Char)
  | [] => .error .truncated
  | c :: rest =>
    if c = 'n' then literal ['u', 'l', 'l'] rest
    else if c = 't' then literal ['r', 'u', 'e'] rest
    else if c = 'f' then literal ['a', 'l', 's', 'e'] rest
    else if c = '"' then skipString rest
    else if startsNumeral c then (numeral .malformed (c :: rest)).map (·.2)
    else .error .malformed

def skipKey (cs : List Char) : Except TextFault (List Char) :=
  match skipString cs with
  | .error fault => .error fault
  | .ok rest => colon rest

theorem length_skipScalar_lt {cs rest : List Char} (h : skipScalar cs = .ok rest) :
    rest.length < cs.length := by
  unfold skipScalar at h
  split at h
  · contradiction
  · repeat' split at h
    · exact Nat.lt_succ_of_le (length_literal_le h)
    · exact Nat.lt_succ_of_le (length_literal_le h)
    · exact Nat.lt_succ_of_le (length_literal_le h)
    · exact Nat.lt_succ_of_lt (length_skipString_lt h)
    · obtain ⟨r, hr, rfl⟩ := map_eq_ok_iff.1 h
      exact length_numeral_lt hr
    · contradiction

theorem length_skipKey_lt {cs rest : List Char} (h : skipKey cs = .ok rest) :
    rest.length < cs.length := by
  unfold skipKey at h
  split at h
  · contradiction
  next hs => exact Nat.lt_trans (length_colon_lt h) (length_skipString_lt hs)

/-- Passes over what the place and the open brackets, innermost first, still ask for. -/
def skipFrom (place : Place) (brackets : List Bracket) (cs : List Char) :
    Except TextFault (List Char) :=
  match place with
  | .value =>
    match _h : skipSpace cs with
    | [] => .error .truncated
    | c :: rest =>
      if c = '[' then skipFrom .opened (.square :: brackets) rest
      else if c = '\x7b' then skipFrom .opened (.curly :: brackets) rest
      else
        match _h : skipScalar (c :: rest) with
        | .error fault => .error fault
        | .ok rest => skipFrom .closed brackets rest
  | .key =>
    match _h : skipSpace cs with
    | [] => .error .truncated
    | c :: rest =>
      if c = '"' then
        match _h : skipKey rest with
        | .error fault => .error fault
        | .ok rest => skipFrom .value brackets rest
      else .error .malformed
  | .opened =>
    match brackets with
    | [] => .ok cs
    | b :: outer =>
      match _h : skipSpace cs with
      | [] => .error .truncated
      | c :: rest =>
        if c = b.close then skipFrom .closed outer rest
        else skipFrom b.holds (b :: outer) (c :: rest)
  | .closed =>
    match brackets with
    | [] => .ok cs
    | b :: outer =>
      match _h : skipSpace cs with
      | [] => .error .truncated
      | c :: rest =>
        if c = b.close then skipFrom .closed outer rest
        else if c = ',' then skipFrom b.holds (b :: outer) rest
        else .error .malformed
termination_by 2 * cs.length + place.weight
decreasing_by
  all_goals
    have := length_lt_of_skipSpace (by assumption)
    simp only [Place.weight]
  · omega
  · omega
  · have := length_skipScalar_lt (by assumption)
    rw [List.length_cons] at this
    omega
  · have := length_skipKey_lt (by assumption)
    omega
  · omega
  · rw [List.length_cons]
    cases b <;> simp only [Bracket.holds] <;> omega
  · omega
  · cases b <;> simp only [Bracket.holds] <;> omega

def skipValue (cs : List Char) : Except TextFault (List Char) :=
  skipFrom .value [] cs

theorem length_skipFrom_le {place : Place} {brackets : List Bracket} {cs rest : List Char}
    (h : skipFrom place brackets cs = .ok rest) : rest.length ≤ cs.length := by
  fun_induction skipFrom place brackets cs with
  | case1 | case4 | case6 | case7 | case9 | case11 | case15 | case18 => contradiction
  | case10 | case14 => cases h; exact Nat.le_refl _
  | case2 brackets cs rest hs ih | case3 brackets cs rest hs _ ih
  | case12 cs b outer rest hs ih | case16 cs b outer rest hs ih
  | case17 cs b outer rest hs _ ih =>
    exact Nat.le_trans (ih h) (Nat.le_of_lt (length_lt_of_skipSpace hs))
  | case5 brackets cs c rest hs _ _ tail ht ih =>
    have := length_lt_of_skipSpace hs
    have := length_skipScalar_lt ht
    have := ih h
    rw [List.length_cons] at *
    omega
  | case8 brackets cs rest tail ht hs ih =>
    have := length_lt_of_skipSpace hs
    have := length_skipKey_lt ht
    have := ih h
    omega
  | case13 cs b outer c rest hs _ ih =>
    have := length_lt_of_skipSpace hs
    have := ih h
    rw [List.length_cons] at this
    omega

theorem length_skipValue_le {cs rest : List Char} (h : skipValue cs = .ok rest) :
    rest.length ≤ cs.length :=
  length_skipFrom_le h

end Predictive.Json
