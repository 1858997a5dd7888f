import Predictive.Fault

/-! The words of JSON. Each scanner takes the text from where the word begins and
returns the rest, and no scanner returns a longer text than it took. -/
namespace Predictive.Json

def isSpace (c : Char) : Bool :=
  c == ' ' || c == '\t' || c == '\n' || c == '\r'

def skipSpace (cs : List Char) : List Char :=
  cs.dropWhile isSpace

theorem length_skipSpace_le (cs : List Char) : (skipSpace cs).length ≤ cs.length :=
  (List.dropWhile_suffix isSpace).length_le

theorem length_lt_of_skipSpace {cs rest : List Char} {c : Char}
    (h : skipSpace cs = c :: rest) : rest.length < cs.length := by
  have := length_skipSpace_le cs
  rw [h, List.length_cons] at this
  omega

def literal : List Char → List Char → Except TextFault (List Char)
  | [], cs => .ok cs
  | _ :: _, [] => .error .truncated
  | e :: es, c :: cs => if c = e then literal es cs else .error .malformed

theorem length_literal_le {es cs rest : List Char} (h : literal es cs = .ok rest) :
    rest.length ≤ cs.length := by
  fun_induction literal es cs with
  | case1 => cases h; exact Nat.le_refl _
  | case2 => contradiction
  | case3 e es cs ih => exact Nat.le_succ_of_le (ih h)
  | case4 => contradiction

def colon (cs : List Char) : Except TextFault (List Char) :=
  match skipSpace cs with
  | [] => .error .truncated
  | c :: rest => if c = ':' then .ok rest else .error .malformed

theorem length_colon_lt {cs rest : List Char} (h : colon cs = .ok rest) :
    rest.length < cs.length := by
  unfold colon at h
  split at h
  · contradiction
  next hs =>
    split at h
    · cases h; exact length_lt_of_skipSpace hs
    · contradiction

def hexDigit? (c : Char) : Option Nat :=
  if '0' ≤ c ∧ c ≤ '9' then some (c.toNat - 48)
  else if 'a' ≤ c ∧ c ≤ 'f' then some (c.toNat - 87)
  else if 'A' ≤ c ∧ c ≤ 'F' then some (c.toNat - 55)
  else none

/-- The four hexadecimal digits of a 16-bit unit. A text of fewer than four bytes ends
too early, whatever it holds. -/
def unit : List Char → Except TextFault (Nat × List Char)
  | a :: b :: c :: d :: rest =>
    match hexDigit? a, hexDigit? b, hexDigit? c, hexDigit? d with
    | some a, some b, some c, some d => .ok (((a * 16 + b) * 16 + c) * 16 + d, rest)
    | _, _, _, _ => .error .malformed
  | few => .error (if (String.ofList few).utf8ByteSize < 4 then .truncated else .malformed)

theorem length_unit_lt {cs rest : List Char} {n : Nat} (h : unit cs = .ok (n, rest)) :
    rest.length < cs.length := by
  unfold unit at h
  split at h
  · split at h
    · cases h; simp only [List.length_cons]; omega
    · contradiction
  · contradiction

def escaped? : Char → Option Char
  | '"' => some '"'
  | '\\' => some '\\'
  | '/' => some '/'
  | 'b' => some '\x08'
  | 'f' => some '\x0c'
  | 'n' => some '\n'
  | 'r' => some '\r'
  | 't' => some '\t'
  | _ => none

def isLeading (n : Nat) : Bool :=
  decide (0xD800 ≤ n) && decide (n < 0xDC00)

def isTrailing (n : Nat) : Bool :=
  decide (0xDC00 ≤ n) && decide (n < 0xE000)

def paired (n m : Nat) : Char :=
  .ofNat (0x10000 + (n - 0xD800) * 0x400 + (m - 0xDC00))

def trailing (cs : List Char) : Except TextFault (Nat × List Char) :=
  match literal ['\\', 'u'] cs with
  | .error fault => .error fault
  | .ok rest =>
    match unit rest with
    | .error fault => .error fault
    | .ok (n, rest) => if isTrailing n then .ok (n, rest) else .error .malformed

/-- The character of an escape, after its backslash. A surrogate needs its partner. -/
def escape : List Char → Except TextFault (Char × List Char)
  | [] => .error .truncated
  | c :: rest =>
    if c = 'u' then
      match unit rest with
      | .error fault => .error fault
      | .ok (n, rest) =>
        if isTrailing n then .error .malformed
        else if isLeading n then
          match trailing rest with
          | .error fault => .error fault
          | .ok (m, rest) => .ok (paired n m, rest)
        else .ok (.ofNat n, rest)
    else
      match escaped? c with
      | some d => .ok (d, rest)
      | none => .error .malformed

/-- Passes over an escape, after its backslash; surrogates may stand alone. -/
def skipEscape : List Char → Except TextFault (List Char)
  | [] => .error .truncated
  | c :: rest =>
    if c = 'u' then (unit rest).map (·.2)
    else if (escaped? c).isSome then .ok rest
    else .error .malformed

theorem length_trailing_lt {cs rest : List Char} {n : Nat} (h : trailing cs = .ok (n, rest)) :
    rest.length < cs.length := by
  unfold trailing at h
  split at h
  · contradiction
  next hl =>
    split at h
    · contradiction
    next hu =>
      split at h
      · cases h
        exact Nat.lt_of_lt_of_le (length_unit_lt hu) (length_literal_le hl)
      · contradiction

theorem length_escape_lt {cs rest : List Char} {c : Char} (h : escape cs = .ok (c, rest)) :
    rest.length < cs.length := by
  unfold escape at h
  split at h
  · contradiction
  · rw [List.length_cons]
    split at h
    · split at h
      · contradiction
      next hu =>
        have := length_unit_lt hu
        split at h
        · contradiction
        · split at h
          · split at h
            · contradiction
            next ht =>
              have := length_trailing_lt ht
              simp only [Except.ok.injEq, Prod.mk.injEq] at h
              rw [← h.2]
              omega
          · simp only [Except.ok.injEq, Prod.mk.injEq] at h
            rw [← h.2]
            omega
    · split at h
      · cases h
        exact Nat.lt_succ_self _
      · contradiction

theorem length_skipEscape_lt {cs rest : List Char} (h : skipEscape cs = .ok rest) :
    rest.length < cs.length := by
  unfold skipEscape at h
  split at h
  · contradiction
  · rw [List.length_cons]
    split at h
    · obtain ⟨r, hu, rfl⟩ := map_eq_ok_iff.1 h
      exact Nat.lt_succ_of_lt (length_unit_lt hu)
    · split at h
      · cases h
        exact Nat.lt_succ_self _
      · contradiction

def string (cs : List Char) : Except TextFault (List Char × List Char) :=
  match cs with
  | [] => .error .truncated
  | c :: rest =>
    if c = '"' then .ok ([], rest)
    else if c = '\\' then
      match _h : escape rest with
      | .error fault => .error fault
      | .ok (d, rest) => (string rest).map fun r => (d :: r.1, r.2)
    else if c.toNat < 0x20 then .error .malformed
    else (string rest).map fun r => (c :: r.1, r.2)
termination_by cs.length
decreasing_by
  · have := length_escape_lt _h
    simp only [List.length_cons]
    omega
  · simp

def skipString (cs : List Char) : Except TextFault (List Char) :=
  match cs with
  | [] => .error .truncated
  | c :: rest =>
    if c = '"' then .ok rest
    else if c = '\\' then
      match _h : skipEscape rest with
      | .error fault => .error fault
      | .ok rest => skipString rest
    else if c.toNat < 0x20 then .error .malformed
    else skipString rest
termination_by cs.length
decreasing_by
  · have := length_skipEscape_lt _h
    simp only [List.length_cons]
    omega
  · simp

theorem length_string_lt {cs rest key : List Char} (h : string cs = .ok (key, rest)) :
    rest.length < cs.length := by
  fun_induction string cs generalizing key with
  | case1 => contradiction
  | case2 => cases h; simp
  | case3 => contradiction
  | case4 tail d r he _ ih =>
    obtain ⟨q, hs, hq⟩ := map_eq_ok_iff.1 h
    cases hq
    have := length_escape_lt he
    have := ih hs
    rw [List.length_cons]
    omega
  | case5 => contradiction
  | case6 c tail _ _ _ ih =>
    obtain ⟨q, hs, hq⟩ := map_eq_ok_iff.1 h
    cases hq
    exact Nat.lt_succ_of_lt (ih hs)

theorem length_skipString_lt {cs rest : List Char} (h : skipString cs = .ok rest) :
    rest.length < cs.length := by
  fun_induction skipString cs with
  | case1 => contradiction
  | case2 => cases h; simp
  | case3 => contradiction
  | case4 tail r he _ ih =>
    have := length_skipEscape_lt he
    have := ih h
    rw [List.length_cons]
    omega
  | case5 => contradiction
  | case6 c tail _ _ _ ih => exact Nat.lt_succ_of_lt (ih h)

end Predictive.Json
