import Predictive.Json.Skip

/-! The settings of the sentence generator, read from JSON. A text is read from left to right, and
the first fault met is the answer. An array gives the settings in their order and may end early; the
members of an object may come in any order, a known key only once. -/
namespace Predictive

structure Settings where
  maxLength : Nat := 15
  /-- The number of choices after which a branch is given up. -/
  maxDepth : Nat := 64
  seed : Option UInt64 := none
deriving DecidableEq, Repr

namespace Settings

structure Found where
  maxLength : Option Nat := none
  maxDepth : Option Nat := none
  seed : Option (Option UInt64) := none
deriving DecidableEq, Repr

def Found.settings (found : Found) : Settings where
  maxLength := found.maxLength.getD ({} : Settings).maxLength
  maxDepth := found.maxDepth.getD ({} : Settings).maxDepth
  seed := found.seed.getD ({} : Settings).seed

end Settings

namespace Settings
open Json

/-- A scalar of the wrong type is a fault only once it has been read to its end. -/
def faultAfter : Except TextFault α → TextFault
  | .error fault => fault
  | .ok _ => .mistyped

/-- A numeral that is no count is of the wrong type, or malformed if it overflows. -/
def refusedNumeral (n : Numeral) : TextFault :=
  if n.overflows then .malformed else .mistyped

/-- The fault of a value where one of its kind cannot stand. Of an array or an object only
the opening bracket is read. -/
def refusal : List Char → TextFault
  | [] => .truncated
  | c :: rest =>
    if c = 'n' then faultAfter (literal ['u', 'l', 'l'] rest)
    else if c = 't' then faultAfter (literal ['r', 'u', 'e'] rest)
    else if c = 'f' then faultAfter (literal ['a', 'l', 's', 'e'] rest)
    else if c = '"' then faultAfter (string rest)
    else if startsNumeral c then
      match numeral .truncated (c :: rest) with
      | .error fault => fault
      | .ok (n, _) => refusedNumeral n
    else if c = '[' ∨ c = '\x7b' then .mistyped
    else .malformed

def countOf (n : Numeral) : Except TextFault Nat :=
  match n.count? with
  | some k => .ok k
  | none => .error (refusedNumeral n)

def readNumber (cs : List Char) : Except TextFault (Nat × List Char) :=
  match numeral .truncated cs with
  | .error fault => .error fault
  | .ok (n, rest) => (countOf n).map (·, rest)

def readCount (cs : List Char) : Except TextFault (Nat × List Char) :=
  match skipSpace cs with
  | [] => .error .truncated
  | c :: rest =>
    if startsNumeral c then readNumber (c :: rest) else .error (refusal (c :: rest))

def readSeed (cs : List Char) : Except TextFault (Option UInt64 × List Char) :=
  match skipSpace cs with
  | 'n' :: rest => (literal ['u', 'l', 'l'] rest).map (none, ·)
  | cs => (readCount cs).map fun r => (some (.ofNat r.1), r.2)

theorem length_readNumber_lt {cs rest : List Char} {n : Nat}
    (h : readNumber cs = .ok (n, rest)) : rest.length < cs.length := by
  unfold readNumber at h
  split at h
  · contradiction
  next hn =>
    obtain ⟨k, _, he⟩ := map_eq_ok_iff.1 h
    cases he
    exact length_numeral_lt hn

theorem length_readCount_lt {cs rest : List Char} {n : Nat}
    (h : readCount cs = .ok (n, rest)) : rest.length < cs.length := by
  unfold readCount at h
  split at h
  · contradiction
  next hs =>
    split at h
    · have := length_readNumber_lt h
      have := length_skipSpace_le cs
      rw [hs] at this
      omega
    · contradiction

theorem length_readSeed_lt {cs rest : List Char} {seed : Option UInt64}
    (h : readSeed cs = .ok (seed, rest)) : rest.length < cs.length := by
  unfold readSeed at h
  split at h
  next tail hs =>
    obtain ⟨r, hr, he⟩ := map_eq_ok_iff.1 h
    cases he
    exact Nat.lt_of_le_of_lt (length_literal_le hr) (length_lt_of_skipSpace hs)
  · obtain ⟨r, hr, he⟩ := map_eq_ok_iff.1 h
    cases he
    exact Nat.lt_of_lt_of_le (length_readCount_lt hr) (length_skipSpace_le cs)

end Settings

namespace Settings
open Json

def nextElement (isFirst : Bool) (cs : List Char) : Except TextFault (Option (List Char)) :=
  match skipSpace cs with
  | [] => .error .truncated
  | c :: rest =>
    if c = ']' then .ok none
    else if isFirst then .ok (some (c :: rest))
    else if c = ',' then
      match skipSpace rest with
      | [] => .error .truncated
      | d :: rest => if d = ']' then .error .malformed else .ok (some (d :: rest))
    else .error .malformed

def element (isFirst : Bool) (read : List Char → Except TextFault (α × List Char))
    (cs : List Char) : Except TextFault (Option α × List Char) :=
  match nextElement isFirst cs with
  | .error fault => .error fault
  | .ok none => .ok (none, cs)
  | .ok (some cs) => (read cs).map fun r => (some r.1, r.2)

def closeArray (cs : List Char) : Except TextFault (List Char) :=
  match skipSpace cs with
  | [] => .error .truncated
  | c :: rest => if c = ']' then .ok rest else .error .malformed

def readArray (cs : List Char) : Except TextFault (Settings × List Char) := do
  let (maxLength, cs) ← element true readCount cs
  let (maxDepth, cs) ← element false readCount cs
  let (seed, cs) ← element false readSeed cs
  let cs ← closeArray cs
  return ((⟨maxLength, maxDepth, seed⟩ : Found).settings, cs)

end Settings

namespace Settings
open Json

/-- The value of a known key, after the key. A key that was given before is refused
before its value is read. -/
def readKnown (old : Option α) (read : List Char → Except TextFault (α × List Char))
    (keep : α → Found) (cs : List Char) : Except TextFault (Found × List Char) :=
  if old.isSome then .error .mistyped
  else
    match colon cs with
    | .error fault => .error fault
    | .ok cs => (read cs).map fun r => (keep r.1, r.2)

def readUnknown (found : Found) (cs : List Char) : Except TextFault (Found × List Char) :=
  match colon cs with
  | .error fault => .error fault
  | .ok cs => (skipValue cs).map (found, ·)

def readValue (key : List Char) (found : Found) (cs : List Char) :
    Except TextFault (Found × List Char) :=
  if key = "max_length".toList then
    readKnown found.maxLength readCount (fun n => { found with maxLength := some n }) cs
  else if key = "max_depth".toList then
    readKnown found.maxDepth readCount (fun n => { found with maxDepth := some n }) cs
  else if key = "seed".toList then
    readKnown found.seed readSeed (fun s => { found with seed := some s }) cs
  else readUnknown found cs

def readMember (found : Found) (cs : List Char) : Except TextFault (Found × List Char) :=
  match string cs with
  | .error fault => .error fault
  | .ok (key, cs) => readValue key found cs

def nextKey (isFirst : Bool) (cs : List Char) : Except TextFault (Option (List Char)) :=
  match skipSpace cs with
  | [] => .error .truncated
  | c :: rest =>
    if c = '\x7d' then .ok none
    else if isFirst then if c = '"' then .ok (some rest) else .error .malformed
    else if c = ',' then
      match skipSpace rest with
      | [] => .error .truncated
      | d :: rest => if d = '"' then .ok (some rest) else .error .malformed
    else .error .malformed

theorem length_readKnown_lt {old : Option α}
    {read : List Char → Except TextFault (α × List Char)} {keep : α → Found}
    (hread : ∀ {cs a rest}, read cs = .ok (a, rest) → rest.length < cs.length)
    {cs rest : List Char} {found : Found} (h : readKnown old read keep cs = .ok (found, rest)) :
    rest.length < cs.length := by
  unfold readKnown at h
  split at h
  · contradiction
  · split at h
    · contradiction
    next hc =>
      obtain ⟨r, hr, he⟩ := map_eq_ok_iff.1 h
      cases he
      exact Nat.lt_trans (hread hr) (length_colon_lt hc)

theorem length_readUnknown_lt {cs rest : List Char} {found found' : Found}
    (h : readUnknown found cs = .ok (found', rest)) : rest.length < cs.length := by
  unfold readUnknown at h
  split at h
  · contradiction
  next hc =>
    obtain ⟨r, hr, he⟩ := map_eq_ok_iff.1 h
    cases he
    exact Nat.lt_of_le_of_lt (length_skipValue_le hr) (length_colon_lt hc)

theorem length_readValue_lt {key cs rest : List Char} {found found' : Found}
    (h : readValue key found cs = .ok (found', rest)) : rest.length < cs.length := by
  unfold readValue at h
  repeat' split at h
  · exact length_readKnown_lt length_readCount_lt h
  · exact length_readKnown_lt length_readCount_lt h
  · exact length_readKnown_lt length_readSeed_lt h
  · exact length_readUnknown_lt h

theorem length_readMember_lt {cs rest : List Char} {found found' : Found}
    (h : readMember found cs = .ok (found', rest)) : rest.length < cs.length := by
  unfold readMember at h
  split at h
  · contradiction
  next hs => exact Nat.lt_trans (length_readValue_lt h) (length_string_lt hs)

theorem length_nextKey_lt {isFirst : Bool} {cs rest : List Char}
    (h : nextKey isFirst cs = .ok (some rest)) : rest.length < cs.length := by
  unfold nextKey at h
  split at h
  · contradiction
  next hs =>
    have := length_lt_of_skipSpace hs
    split at h
    · cases h
    · split at h
      · split at h
        · cases h
          exact this
        · contradiction
      · split at h
        · split at h
          · contradiction
          next ht =>
            have := length_lt_of_skipSpace ht
            split at h
            · cases h
              omega
            · contradiction
        · contradiction

def readMembers (isFirst : Bool) (found : Found) (cs : List Char) :
    Except TextFault (Found × List Char) :=
  match _h : nextKey isFirst cs with
  | .error fault => .error fault
  | .ok none => .ok (found, (skipSpace cs).tail)
  | .ok (some rest) =>
    match _h : readMember found rest with
    | .error fault => .error fault
    | .ok (found, rest) => readMembers false found rest
termination_by cs.length
decreasing_by
  have := length_nextKey_lt (by assumption)
  have := length_readMember_lt (by assumption)
  omega

end Settings

namespace Settings
open Json

def readFrom (cs : List Char) : Except TextFault (Settings × List Char) :=
  match skipSpace cs with
  | [] => .error .truncated
  | c :: rest =>
    if c = '[' then readArray rest
    else if c = '\x7b' then (readMembers true {} rest).map fun r => (r.1.settings, r.2)
    else .error (refusal (c :: rest))

/-- Reads settings; nothing but space may follow them. -/
def read (text : String) : Except TextFault Settings :=
  match readFrom text.toList with
  | .error fault => .error fault
  | .ok (settings, rest) =>
    if skipSpace rest = [] then .ok settings else .error .malformed

def ofFile (content : Except FileFault ByteArray) : Except Fault Settings :=
  match content with
  | .error fault => .error (.file fault)
  | .ok bytes =>
    match String.fromUTF8? bytes with
    | none => .error (.file .notText)
    | some text => (read text).mapError .settings

end Settings

end Predictive
