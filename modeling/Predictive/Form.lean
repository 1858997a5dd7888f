/-! Symbols, forms and productions. A form is a list of symbols; a derivation expands it at its
leftmost non-terminal, everything before which is finished text. Two productions may share one
text, since a terminal and a non-terminal of the same letter are printed alike. Blanks are the
characters of the Unicode property White_Space, so they are a table and not an ASCII test. -/
namespace Predictive

/-- The code points of White_Space, as closed ranges. -/
def blankRanges : List (Nat × Nat) :=
  [(0x9, 0xD), (0x20, 0x20), (0x85, 0x85), (0xA0, 0xA0), (0x1680, 0x1680), (0x2000, 0x200A),
   (0x2028, 0x2029), (0x202F, 0x202F), (0x205F, 0x205F), (0x3000, 0x3000)]

def isBlank (c : Char) : Bool :=
  blankRanges.any fun r => decide (r.1 ≤ c.toNat) && decide (c.toNat ≤ r.2)

def trim (cs : List Char) : List Char :=
  ((cs.dropWhile isBlank).reverse.dropWhile isBlank).reverse

inductive Symbol where
  | terminal (c : Char)
  | nonterminal (name : String)
deriving DecidableEq, Repr

/-- The character that stands for the end of the input and the bottom of a stack. -/
def endMarker : Char := '$'

namespace Symbol

def terminal? : Symbol → Option Char
  | terminal c => some c
  | nonterminal _ => none

def name? : Symbol → Option String
  | terminal _ => none
  | nonterminal name => some name

def text : Symbol → String
  | terminal c => String.singleton c
  | nonterminal name => name

/-- The symbols that a rule can spell: a blank would be skipped, the end-marker is
reserved, and the name of a non-terminal stands between brackets. -/
def Spellable : Symbol → Prop
  | terminal c => c ≠ endMarker ∧ isBlank c = false
  | nonterminal name => name ≠ "" ∧ '>' ∉ name.toList

instance : DecidablePred Spellable
  | terminal _ => inferInstanceAs (Decidable (_ ∧ _))
  | nonterminal _ => inferInstanceAs (Decidable (_ ∧ _))

end Symbol

abbrev Form := List Symbol

namespace Form

def current? : Form → Option String
  | [] => none
  | .terminal _ :: rest => current? rest
  | .nonterminal name :: _ => some name

def leftmost? (form : Form) : Option Nat :=
  form.findIdx? (·.name?.isSome)

/-- Puts `rhs` in the place of the leftmost non-terminal. -/
def expand : Form → Form → Form
  | [], _ => []
  | .terminal c :: rest, rhs => .terminal c :: expand rest rhs
  | .nonterminal _ :: rest, rhs => rhs ++ rest

def terminals (form : Form) : List Char :=
  form.filterMap Symbol.terminal?

/-- The terminals as one text: the sentence, once no non-terminal is left. -/
def projection (form : Form) : String :=
  String.ofList form.terminals

def terminalCount (form : Form) : Nat :=
  form.terminals.length

def isComplete (form : Form) : Bool :=
  form.current?.isNone

def names (form : Form) : List String :=
  form.filterMap Symbol.name?

def text (form : Form) : String :=
  if form.isEmpty then "ε" else String.join (form.map Symbol.text)

@[simp] theorem terminals_nil : terminals [] = [] := rfl

@[simp] theorem terminals_terminal (c : Char) (form : Form) :
    terminals (.terminal c :: form) = c :: terminals form := rfl

@[simp] theorem terminals_nonterminal (name : String) (form : Form) :
    terminals (.nonterminal name :: form) = terminals form := rfl

@[simp] theorem terminals_append (a b : Form) :
    terminals (a ++ b) = terminals a ++ terminals b := by
  simp [terminals]

end Form

structure Production where
  lhs : String
  rhs : Form
deriving DecidableEq, Repr

namespace Production

def isEpsilon (p : Production) : Bool :=
  p.rhs.isEmpty

def references (p : Production) : List String :=
  p.rhs.names

def rhsText (p : Production) : String :=
  p.rhs.text

def text (p : Production) : String :=
  p.lhs ++ " → " ++ p.rhsText

def Spellable (p : Production) : Prop :=
  ∀ s ∈ p.rhs, s.Spellable

instance : DecidablePred Spellable :=
  fun p => inferInstanceAs (Decidable (∀ s ∈ p.rhs, s.Spellable))

end Production

end Predictive
