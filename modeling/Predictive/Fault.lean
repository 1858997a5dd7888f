import Predictive.Form

/-! What can go wrong, one constructor for each cause. The wording stands in one
place and is never compared. -/
namespace Predictive

inductive TextFault where
  | malformed
  | truncated
  | mistyped
deriving DecidableEq, Repr

inductive FileFault where
  | missing
  | notText
  | unreadable (reason : String)
deriving DecidableEq, Repr

inductive Fault where
  | reservedMarker (owner : String)
  | undeclaredReference (production : Production) (name : String)
  /-- A cell whose lookahead occurs in no production. -/
  | foreignLookahead (name : String) (lookahead : Char)
  | notLeftmost (name : String)
  | undeclared (name : String)
  | noElements (owner : String)
  | occupiedCell (name : String) (lookahead : Char)
  /-- A cell whose text is the right-hand side of no production. -/
  | unmatchedCell (name rhs : String)
  | emptySentence
  | foreignSymbol (symbol : Char) (position : Nat)
  | mismatch (expected found : Char)
  | noEntry (name : String) (lookahead : Char)
  | noAlternative (name : String) (index : Nat)
  | alreadyComplete
  | settings (fault : TextFault)
  | file (fault : FileFault)
deriving DecidableEq, Repr

def TextFault.message : TextFault → String
  | malformed => "the text is malformed"
  | truncated => "the text ends too early"
  | mistyped => "a value has the wrong type"

def FileFault.message : FileFault → String
  | missing => "No such file or directory (os error 2)"
  | notText => "stream did not contain valid UTF-8"
  | unreadable reason => reason

theorem map_eq_ok_iff {f : α → β} {x : Except ε α} {b : β} :
    x.map f = .ok b ↔ ∃ a, x = .ok a ∧ f a = b := by
  cases x <;> simp [Except.map]

theorem bind_eq_ok_iff {f : α → Except ε β} {x : Except ε α} {b : β} :
    x >>= f = .ok b ↔ ∃ a, x = .ok a ∧ f a = .ok b := by
  cases x <;> simp [bind, Except.bind]

namespace Fault

def quoted (c : Char) : String :=
  String.ofList ['\'', c, '\'']

def message : Fault → String
  | reservedMarker owner =>
    "Invalid grammar: the end-marker " ++ quoted endMarker ++
      " cannot appear in a production of " ++ owner
  | undeclaredReference p name =>
    "Invalid grammar: " ++ p.text ++ " references undefined non-terminal " ++ name
  | foreignLookahead name c =>
    "Invalid grammar: lookahead " ++ quoted c ++ " for " ++ name ++
      " is not a terminal of the grammar"
  | notLeftmost name =>
    "Invalid grammar: " ++ name ++ " is not the leftmost non-terminal"
  | undeclared name => "Unknown non-terminal: " ++ name
  | noElements owner =>
    "Empty production for " ++ owner ++ " (write ε for the empty string)"
  | occupiedCell name c => "Conflicting table entries for " ++ name ++ " on " ++ quoted c
  | unmatchedCell name rhs =>
    "Table entry " ++ name ++ " → " ++ rhs ++ " is not a production of the grammar"
  | emptySentence => "The sentence cannot be empty"
  | foreignSymbol c i =>
    "Invalid input symbol " ++ quoted c ++ " at position " ++ toString i
  | mismatch expected found => "Expected " ++ quoted expected ++ ", found " ++ quoted found
  | noEntry name c => "No production for " ++ name ++ " with input " ++ quoted c
  | noAlternative name i => name ++ " has no production number " ++ toString i
  | alreadyComplete => "The derivation is already complete"
  | settings fault => "JSON error: " ++ fault.message
  | file fault => "IO error: " ++ fault.message

end Fault

end Predictive
