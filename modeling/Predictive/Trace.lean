import Predictive.Analysis

/-! Traces in print, as JSON or in columns. JSON is printed with two blanks for each level and one
element to a line, and only what has to be escaped is escaped. The bottom of a stack comes first. -/
namespace Predictive

namespace Json

inductive Value where
  | number (n : Nat)
  | text (s : String)
  | list (items : List Value)
  | object (members : List (String × Value))

namespace Value

def quotedChar (c : Char) : List Char :=
  match c with
  | '"' => ['\\', '"']
  | '\\' => ['\\', '\\']
  | '\x08' => ['\\', 'b']
  | '\x0c' => ['\\', 'f']
  | '\n' => ['\\', 'n']
  | '\r' => ['\\', 'r']
  | '\t' => ['\\', 't']
  | c =>
    if c.toNat < 0x20 then
      ['\\', 'u', '0', '0', Nat.digitChar (c.toNat / 16), Nat.digitChar (c.toNat % 16)]
    else [c]

def quoted (s : String) : String :=
  String.ofList ('"' :: s.toList.flatMap quotedChar ++ ['"'])

def indent (depth : Nat) : String :=
  String.ofList (List.replicate (2 * depth) ' ')

/-- Lines between brackets, `depth` levels deep; nothing stands between empty brackets. -/
def enclose (opening closing : String) (depth : Nat) (lines : List String) : String :=
  if lines.isEmpty then opening ++ closing
  else
    opening ++ "\n" ++ ",\n".intercalate (lines.map (indent (depth + 1) ++ ·)) ++ "\n" ++
      indent depth ++ closing

mutual

def pretty (depth : Nat) : Value → String
  | number n => toString n
  | text s => quoted s
  | list items => enclose "[" "]" depth (prettyItems (depth + 1) items)
  | object members => enclose "\x7b" "\x7d" depth (prettyMembers (depth + 1) members)

def prettyItems (depth : Nat) : List Value → List String
  | [] => []
  | v :: rest => pretty depth v :: prettyItems depth rest

def prettyMembers (depth : Nat) : List (String × Value) → List String
  | [] => []
  | (key, v) :: rest => (quoted key ++ ": " ++ pretty depth v) :: prettyMembers depth rest

end

end Value

end Json

open Json

def Form.toJson (form : Form) : Value :=
  .list (form.map fun s => .text s.text)

def Production.toJson (p : Production) : Value :=
  .object [("lhs", .text p.lhs), ("elements", p.rhs.toJson)]

def charJson (c : Char) : Value :=
  .text (String.singleton c)

def Action.toJson : Action → Value
  | initial => .object [("kind", .text "initial")]
  | matched c => .object [("kind", .text "match"), ("terminal", charJson c)]
  | applied p => .object [("kind", .text "apply"), ("production", p.toJson)]
  | mismatch expected found =>
    .object [("kind", .text "mismatch"), ("expected", charJson expected), ("found", charJson found)]
  | noEntry name c =>
    .object [("kind", .text "no_entry"), ("nonterminal", .text name), ("lookahead", charJson c)]
  | accept steps => .object [("kind", .text "accept"), ("steps", .number steps)]

def Status.toJson : Status → Value
  | running => .object [("state", .text "running")]
  | accepted steps => .object [("state", .text "accepted"), ("steps", .number steps)]
  | mismatch expected found =>
    .object [("state", .text "rejected_mismatch"), ("expected", charJson expected),
      ("found", charJson found)]
  | noEntry name c =>
    .object [("state", .text "rejected_no_entry"), ("nonterminal", .text name),
      ("lookahead", charJson c)]

def Record.toJson (r : Record) : Value :=
  .object [("number", .number r.number), ("stack", Form.toJson r.configuration.stack.reverse),
    ("remaining", .text r.configuration.inputText), ("action", r.action.toJson)]

def Analysis.toJson (a : Analysis) : Value :=
  .list (a.trace.map Record.toJson)

def Record.line (numberWidth stackWidth : Nat) (r : Record) : String :=
  Column.right numberWidth (toString r.number) ++ "  " ++
    Column.left stackWidth r.configuration.stackText ++ " " ++
    Column.right 16 r.configuration.inputText ++ "  " ++ r.action.text

namespace Analysis

def header : String :=
  Column.right 4 "Step" ++ "  " ++ Column.left 20 "Stack" ++ " " ++ Column.right 16 "Input" ++
    "  Action"

def lines (a : Analysis) : List String :=
  header :: a.trace.map (Record.line 4 20) ++ ["", a.status.text]

end Analysis

end Predictive
