import Predictive.Grammar.Rules

/-! Hand-written parsing tables. A table has one row for each declared name, and a row stores
right-hand sides only: the left-hand side of an entry is the name of its row. A row is printed in
columns, whose widths count code points. -/
namespace Predictive

namespace Column

def left (width : Nat) (text : String) : String :=
  String.ofList (text.toList.rightpad width ' ')

def right (width : Nat) (text : String) : String :=
  String.ofList (text.toList.leftpad width ' ')

theorem left_eq (width : Nat) (text : String) :
    left width text = text ++ String.ofList (.replicate (width - text.length) ' ') := by
  rw [left, List.rightpad, String.ofList_append, String.ofList_toList, String.length_toList]

end Column

structure Row where
  name : String
  /-- The filled cells, in increasing order of their lookaheads. -/
  cells : List (Char × Form)
deriving DecidableEq, Repr

namespace Row

def insert (lookahead : Char) (rhs : Form) : List (Char × Form) → List (Char × Form)
  | [] => [(lookahead, rhs)]
  | cell :: rest =>
    if lookahead < cell.1 then (lookahead, rhs) :: cell :: rest
    else cell :: insert lookahead rhs rest

def entries (row : Row) : List (Char × Production) :=
  row.cells.map fun cell => (cell.1, ⟨row.name, cell.2⟩)

def text (row : Row) : String :=
  Column.left 3 row.name ++
    "  ".intercalate (row.cells.map fun cell => String.singleton cell.1 ++ ": " ++ cell.2.text)

end Row

/-- A cell as it is written: the right-hand side is given by its text. -/
structure Cell where
  name : String
  lookahead : Char
  rhs : String
deriving DecidableEq, Repr

structure Table where
  rows : List Row
deriving DecidableEq, Repr

namespace Table

def empty (g : Grammar) : Table :=
  ⟨g.nonterminals.map (⟨·, []⟩)⟩

def entry (t : Table) (name : String) (lookahead : Char) : Option Production :=
  (t.rows.find? (·.name == name)).bind fun row =>
    (row.cells.lookup lookahead).map (⟨name, ·⟩)

def fill (t : Table) (lookahead : Char) (p : Production) : Table :=
  ⟨t.rows.map fun row =>
    if row.name = p.lhs then ⟨row.name, Row.insert lookahead p.rhs row.cells⟩ else row⟩

/-- The production that a written cell means: the first of its name with that text. -/
def resolve (g : Grammar) (cell : Cell) : Except Fault Production :=
  if cell.lookahead ≠ endMarker ∧ cell.lookahead ∉ g.terminals then
    .error (.foreignLookahead cell.name cell.lookahead)
  else
    match g.productionsOf cell.name with
    | .error fault => .error fault
    | .ok ps =>
      match ps.find? (·.rhsText == cell.rhs) with
      | some p => .ok p
      | none => .error (.unmatchedCell cell.name cell.rhs)

def add (g : Grammar) (t : Table) (cell : Cell) : Except Fault Table :=
  match resolve g cell with
  | .error fault => .error fault
  | .ok p =>
    if (t.entry cell.name cell.lookahead).isSome then
      .error (.occupiedCell cell.name cell.lookahead)
    else .ok (t.fill cell.lookahead p)

def addAll (g : Grammar) : List Cell → Table → Except Fault Table
  | [], t => .ok t
  | cell :: rest, t =>
    match add g t cell with
    | .ok t' => addAll g rest t'
    | .error fault => .error fault

/-- Checks written cells against a grammar, stopping at the first that is refused. -/
def ofCells (g : Grammar) (cells : List Cell) : Except Fault Table :=
  addAll g cells (empty g)

def entries (t : Table) : List (Char × Production) :=
  t.rows.flatMap Row.entries

def size (t : Table) : Nat :=
  t.entries.length

def isEmpty (t : Table) : Bool :=
  t.entries.isEmpty

def width (t : Table) : Nat :=
  (t.entries.map (·.2.rhs.length)).foldr max 0

def lines (t : Table) : List String :=
  t.rows.map Row.text

def text (t : Table) : String :=
  String.join (t.lines.map (· ++ "\n"))

theorem lhs_of_entry {t : Table} {name : String} {c : Char} {p : Production}
    (h : t.entry name c = some p) : p.lhs = name := by
  obtain ⟨row, _, h⟩ := Option.bind_eq_some_iff.1 h
  obtain ⟨rhs, _, rfl⟩ := Option.map_eq_some_iff.1 h
  rfl

def standardCells : List Cell :=
  [⟨"S", 'a', "aCb"⟩, ⟨"S", 'b', "bA"⟩, ⟨"S", 'c', "cBc"⟩,
   ⟨"A", 'a', "aB"⟩, ⟨"A", 'b', "ε"⟩, ⟨"A", 'c', "ε"⟩, ⟨"A", '$', "ε"⟩,
   ⟨"B", 'a', "aAc"⟩, ⟨"B", 'b', "bCb"⟩,
   ⟨"C", 'a', "aD"⟩, ⟨"C", 'b', "ε"⟩, ⟨"C", 'c', "cAb"⟩,
   ⟨"D", 'a', "aB"⟩, ⟨"D", 'b', "bA"⟩, ⟨"D", 'd', "dA"⟩]

def standard (g : Grammar) : Except Fault Table :=
  ofCells g standardCells

def standardRows : Table where
  rows :=
    [⟨"S", [('a', [.terminal 'a', .nonterminal "C", .terminal 'b']),
            ('b', [.terminal 'b', .nonterminal "A"]),
            ('c', [.terminal 'c', .nonterminal "B", .terminal 'c'])]⟩,
     ⟨"A", [('$', []), ('a', [.terminal 'a', .nonterminal "B"]), ('b', []), ('c', [])]⟩,
     ⟨"B", [('a', [.terminal 'a', .nonterminal "A", .terminal 'c']),
            ('b', [.terminal 'b', .nonterminal "C", .terminal 'b'])]⟩,
     ⟨"C", [('a', [.terminal 'a', .nonterminal "D"]), ('b', []),
            ('c', [.terminal 'c', .nonterminal "A", .terminal 'b'])]⟩,
     ⟨"D", [('a', [.terminal 'a', .nonterminal "B"]), ('b', [.terminal 'b', .nonterminal "A"]),
            ('d', [.terminal 'd', .nonterminal "A"])]⟩]

theorem standard_standard : standard Grammar.standard = .ok standardRows := by
  rfl

end Table

end Predictive
