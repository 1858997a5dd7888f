import Predictive.Table

/-! The predictive machine. A configuration is a stack, top first, and the input still to be read;
both end with the end-marker, which no move removes. An analysis is a run that records every step,
and the record of acceptance repeats the number and the configuration of the step that reached it. -/
namespace Predictive

structure Parser where
  grammar : Grammar
  table : Table

namespace Parser

def standard : Parser :=
  ⟨Grammar.standard, Table.standardRows⟩

def alphabet (p : Parser) : List Char :=
  p.grammar.terminals

def foreign? (p : Parser) (word : List Char) : Option (Char × Nat) :=
  word.zipIdx.find? fun s => s.1 ∉ p.alphabet

def check (p : Parser) (input : String) : Except Fault (List Char) :=
  let word := trim input.toList
  if word = [] then .error .emptySentence
  else
    match p.foreign? word with
    | some (c, position) => .error (.foreignSymbol c position)
    | none => .ok word

end Parser

structure Configuration where
  stack : List Symbol
  input : List Char
deriving DecidableEq, Repr

inductive Action where
  | initial
  | matched (terminal : Char)
  | applied (production : Production)
  | mismatch (expected found : Char)
  | noEntry (name : String) (lookahead : Char)
  | accept (steps : Nat)
deriving DecidableEq, Repr

def Action.text : Action → String
  | initial => "initial configuration"
  | matched c => "matched terminal " ++ Fault.quoted c
  | applied p => "applied " ++ p.text
  | mismatch expected found =>
    "error: expected " ++ Fault.quoted expected ++ ", found " ++ Fault.quoted found
  | noEntry name c => "error: no production for " ++ name ++ " with input " ++ Fault.quoted c
  | accept steps => "accepted in " ++ toString steps ++ " steps"

namespace Configuration

def initial (start : String) (word : List Char) : Configuration :=
  ⟨[.nonterminal start, .terminal endMarker], word ++ [endMarker]⟩

def lookahead (c : Configuration) : Char :=
  c.input.headD endMarker

def isFinal (c : Configuration) : Bool :=
  c.stack == [.terminal endMarker] && c.input == [endMarker]

def prescribed? (t : Table) (c : Configuration) : Option Action :=
  match c.stack with
  | [] => none
  | .terminal a :: _ =>
    if a = c.lookahead then some (.matched a) else some (.mismatch a c.lookahead)
  | .nonterminal name :: _ =>
    match t.entry name c.lookahead with
    | some p => some (.applied p)
    | none => some (.noEntry name c.lookahead)

/-- The configuration after an action; only matching and applying change it. -/
def after (c : Configuration) : Action → Configuration
  | .matched _ => ⟨c.stack.tail, c.input.tail⟩
  | .applied p => ⟨p.rhs ++ c.stack.tail, c.input⟩
  | _ => c

def stackText (c : Configuration) : String :=
  " ".intercalate (c.stack.reverse.map Symbol.text)

def inputText (c : Configuration) : String :=
  String.ofList c.input

end Configuration

inductive Status where
  | running
  | accepted (steps : Nat)
  | mismatch (expected found : Char)
  | noEntry (name : String) (lookahead : Char)
deriving DecidableEq, Repr

namespace Status

def isFinished : Status → Bool
  | running => false
  | _ => true

def isAccepted : Status → Bool
  | accepted _ => true
  | _ => false

def rejection? : Status → Option Fault
  | mismatch expected found => some (.mismatch expected found)
  | noEntry name c => some (.noEntry name c)
  | _ => none

def ofAction : Action → Status
  | .mismatch expected found => mismatch expected found
  | .noEntry name c => noEntry name c
  | _ => running

def text : Status → String
  | running => "running"
  | accepted steps => "accepted in " ++ toString steps ++ " steps"
  | mismatch expected found => "rejected: " ++ (Fault.mismatch expected found).message
  | noEntry name c => "rejected: " ++ (Fault.noEntry name c).message

end Status

/-- A line of the trace: what was done, and the configuration it led to. -/
structure Record where
  number : Nat
  configuration : Configuration
  action : Action
deriving DecidableEq, Repr

structure Analysis where
  configuration : Configuration
  steps : Nat
  status : Status
  /-- The records, latest first. -/
  history : List Record
deriving DecidableEq, Repr

namespace Analysis

def record (a : Analysis) (action : Action) : Analysis :=
  { a with history := ⟨a.steps, a.configuration, action⟩ :: a.history }

def trace (a : Analysis) : List Record :=
  a.history.reverse

def ofWord (start : String) (word : List Char) : Analysis :=
  record ⟨.initial start word, 0, .running, []⟩ .initial

def start (p : Parser) (input : String) : Except Fault Analysis :=
  (p.check input).map (ofWord p.grammar.start)

def isFinished (a : Analysis) : Bool :=
  a.status.isFinished

def perform (a : Analysis) (action : Action) : Analysis :=
  record ⟨a.configuration.after action, a.steps + 1, .ofAction action, a.history⟩ action

/-- Accepts when only the end-markers are left. -/
def settle (a : Analysis) : Analysis :=
  if a.status = .running ∧ a.configuration.isFinal then
    record { a with status := .accepted a.steps } (.accept a.steps)
  else a

def step (p : Parser) (a : Analysis) : Analysis :=
  if a.isFinished then a
  else
    match a.configuration.prescribed? p.table with
    | some action => (a.perform action).settle
    | none => a

def runWithin (p : Parser) : Nat → Analysis → Analysis
  | 0, a => a
  | limit + 1, a => if a.isFinished then a else runWithin p limit (a.step p)

/-- A number of steps within which every run that ends at all has ended. While one
character is ahead, a name that comes to the top within its own expansion comes back
for ever; so expansions nest no deeper than there are rows, a symbol costs at most
`(width + 1) ^ rows` steps until it is gone or shows a terminal, and no more than
`rows * width` symbols are added to the stack before the next match. -/
def limit (p : Parser) (a : Analysis) : Nat :=
  let rows := p.table.rows.length
  let ahead := a.configuration.input.length
  let height := a.configuration.stack.length + ahead * (rows * p.table.width)
  (ahead + 1) * (height * Nat.pow (p.table.width + 1) rows + 1)

def run (p : Parser) (a : Analysis) : Analysis :=
  a.runWithin p (a.limit p)

def available (p : Parser) (a : Analysis) : List Production :=
  match a.configuration.stack with
  | .nonterminal name :: _ => if a.isFinished then [] else p.grammar.alternatives name
  | _ => []

def predicted? (p : Parser) (a : Analysis) : Option Production :=
  match a.configuration.stack with
  | .nonterminal name :: _ =>
    if a.isFinished then none else p.table.entry name a.configuration.lookahead
  | _ => none

@[simp] theorem record_configuration (a : Analysis) (action : Action) :
    (a.record action).configuration = a.configuration := rfl

@[simp] theorem record_steps (a : Analysis) (action : Action) :
    (a.record action).steps = a.steps := rfl

@[simp] theorem record_status (a : Analysis) (action : Action) :
    (a.record action).status = a.status := rfl

@[simp] theorem record_history (a : Analysis) (action : Action) :
    (a.record action).history = ⟨a.steps, a.configuration, action⟩ :: a.history := rfl

theorem step_of_isFinished (p : Parser) {a : Analysis} (h : a.isFinished = true) :
    a.step p = a := by
  simp [step, h]

end Analysis

namespace Parser

def parse (p : Parser) (input : String) : Except Fault Analysis :=
  (Analysis.start p input).map (Analysis.run p)

def accepts (p : Parser) (input : String) : Bool :=
  match p.parse input with
  | .ok a => a.status.isAccepted
  | .error _ => false

end Parser

end Predictive
