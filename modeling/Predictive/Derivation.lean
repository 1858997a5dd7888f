import Predictive.Grammar.Basic

/-! Leftmost derivations, and sessions that build them. A derivation is a list of choices, and its
form is always computed from the list, so wrong choices can be stored and taken back. A session
keeps the form beside the choices that made it. -/
namespace Predictive

/-- Which alternative of a non-terminal to apply, counted from zero. -/
structure Choice where
  name : String
  index : Nat
deriving DecidableEq, Repr

namespace Grammar

def chosen (g : Grammar) (c : Choice) : Except Fault Production :=
  match g.productionsOf c.name with
  | .error fault => .error fault
  | .ok ps =>
    match ps[c.index]? with
    | some p => .ok p
    | none => .error (.noAlternative c.name c.index)

/-- Applies a choice to a form whose leftmost non-terminal it must name. -/
def choose (g : Grammar) (c : Choice) (form : Form) : Except Fault (Production × Form) :=
  if form.current? = some c.name then
    match g.chosen c with
    | .ok p => .ok (p, form.expand p.rhs)
    | .error fault => .error fault
  else .error (.notLeftmost c.name)

def chooseAll (g : Grammar) : List Choice → Form → Except Fault Form
  | [], form => .ok form
  | c :: rest, form =>
    match g.choose c form with
    | .ok (_, next) => g.chooseAll rest next
    | .error fault => .error fault

def startForm (g : Grammar) : Form :=
  [.nonterminal g.start]

theorem chooseAll_append (g : Grammar) (a b : List Choice) (form : Form) :
    g.chooseAll (a ++ b) form = (g.chooseAll a form).bind (g.chooseAll b) := by
  induction a generalizing form with
  | nil => rfl
  | cons c rest ih =>
    simp only [List.cons_append, chooseAll]
    split
    · exact ih _
    · rfl

end Grammar

structure Derivation where
  choices : List Choice
deriving DecidableEq, Repr

namespace Derivation

def empty : Derivation :=
  ⟨[]⟩

def push (d : Derivation) (c : Choice) : Derivation :=
  ⟨d.choices ++ [c]⟩

def pop (d : Derivation) : Option Choice × Derivation :=
  (d.choices.getLast?, ⟨d.choices.dropLast⟩)

def length (d : Derivation) : Nat :=
  d.choices.length

def isEmpty (d : Derivation) : Bool :=
  d.choices.isEmpty

def form (g : Grammar) (d : Derivation) : Except Fault Form :=
  g.chooseAll d.choices g.startForm

def sentence (g : Grammar) (d : Derivation) : Except Fault String :=
  (d.form g).map Form.projection

def productions (g : Grammar) (d : Derivation) : List Production :=
  d.choices.filterMap fun c => (g.chosen c).toOption

@[simp] theorem form_empty (g : Grammar) : empty.form g = .ok g.startForm := rfl

theorem form_append (g : Grammar) (d : Derivation) (cs : List Choice) :
    (⟨d.choices ++ cs⟩ : Derivation).form g = (d.form g).bind (g.chooseAll cs) :=
  g.chooseAll_append d.choices cs g.startForm

theorem form_push (g : Grammar) (d : Derivation) (c : Choice) :
    (d.push c).form g = (d.form g).bind fun form => (g.choose c form).map (·.2) := by
  rw [push, form_append]
  congr 1
  funext form
  cases h : g.choose c form with
  | ok r => simp [Grammar.chooseAll, h, Except.map]
  | error fault => simp [Grammar.chooseAll, h, Except.map]

theorem productions_cons {g : Grammar} {c : Choice} {cs : List Choice} {p : Production}
    (hp : g.chosen c = .ok p) :
    (⟨c :: cs⟩ : Derivation).productions g = p :: (⟨cs⟩ : Derivation).productions g := by
  rw [productions, List.filterMap_cons, hp]
  rfl

@[simp] theorem pop_push (d : Derivation) (c : Choice) : (d.push c).pop = (some c, d) := by
  simp [pop, push]

end Derivation

/-! Guided derivations. Undoing replays all choices but the last from the start, which is what shrinks
the list of visited names again. -/

structure Session where
  derivation : Derivation
  form : Form
  /-- The non-terminals that were current, each once, in the order of their first turn. -/
  visited : List String
deriving DecidableEq, Repr

namespace Session

def start (g : Grammar) : Session :=
  ⟨.empty, g.startForm, [g.start]⟩

def current? (s : Session) : Option String :=
  s.form.current?

def available (g : Grammar) (s : Session) : List Production :=
  match s.current? with
  | some name => g.alternatives name
  | none => []

def visit (name : Option String) (visited : List String) : List String :=
  match name with
  | some name => if name ∈ visited then visited else visited ++ [name]
  | none => visited

def apply (g : Grammar) (index : Nat) (s : Session) : Except Fault (Production × Session) :=
  match s.current? with
  | none => .error .alreadyComplete
  | some name =>
    match g.choose ⟨name, index⟩ s.form with
    | .error fault => .error fault
    | .ok (p, next) =>
      .ok (p, ⟨s.derivation.push ⟨name, index⟩, next, visit next.current? s.visited⟩)

def applyAll (g : Grammar) : List Nat → Session → Except Fault Session
  | [], s => .ok s
  | index :: rest, s =>
    match s.apply g index with
    | .ok (_, next) => applyAll g rest next
    | .error fault => .error fault

def undo (g : Grammar) (s : Session) : Except Fault (Option Choice × Session) :=
  let (undone, kept) := s.derivation.pop
  (applyAll g (kept.choices.map (·.index)) (start g)).map (undone, ·)

def isComplete (s : Session) : Bool :=
  s.form.isComplete

def sentence? (s : Session) : Option String :=
  if s.isComplete then some s.form.projection else none

def steps (s : Session) : Nat :=
  s.derivation.length

def text (s : Session) : String :=
  s.form.text

end Session

end Predictive
