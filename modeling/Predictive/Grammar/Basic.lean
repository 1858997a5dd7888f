import Predictive.Fault

/-! A grammar is a start symbol and its productions in the order they were added. The declared names,
their alternatives and the alphabet are views of that list, so that nothing has to be kept in step
with it. An alphabet is a strictly increasing list, so that equal sets are equal lists. -/
namespace Predictive

namespace Alphabet

def insert (c : Char) : List Char → List Char
  | [] => [c]
  | d :: rest => if c < d then c :: d :: rest else if c = d then d :: rest else d :: insert c rest

def ofList (cs : List Char) : List Char :=
  cs.foldr insert []

@[simp] theorem mem_insert {a c : Char} {cs : List Char} : a ∈ insert c cs ↔ a = c ∨ a ∈ cs := by
  fun_induction insert c cs <;> simp_all
  exact or_left_comm

@[simp] theorem mem_ofList {a : Char} {cs : List Char} : a ∈ ofList cs ↔ a ∈ cs := by
  induction cs with
  | nil => simp [ofList]
  | cons c cs ih => simpa [ofList] using or_congr_right ih

theorem pairwise_insert {c : Char} {cs : List Char} (h : cs.Pairwise (· < ·)) :
    (insert c cs).Pairwise (· < ·) := by
  fun_induction insert c cs with
  | case1 => simp
  | case2 d rest hlt =>
    refine List.pairwise_cons.2 ⟨fun a ha => ?_, h⟩
    rcases List.mem_cons.1 ha with rfl | ha
    · exact hlt
    · exact Char.lt_trans hlt ((List.pairwise_cons.1 h).1 a ha)
  | case3 => exact h
  | case4 d rest hlt hne ih =>
    refine List.pairwise_cons.2 ⟨fun a ha => ?_, ih (List.pairwise_cons.1 h).2⟩
    rcases mem_insert.1 ha with rfl | ha
    · exact Char.not_le.1 fun h' => hne (Char.le_antisymm h' (Char.not_lt.1 hlt))
    · exact (List.pairwise_cons.1 h).1 a ha

theorem pairwise_ofList (cs : List Char) : (ofList cs).Pairwise (· < ·) := by
  induction cs with
  | nil => simp [ofList]
  | cons c cs ih => exact pairwise_insert ih

end Alphabet

@[ext] structure Grammar where
  start : String
  rules : List Production
  /-- Only what a rule can spell is ever stored. -/
  spellable : ∀ p ∈ rules, p.Spellable

namespace Grammar

def empty (start : String) : Grammar :=
  ⟨start, [], by simp⟩

def add (g : Grammar) (p : Production) (h : p.Spellable) : Grammar where
  start := g.start
  rules := g.rules ++ [p]
  spellable := by
    intro q hq
    rcases List.mem_append.1 hq with hq | hq
    · exact g.spellable q hq
    · rw [List.mem_singleton.1 hq]
      exact h

/-- The declared names, in the order of their first production. -/
def nonterminals (g : Grammar) : List String :=
  (g.rules.map (·.lhs)).eraseDups

def declares (g : Grammar) (name : String) : Bool :=
  g.rules.any (·.lhs == name)

def alternatives (g : Grammar) (name : String) : List Production :=
  g.rules.filter (·.lhs == name)

def productionsOf (g : Grammar) (name : String) : Except Fault (List Production) :=
  if g.declares name then .ok (g.alternatives name) else .error (.undeclared name)

def productions (g : Grammar) : List Production :=
  g.nonterminals.flatMap g.alternatives

def epsilonProductions (g : Grammar) : List Production :=
  g.productions.filter (·.isEpsilon)

def terminals (g : Grammar) : List Char :=
  Alphabet.ofList (g.rules.flatMap (·.rhs.terminals))

/-- Whether a symbol has no productions; a name that is not declared counts as one. -/
def isTerminal (g : Grammar) : Symbol → Bool
  | .terminal _ => true
  | .nonterminal name => !g.declares name

def undeclaredReference? (g : Grammar) (p : Production) : Option String :=
  p.references.find? fun name => !g.declares name

/-- Refuses a grammar whose start symbol or some name on a right-hand side has no
productions. -/
def validate (g : Grammar) : Except Fault Unit :=
  if g.declares g.start then
    match g.productions.findSome? fun p => (g.undeclaredReference? p).map (p, ·) with
    | some (p, name) => .error (.undeclaredReference p name)
    | none => .ok ()
  else .error (.undeclared g.start)

def line (g : Grammar) (name : String) : String :=
  name ++ " → " ++ " | ".intercalate ((g.alternatives name).map (·.rhsText))

def lines (g : Grammar) : List String :=
  g.nonterminals.map g.line

def text (g : Grammar) : String :=
  String.join (g.lines.map (· ++ "\n"))

theorem declares_iff {g : Grammar} {name : String} :
    g.declares name = true ↔ ∃ p ∈ g.rules, p.lhs = name := by
  simp [declares]

@[simp] theorem mem_alternatives {g : Grammar} {name : String} {p : Production} :
    p ∈ g.alternatives name ↔ p ∈ g.rules ∧ p.lhs = name := by
  simp [alternatives]

@[simp] theorem mem_nonterminals {g : Grammar} {name : String} :
    name ∈ g.nonterminals ↔ g.declares name = true := by
  simp [nonterminals, declares]

@[simp] theorem mem_productions {g : Grammar} {p : Production} :
    p ∈ g.productions ↔ p ∈ g.rules := by
  simp only [productions, List.mem_flatMap, mem_nonterminals, mem_alternatives]
  exact ⟨fun ⟨_, _, h, _⟩ => h, fun h => ⟨p.lhs, declares_iff.2 ⟨p, h, rfl⟩, h, rfl⟩⟩

@[simp] theorem mem_terminals {g : Grammar} {c : Char} :
    c ∈ g.terminals ↔ ∃ p ∈ g.rules, c ∈ p.rhs.terminals := by
  simp [terminals]

end Grammar

end Predictive
