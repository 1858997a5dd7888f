import Predictive.Grammar.Basic

/-! Rules as they are written, and the grammar that the standard ones spell. A right-hand side is a
list of elements: ε by itself stands for nothing, a name between brackets for a non-terminal, and
any other element for the terminals that it spells, blanks left out. -/
namespace Predictive

/-- A rule as it is written: the name and the elements of its right-hand side. -/
structure Rule where
  name : String
  elements : List String
deriving DecidableEq, Repr

namespace Rule

/-- The name in an element such as `<A>`: at least one character and no closing bracket. -/
def bracketed? : List Char → Option String
  | '<' :: rest =>
    let name := rest.takeWhile (· ≠ '>')
    if name ≠ [] ∧ rest.dropWhile (· ≠ '>') = ['>'] then some (String.ofList name) else none
  | _ => none

def readElement (owner element : String) : Except Fault Form :=
  if element = "ε" then .ok []
  else
    match bracketed? element.toList with
    | some name => .ok [.nonterminal name]
    | none =>
      let letters := element.toList.filter (!isBlank ·)
      if endMarker ∈ letters then .error (.reservedMarker owner)
      else .ok (letters.map .terminal)

def readElements (owner : String) : List String → Except Fault Form
  | [] => .ok []
  | element :: rest =>
    match readElement owner element with
    | .error fault => .error fault
    | .ok form => (readElements owner rest).map (form ++ ·)

/-- Reads a right-hand side. A rule without elements is refused: an empty right-hand
side is written out. -/
def read (rule : Rule) : Except Fault Production :=
  if rule.elements = [] then .error (.noElements rule.name)
  else (readElements rule.name rule.elements).map (⟨rule.name, ·⟩)

theorem spellable_bracketed? {cs : List Char} {name : String} (h : bracketed? cs = some name) :
    (Symbol.nonterminal name).Spellable := by
  unfold bracketed? at h
  split at h
  next rest =>
    simp only at h
    split at h
    next hc =>
      cases h
      refine ⟨fun he => hc.1 ?_, ?_⟩
      · simpa using congrArg String.toList he
      · rw [String.toList_ofList]
        intro hm
        simpa using List.all_eq_true.1 List.all_takeWhile _ hm
    · contradiction
  · contradiction

theorem spellable_readElement {owner element : String} {form : Form}
    (h : readElement owner element = .ok form) : ∀ s ∈ form, s.Spellable := by
  unfold readElement at h
  split at h
  · cases h; simp
  · split at h
    next name hn =>
      cases h
      simpa using spellable_bracketed? hn
    · dsimp only at h
      split at h
      · contradiction
      next hm =>
        cases h
        intro s hs
        obtain ⟨c, hc, rfl⟩ := List.mem_map.1 hs
        exact ⟨fun he => hm (he ▸ hc), by simpa using (List.mem_filter.1 hc).2⟩

theorem spellable_readElements {owner : String} {elements : List String} {form : Form}
    (h : readElements owner elements = .ok form) : ∀ s ∈ form, s.Spellable := by
  induction elements generalizing form with
  | nil => cases h; simp
  | cons element rest ih =>
    unfold readElements at h
    split at h
    · contradiction
    next head hh =>
      obtain ⟨tail, ht, rfl⟩ := map_eq_ok_iff.1 h
      intro s hs
      rcases List.mem_append.1 hs with hs | hs
      · exact spellable_readElement hh s hs
      · exact ih ht s hs

theorem spellable_read {rule : Rule} {p : Production} (h : rule.read = .ok p) : p.Spellable := by
  unfold read at h
  split at h
  · contradiction
  · obtain ⟨form, hr, rfl⟩ := map_eq_ok_iff.1 h
    exact spellable_readElements hr

end Rule

namespace Grammar

def addRule (g : Grammar) (rule : Rule) : Except Fault Grammar :=
  match h : rule.read with
  | .ok p => .ok (g.add p (Rule.spellable_read h))
  | .error fault => .error fault

def addRules (g : Grammar) : List Rule → Except Fault Grammar
  | [] => .ok g
  | rule :: rest =>
    match g.addRule rule with
    | .ok g' => g'.addRules rest
    | .error fault => .error fault

def ofRules (start : String) (rules : List Rule) : Except Fault Grammar :=
  (empty start).addRules rules

def build (start : String) (rules : List Rule) : Except Fault Grammar :=
  match ofRules start rules with
  | .ok g => g.validate.map fun _ => g
  | .error fault => .error fault

theorem addRule_eq_ok_iff {g g' : Grammar} {rule : Rule} :
    g.addRule rule = .ok g' ↔
      ∃ p, rule.read = .ok p ∧ g'.start = g.start ∧ g'.rules = g.rules ++ [p] := by
  unfold addRule
  split
  next p hp =>
    simp only [hp, Except.ok.injEq]
    constructor
    · rintro rfl
      exact ⟨p, rfl, rfl, rfl⟩
    · rintro ⟨q, rfl, hs, hr⟩
      exact Grammar.ext hs.symm hr.symm
  next fault hf => simp [hf]

end Grammar

namespace Grammar

def standardRules : List Rule :=
  [⟨"S", ["a", "<C>", "b"]⟩,
   ⟨"S", ["b", "<A>"]⟩,
   ⟨"S", ["c", "<B>", "c"]⟩,
   ⟨"A", ["a", "<B>"]⟩,
   ⟨"A", ["ε"]⟩,
   ⟨"B", ["a", "<A>", "c"]⟩,
   ⟨"B", ["b", "<C>", "b"]⟩,
   ⟨"C", ["a", "<D>"]⟩,
   ⟨"C", ["c", "<A>", "b"]⟩,
   ⟨"C", ["ε"]⟩,
   ⟨"D", ["a", "<B>"]⟩,
   ⟨"D", ["b", "<A>"]⟩,
   ⟨"D", ["d", "<A>"]⟩]

def standard : Grammar where
  start := "S"
  rules :=
    [⟨"S", [.terminal 'a', .nonterminal "C", .terminal 'b']⟩,
     ⟨"S", [.terminal 'b', .nonterminal "A"]⟩,
     ⟨"S", [.terminal 'c', .nonterminal "B", .terminal 'c']⟩,
     ⟨"A", [.terminal 'a', .nonterminal "B"]⟩,
     ⟨"A", []⟩,
     ⟨"B", [.terminal 'a', .nonterminal "A", .terminal 'c']⟩,
     ⟨"B", [.terminal 'b', .nonterminal "C", .terminal 'b']⟩,
     ⟨"C", [.terminal 'a', .nonterminal "D"]⟩,
     ⟨"C", [.terminal 'c', .nonterminal "A", .terminal 'b']⟩,
     ⟨"C", []⟩,
     ⟨"D", [.terminal 'a', .nonterminal "B"]⟩,
     ⟨"D", [.terminal 'b', .nonterminal "A"]⟩,
     ⟨"D", [.terminal 'd', .nonterminal "A"]⟩]
  spellable := by decide

theorem build_standardRules : build "S" standardRules = .ok standard := by
  rfl

end Grammar

end Predictive
