import Predictive.Form

/-! Finished text inside forms. A word is a form of terminals alone; in front of a form
it is out of reach of every expansion, and a form splits at its leftmost non-terminal
into such a word and what is still to be expanded. -/
namespace Predictive.Form

def ofWord (word : List Char) : Form :=
  word.map .terminal

@[simp] theorem ofWord_nil : ofWord [] = [] := rfl

@[simp] theorem ofWord_cons (c : Char) (word : List Char) :
    ofWord (c :: word) = .terminal c :: ofWord word := rfl

@[simp] theorem ofWord_append (a b : List Char) : ofWord (a ++ b) = ofWord a ++ ofWord b :=
  List.map_append

@[simp] theorem terminals_ofWord (word : List Char) : (ofWord word).terminals = word := by
  induction word with
  | nil => rfl
  | cons c rest ih => simp [ih]

theorem ofWord_append_eq_ofWord_iff {a word : List Char} {form : Form} :
    ofWord a ++ form = ofWord word ↔ ∃ b, a ++ b = word ∧ ofWord b = form := by
  constructor
  · intro h
    obtain ⟨a', b, rfl, ha, hb⟩ := List.map_eq_append_iff.1 h.symm
    have he := congrArg terminals ha
    rw [← ofWord, terminals_ofWord, terminals_ofWord] at he
    exact ⟨b, he ▸ rfl, hb⟩
  · rintro ⟨b, rfl, rfl⟩
    exact (ofWord_append a b).symm

@[simp] theorem current?_terminal (c : Char) (form : Form) :
    current? (.terminal c :: form) = form.current? := rfl

@[simp] theorem current?_nonterminal (name : String) (form : Form) :
    current? (.nonterminal name :: form) = some name := rfl

@[simp] theorem current?_ofWord_append (word : List Char) (form : Form) :
    current? (ofWord word ++ form) = form.current? := by
  induction word with
  | nil => rfl
  | cons c rest ih => exact ih

@[simp] theorem current?_ofWord (word : List Char) : current? (ofWord word) = none := by
  have h := current?_ofWord_append word []
  rwa [List.append_nil] at h

@[simp] theorem expand_ofWord_append (word : List Char) (form rhs : Form) :
    expand (ofWord word ++ form) rhs = ofWord word ++ expand form rhs := by
  induction word with
  | nil => rfl
  | cons c rest ih => exact congrArg (Symbol.terminal c :: ·) ih

@[simp] theorem expand_nonterminal (name : String) (form rhs : Form) :
    expand (.nonterminal name :: form) rhs = rhs ++ form := rfl

theorem leftmost?_terminal (c : Char) (form : Form) :
    leftmost? (.terminal c :: form) = (leftmost? form).map (· + 1) := by
  rw [leftmost?, List.findIdx?_cons]
  rfl

theorem leftmost?_nonterminal (name : String) (form : Form) :
    leftmost? (.nonterminal name :: form) = some 0 := by
  rw [leftmost?, List.findIdx?_cons]
  rfl

theorem eq_ofWord_append_of_current? {form : Form} {name : String} (h : form.current? = some name) :
    ∃ word rest, form = ofWord word ++ .nonterminal name :: rest := by
  fun_induction current? form with
  | case1 => contradiction
  | case2 c rest ih =>
    obtain ⟨word, tail, rfl⟩ := ih h
    exact ⟨c :: word, tail, rfl⟩
  | case3 n rest =>
    cases h
    exact ⟨[], rest, rfl⟩

theorem current?_eq_none_iff {form : Form} :
    form.current? = none ↔ ∀ name, .nonterminal name ∉ form := by
  fun_induction current? form with
  | case1 => simp
  | case2 c rest ih => simp [ih]
  | case3 n rest =>
    refine ⟨fun h => by contradiction, fun h => ?_⟩
    exact absurd List.mem_cons_self (h n)

theorem leftmost?_ofWord_append (word : List Char) (name : String) (rest : Form) :
    leftmost? (ofWord word ++ .nonterminal name :: rest) = some word.length := by
  induction word with
  | nil => exact leftmost?_nonterminal name rest
  | cons c word ih =>
    rw [ofWord_cons, List.cons_append, leftmost?_terminal, ih]
    rfl

theorem expand_eq_splice {form : Form} {name : String} (h : form.current? = some name) :
    ∃ i, form.leftmost? = some i ∧ form[i]? = some (.nonterminal name) ∧
      ∀ rhs, form.expand rhs = form.take i ++ rhs ++ form.drop (i + 1) := by
  obtain ⟨word, rest, rfl⟩ := eq_ofWord_append_of_current? h
  rw [current?_ofWord_append, current?_nonterminal] at h
  cases h
  have hl : (ofWord word).length = word.length := List.length_map _
  refine ⟨word.length, leftmost?_ofWord_append word name rest, ?_, fun rhs => ?_⟩
  · rw [← hl, List.getElem?_append_right (Nat.le_refl _), Nat.sub_self]
    rfl
  · rw [expand_ofWord_append, expand_nonterminal, ← hl, List.take_left, ← List.drop_drop,
      List.drop_left, List.append_assoc]
    rfl

theorem isComplete_iff {form : Form} : form.isComplete = true ↔ form = ofWord form.terminals := by
  rw [isComplete, Option.isNone_iff_eq_none]
  fun_induction current? form with
  | case1 => simp
  | case2 c rest ih => simp [ih]
  | case3 n rest =>
    refine ⟨fun h => by contradiction, fun h => ?_⟩
    have hc := congrArg current? h
    rwa [current?_ofWord] at hc

@[simp] theorem isComplete_ofWord (word : List Char) : isComplete (ofWord word) = true := by
  rw [isComplete_iff, terminals_ofWord]

@[simp] theorem terminalCount_terminal (c : Char) (form : Form) :
    terminalCount (.terminal c :: form) = form.terminalCount + 1 := rfl

@[simp] theorem terminalCount_nonterminal (name : String) (form : Form) :
    terminalCount (.nonterminal name :: form) = form.terminalCount := rfl

@[simp] theorem terminalCount_append (a b : Form) :
    terminalCount (a ++ b) = a.terminalCount + b.terminalCount := by
  rw [terminalCount, terminals_append, List.length_append]
  rfl

@[simp] theorem names_terminal (c : Char) (form : Form) :
    names (.terminal c :: form) = form.names := rfl

@[simp] theorem names_nonterminal (name : String) (form : Form) :
    names (.nonterminal name :: form) = name :: form.names := rfl

@[simp] theorem names_append (a b : Form) : names (a ++ b) = a.names ++ b.names :=
  List.filterMap_append

theorem perm_terminals_expand {form : Form} {name : String} (h : form.current? = some name)
    (rhs : Form) : (form.expand rhs).terminals.Perm (form.terminals ++ rhs.terminals) := by
  obtain ⟨word, rest, rfl⟩ := eq_ofWord_append_of_current? h
  rw [expand_ofWord_append, expand_nonterminal]
  simp only [terminals_append, terminals_nonterminal, List.append_assoc]
  exact List.perm_append_comm.append_left _

theorem mem_terminals_iff {form : Form} {c : Char} : c ∈ form.terminals ↔ .terminal c ∈ form := by
  induction form with
  | nil => simp
  | cons s rest ih => cases s <;> simp [ih]

theorem mem_names_expand {form rhs : Form} {name other : String}
    (h : form.current? = some other) (hn : name ∈ (form.expand rhs).names) :
    name ∈ form.names ∨ name ∈ rhs.names := by
  obtain ⟨word, rest, rfl⟩ := eq_ofWord_append_of_current? h
  rw [expand_ofWord_append, expand_nonterminal] at hn
  simp only [names_append, names_nonterminal, List.mem_append, List.mem_cons] at hn ⊢
  rcases hn with hn | hn | hn
  · exact .inl (.inl hn)
  · exact .inr hn
  · exact .inl (.inr (.inr hn))

end Predictive.Form
