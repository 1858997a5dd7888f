import Predictive.Proofs.Productions

/-! Forms that grow. An expansion puts a form where one non-terminal stood, and the next one takes
place in what was put there or to the right of it. So what a form has become can be told symbol by
symbol: a terminal is still there, and a non-terminal has made room for some part. Two forms
related in this way agree on what was finished in the first, and the letters of the first keep
their order in the second. -/
namespace Predictive

namespace Form

/-- The second form is the first with some form in the place of each non-terminal; one that has
not been expanded is in its own place. -/
inductive Grows : Form → Form → Prop
  | nil : Grows [] []
  | terminal (c : Char) : Grows a b → Grows (.terminal c :: a) (.terminal c :: b)
  | nonterminal (name : String) (part : Form) : Grows a b →
      Grows (.nonterminal name :: a) (part ++ b)

/-- The symbols before the leftmost non-terminal, or all of them if there is none. -/
def finished (form : Form) : Form :=
  form.take (form.leftmost?.getD form.length)

@[simp] theorem finished_nil : finished [] = [] := rfl

@[simp] theorem finished_terminal (c : Char) (form : Form) :
    finished (.terminal c :: form) = .terminal c :: finished form := by
  rw [finished, leftmost?_terminal, finished]
  cases form.leftmost? <;> rfl

@[simp] theorem finished_nonterminal (name : String) (form : Form) :
    finished (.nonterminal name :: form) = [] := by
  rw [finished, leftmost?_nonterminal]
  rfl

namespace Grows

variable {a b form next last : Form}

theorem refl (form : Form) : form.Grows form := by
  induction form with
  | nil => exact .nil
  | cons s rest ih =>
    cases s with
    | terminal c => exact .terminal c ih
    | nonterminal name => exact .nonterminal name [.nonterminal name] ih

theorem split (h : (a ++ b).Grows form) :
    ∃ left right, form = left ++ right ∧ a.Grows left ∧ b.Grows right := by
  induction a generalizing form with
  | nil => exact ⟨[], form, rfl, .nil, h⟩
  | cons s a ih =>
    cases h with
    | terminal c h =>
      obtain ⟨left, right, rfl, ha, hb⟩ := ih h
      exact ⟨.terminal c :: left, right, rfl, .terminal c ha, hb⟩
    | nonterminal name part h =>
      obtain ⟨left, right, rfl, ha, hb⟩ := ih h
      exact ⟨part ++ left, right, (List.append_assoc _ _ _).symm, .nonterminal name part ha, hb⟩

theorem trans (h : form.Grows next) (h' : next.Grows last) : form.Grows last := by
  induction h generalizing last with
  | nil => exact h'
  | terminal c _ ih =>
    cases h' with
    | terminal _ h' => exact .terminal c (ih h')
  | nonterminal name part _ ih =>
    obtain ⟨left, right, rfl, _, hr⟩ := h'.split
    exact .nonterminal name left (ih hr)

theorem expand (form rhs : Form) : form.Grows (form.expand rhs) := by
  fun_induction Form.expand form rhs with
  | case1 => exact .nil
  | case2 c rest rhs ih => exact .terminal c ih
  | case3 name rest rhs => exact .nonterminal name rhs (.refl rest)

theorem finished_isPrefix (h : form.Grows next) : form.finished <+: next := by
  induction h with
  | nil => exact List.nil_prefix
  | terminal c _ ih =>
    rw [finished_terminal]
    exact List.cons_prefix_cons.2 ⟨rfl, ih⟩
  | nonterminal name part _ _ =>
    rw [finished_nonterminal]
    exact List.nil_prefix

theorem terminals_sublist (h : form.Grows next) : form.terminals.Sublist next.terminals := by
  induction h with
  | nil => exact .slnil
  | terminal c _ ih => exact ih.cons_cons c
  | @nonterminal _ b name part _ ih =>
    rw [terminals_nonterminal, terminals_append]
    exact ih.trans (List.sublist_append_right part.terminals b.terminals)

end Grows

end Form

namespace Grammar

variable {g : Grammar} {cs : List Choice} {form next : Form}

theorem grows_of_chooseAll (h : g.chooseAll cs form = .ok next) : form.Grows next := by
  induction cs generalizing form with
  | nil =>
    cases h
    exact .refl _
  | cons c rest ih =>
    obtain ⟨_, p, _, h⟩ := chooseAll_cons_eq_ok_iff.1 h
    exact (Form.Grows.expand form p.rhs).trans (ih h)

theorem perm_terminals_of_chooseAll (h : g.chooseAll cs form = .ok next) : next.terminals.Perm
    (form.terminals ++ ((⟨cs⟩ : Derivation).productions g).flatMap (·.rhs.terminals)) := by
  induction cs generalizing form with
  | nil =>
    cases h
    exact .of_eq (List.append_nil _).symm
  | cons c rest ih =>
    obtain ⟨hc, p, hp, h⟩ := chooseAll_cons_eq_ok_iff.1 h
    rw [Derivation.productions_cons hp, List.flatMap_cons, ← List.append_assoc]
    exact (ih h).trans ((Form.perm_terminals_expand hc p.rhs).append_right _)

theorem terminalCount_le_of_chooseAll (h : g.chooseAll cs form = .ok next) :
    form.terminalCount ≤ next.terminalCount :=
  (grows_of_chooseAll h).terminals_sublist.length_le

theorem mem_terminals_of_chooseAll (h : g.chooseAll cs form = .ok next) :
    ∀ a ∈ next.terminals, a ∈ form.terminals ∨ a ∈ g.terminals := by
  intro a ha
  rcases List.mem_append.1 ((perm_terminals_of_chooseAll h).mem_iff.1 ha) with ha | ha
  · exact .inl ha
  · obtain ⟨p, hp, ha⟩ := List.mem_flatMap.1 ha
    exact .inr (mem_terminals.2 ⟨p, mem_rules_of_mem_productions hp, ha⟩)

theorem eq_nil_of_chooseAll (hn : form.current? = none) (h : g.chooseAll cs form = .ok next) :
    cs = [] := by
  cases cs with
  | nil => rfl
  | cons c rest =>
    rw [(chooseAll_cons_eq_ok_iff.1 h).1] at hn
    contradiction

end Grammar

namespace Derivation

variable {g : Grammar} {d : Derivation} {cs : List Choice} {current next : Form}

/-- However a derivation goes on, it keeps what it has derived. What is finished stays in front, and
the letters behind it stay in their order and in their places between the non-terminals. The
letters that come in are those of the productions that are chosen. A complete derivation does not
go on. -/
theorem form_append_grows (hd : d.form g = .ok current)
    (hn : (⟨d.choices ++ cs⟩ : Derivation).form g = .ok next) :
    current.Grows next ∧ current.finished <+: next ∧
      current.projection.toList.Sublist next.projection.toList ∧
      next.projection.toList.Perm (current.projection.toList ++
        ((⟨cs⟩ : Derivation).productions g).flatMap (·.rhs.terminals)) ∧
      current.terminalCount ≤ next.terminalCount ∧
      ((∀ name, .nonterminal name ∉ current) → cs = []) := by
  have hc : g.chooseAll cs current = .ok next := by
    rwa [form_append, hd] at hn
  have hg := Grammar.grows_of_chooseAll hc
  simp only [Form.projection, String.toList_ofList]
  exact ⟨hg, hg.finished_isPrefix, hg.terminals_sublist, Grammar.perm_terminals_of_chooseAll hc,
    Grammar.terminalCount_le_of_chooseAll hc,
    fun h => Grammar.eq_nil_of_chooseAll (Form.current?_eq_none_iff.2 h) hc⟩

theorem form_append_grows_babaa :
    let g : Grammar := ⟨"S", [⟨"S", [.nonterminal "S", .terminal 'a', .nonterminal "S"]⟩,
      ⟨"S", [.terminal 'b']⟩], by decide⟩
    let d : Derivation := ⟨[⟨"S", 0⟩, ⟨"S", 0⟩, ⟨"S", 1⟩]⟩
    let current : Form :=
      [.terminal 'b', .terminal 'a', .nonterminal "S", .terminal 'a', .nonterminal "S"]
    let next : Form := [.terminal 'b', .terminal 'a', .terminal 'b', .terminal 'a',
      .nonterminal "S", .terminal 'a', .nonterminal "S"]
    d.form g = .ok current ∧ (⟨d.choices ++ [⟨"S", 0⟩, ⟨"S", 1⟩]⟩ : Derivation).form g = .ok next ∧
      current.Grows next ∧ [.terminal 'b', .terminal 'a'] <+: next ∧
      "baa".toList.Sublist "babaa".toList ∧ "babaa".toList.Perm ("baa".toList ++ ['a', 'b']) ∧
      current.terminalCount ≤ next.terminalCount ∧
      ∀ cs last, (⟨⟨"S", 1⟩ :: cs⟩ : Derivation).form g = .ok last → cs = [] := by
  intro g d current next
  have hd : d.form g = .ok current := rfl
  have hn : (⟨d.choices ++ [⟨"S", 0⟩, ⟨"S", 1⟩]⟩ : Derivation).form g = .ok next := rfl
  obtain ⟨hg, hf, hs, hp, hc, _⟩ := form_append_grows hd hn
  refine ⟨hd, hn, hg, hf, hs, hp, hc, fun cs last hl => ?_⟩
  have hb : (⟨[⟨"S", 1⟩]⟩ : Derivation).form g = .ok [.terminal 'b'] := rfl
  obtain ⟨_, _, _, _, _, he⟩ := form_append_grows hb hl
  exact he (by simp)

end Derivation

end Predictive
