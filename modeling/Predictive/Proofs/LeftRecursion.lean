import Mathlib.Order.WellFoundedSet
import Predictive.Proofs.CompleteDerivation
import Predictive.Proofs.Unfolding

/-! Grammars without left recursion. A name leads to another when this one can come first in
an expansion of it, all before it having vanished; where no name leads back to itself, every
stack can be unfolded, so every run ends, whatever entries the table has. -/
namespace Predictive

namespace Grammar

def Vanishes (g : Grammar) (name : String) : Prop :=
  ∃ cs, g.chooseAll cs [.nonterminal name] = .ok []

/-- The form has the name after nothing but names that vanish. -/
def Exposes (g : Grammar) (form : Form) (name : String) : Prop :=
  ∃ before after, form = before ++ .nonterminal name :: after ∧
    ∀ s ∈ before, ∃ other, s = .nonterminal other ∧ g.Vanishes other

def Leads (g : Grammar) (name other : String) : Prop :=
  ∃ q ∈ g.rules, q.lhs = name ∧ g.Exposes q.rhs other

def LeftRecursive (g : Grammar) : Prop :=
  ∃ name, Relation.TransGen g.Leads name name

variable {g : Grammar} {name other : String} {form : Form}

@[simp] theorem not_exposes_nil : ¬g.Exposes [] name := by
  rintro ⟨before, after, h, _⟩
  simp at h

@[simp] theorem not_exposes_terminal {c : Char} : ¬g.Exposes (.terminal c :: form) name := by
  rintro ⟨before, after, h, hb⟩
  cases before with
  | nil => simp at h
  | cons s before =>
    cases h
    obtain ⟨other, ho, _⟩ := hb _ List.mem_cons_self
    simp at ho

@[simp] theorem exposes_nonterminal_iff : g.Exposes (.nonterminal name :: form) other ↔
    name = other ∨ g.Vanishes name ∧ g.Exposes form other := by
  constructor
  · rintro ⟨before, after, h, hb⟩
    cases before with
    | nil =>
      cases h
      exact .inl rfl
    | cons s before =>
      cases h
      obtain ⟨⟨_, hn, hv⟩, hb⟩ := List.forall_mem_cons.1 hb
      cases hn
      exact .inr ⟨hv, before, after, rfl, hb⟩
  · rintro (rfl | ⟨hv, before, after, rfl, hb⟩)
    · exact ⟨[], form, rfl, by simp⟩
    · exact ⟨.nonterminal name :: before, after, rfl,
        List.forall_mem_cons.2 ⟨⟨name, rfl, hv⟩, hb⟩⟩

theorem wellFoundedOn_leads (hg : ¬g.LeftRecursive) :
    {name | g.declares name = true}.WellFoundedOn
      fun other name => Relation.TransGen g.Leads name other := by
  have : IsStrictOrder String fun other name => Relation.TransGen g.Leads name other :=
    { irrefl := fun name h => hg ⟨name, h⟩
      trans := fun _ _ _ h h' => h'.trans h }
  apply Set.Finite.wellFoundedOn
  have hf : {name | g.declares name = true} = {name | name ∈ g.nonterminals} := by
    ext name
    simp
  rw [hf]
  exact List.finite_toSet g.nonterminals

end Grammar

namespace Table

variable {g : Grammar} {t : Table} {c : Char} {name : String} {form : Form} {n : Nat}

theorem Unfolds.derives (ht : t.Backed g) (h : t.Unfolds c n form []) :
    ∃ cs, g.Derives cs form [] := by
  generalize hz : ([] : Form) = z at h
  induction h with
  | rest _ =>
    subst hz
    exact ⟨[], .done⟩
  | entry he _ ih =>
    obtain ⟨cs, hd⟩ := ih hz
    cases lhs_of_entry he
    exact ⟨_, .choice (Grammar.chosen_choiceOf (ht.mem_rules_of_entry he)) hd⟩

theorem Unfolds.vanishes (ht : t.Backed g) (h : t.Unfolds c n [.nonterminal name] []) :
    g.Vanishes name := by
  obtain ⟨cs, hd⟩ := h.derives ht
  exact ⟨cs, Grammar.chooseAll_of_derives hd⟩

theorem exists_unfolds_form (ht : t.Backed g)
    (h : ∀ name, g.Exposes form name → ∃ n next, t.Unfolds c n [.nonterminal name] next) :
    ∃ n next, t.Unfolds c n form next := by
  induction form with
  | nil => exact ⟨0, [], .rest (rests_nil t c)⟩
  | cons s rest ih =>
    cases s with
    | terminal d => exact ⟨0, _, .rest (rests_terminal t c d rest)⟩
    | nonterminal name =>
      obtain ⟨n, next, hn⟩ := h name (Grammar.exposes_nonterminal_iff.2 (.inl rfl))
      by_cases hz : next = []
      · subst hz
        have hv := hn.vanishes ht
        obtain ⟨m, next, hm⟩ := ih fun other ho =>
          h other (Grammar.exposes_nonterminal_iff.2 (.inr ⟨hv, ho⟩))
        exact ⟨n + m, next, hn.append_of_nil hm⟩
      · exact ⟨n, next ++ rest, hn.append_right hz rest⟩

theorem exists_unfolds_of_declares (ht : t.Backed g)
    (h : g.declares name = true → ∃ n next, t.Unfolds c n [.nonterminal name] next) :
    ∃ n next, t.Unfolds c n [.nonterminal name] next := by
  cases he : t.entry name c with
  | none => exact ⟨0, _, .rest (rests_nonterminal_iff.2 he)⟩
  | some q => exact h (Grammar.declares_iff.2 ⟨q, ht.mem_rules_of_entry he, lhs_of_entry he⟩)

theorem exists_unfolds_name (ht : t.Backed g) (hg : ¬g.LeftRecursive) (c : Char) (name : String) :
    ∃ n next, t.Unfolds c n [.nonterminal name] next := by
  apply exists_unfolds_of_declares ht
  intro hd
  -- the names that a production exposes come earlier in the order
  apply (Grammar.wellFoundedOn_leads hg).induction hd
  intro name _ ih
  cases he : t.entry name c with
  | none => exact ⟨0, _, .rest (rests_nonterminal_iff.2 he)⟩
  | some q =>
    have hq : ∃ n next, t.Unfolds c n q.rhs next := by
      apply exists_unfolds_form ht
      intro other ho
      apply exists_unfolds_of_declares ht
      intro hd
      exact ih other hd (.single ⟨q, ht.mem_rules_of_entry he, lhs_of_entry he, ho⟩)
    obtain ⟨n, next, h⟩ := hq
    exact ⟨n + 1, next, .entry he (by rwa [List.append_nil])⟩

theorem exists_unfolds (ht : t.Backed g) (hg : ¬g.LeftRecursive) (c : Char) (form : Form) :
    ∃ n next, t.Unfolds c n form next :=
  exists_unfolds_form ht fun name _ => exists_unfolds_name ht hg c name

end Table

namespace Analysis

variable {g : Grammar} {t : Table} {input : String} {word : List Char}

/-- Without left recursion every run ends, whether the table is complete or not: the steps go on
until the first that accepts or rejects the sentence. -/
theorem run_ends {cells : List Cell} (hg : ¬g.LeftRecursive) (ht : Table.ofCells g cells = .ok t)
    (hw : Parser.check ⟨g, t⟩ input = .ok word) :
    ∃ a n, start ⟨g, t⟩ input = .ok a ∧
      (∀ m < n, ((step ⟨g, t⟩)^[m] a).status = .running) ∧
      a.run ⟨g, t⟩ = (step ⟨g, t⟩)^[n] a ∧
      ((∃ steps, (a.run ⟨g, t⟩).status = .accepted steps) ∨
        (∃ expected found, (a.run ⟨g, t⟩).status = .mismatch expected found) ∨
        ∃ name lookahead, (a.run ⟨g, t⟩).status = .noEntry name lookahead) := by
  have hb := Table.backed_ofCells ht
  have hf : ((ofWord g.start word).run ⟨g, t⟩).isFinished = true := by
    apply Unfolding.isFinished_run hb _ (settled_ofWord g.start word)
      (Configuration.initial_eq_reading g.start word)
    · exact ⟨by simp, Parser.endMarker_notMem_of_check hw⟩
    · exact fun m form ahead _ _ => Table.exists_unfolds hb hg _ form
  obtain ⟨n, hn, hr⟩ := exists_run_eq_iterate hf
  exact ⟨_, n, start_eq_ok_iff.2 ⟨word, hw, rfl⟩, hn, hr, verdict_of_isFinished hf⟩

theorem run_ends_cac :
    let g : Grammar := ⟨"S", [⟨"S", [.nonterminal "A", .terminal 'c', .nonterminal "S"]⟩,
      ⟨"S", []⟩, ⟨"A", [.terminal 'a']⟩, ⟨"A", []⟩], by decide⟩
    let t : Table := ⟨[⟨"S", [('$', []),
      ('c', [.nonterminal "A", .terminal 'c', .nonterminal "S"])]⟩,
      ⟨"A", [('a', [.terminal 'a']), ('c', [])]⟩]⟩
    g.Vanishes "A" ∧ ¬g.LeftRecursive ∧
      Table.ofCells g [⟨"S", 'c', "AcS"⟩, ⟨"S", '$', "ε"⟩, ⟨"A", 'a', "a"⟩, ⟨"A", 'c', "ε"⟩] =
        .ok t ∧
      Parser.check ⟨g, t⟩ "cac" = .ok ['c', 'a', 'c'] ∧
      ∃ a n, start ⟨g, t⟩ "cac" = .ok a ∧ a.run ⟨g, t⟩ = (step ⟨g, t⟩)^[n] a ∧
        (a.run ⟨g, t⟩).status = .noEntry "S" 'a' := by
  intro g t
  have hl : ∀ name other, g.Leads name other → name = "S" ∧ other = "A" := by
    rintro name other ⟨q, hq, rfl, he⟩
    simp only [g, List.mem_cons, List.not_mem_nil, or_false] at hq
    rcases hq with rfl | rfl | rfl | rfl <;> simp_all
  have hg : ¬g.LeftRecursive := by
    rintro ⟨name, h⟩
    obtain ⟨other, hf, _⟩ := Relation.TransGen.head'_iff.1 h
    obtain ⟨before, _, hb⟩ := Relation.TransGen.tail'_iff.1 h
    exact absurd ((hl _ _ hf).1.symm.trans (hl _ _ hb).2) (by decide)
  have ht : Table.ofCells g
      [⟨"S", 'c', "AcS"⟩, ⟨"S", '$', "ε"⟩, ⟨"A", 'a', "a"⟩, ⟨"A", 'c', "ε"⟩] = .ok t := rfl
  have hw : Parser.check ⟨g, t⟩ "cac" = .ok ['c', 'a', 'c'] := rfl
  obtain ⟨a, n, ha, _, hr, _⟩ := run_ends hg ht hw
  refine ⟨⟨[⟨"A", 1⟩], rfl⟩, hg, ht, hw, a, n, ha, hr, ?_⟩
  obtain ⟨word, h, rfl⟩ := start_eq_ok_iff.1 ha
  cases hw.symm.trans h
  rfl

end Analysis

end Predictive
