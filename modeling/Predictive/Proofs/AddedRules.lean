import Mathlib.Data.List.Nodup
import Predictive.Grammar.Rules
import Predictive.Proofs.Productions

/-! Grammars as the lists of their added rules. A rule that is refused adds nothing, so a
grammar keeps just the productions of the rules that were granted, in the order of the calls;
its views group that list by the first production of each name. -/
namespace Predictive

def Rule.production? (rule : Rule) : Option Production :=
  rule.read.toOption

theorem Rule.lhs_of_read {rule : Rule} {p : Production} (h : rule.read = .ok p) :
    p.lhs = rule.name := by
  rw [read] at h
  split at h
  next => contradiction
  next =>
    obtain ⟨form, _, rfl⟩ := map_eq_ok_iff.1 h
    rfl

namespace Grammar

/-- The grammar after a call that may be refused. -/
def offer (g : Grammar) (rule : Rule) : Grammar :=
  match g.addRule rule with
  | .ok g' => g'
  | .error _ => g

def offerAll (g : Grammar) (rules : List Rule) : Grammar :=
  rules.foldl offer g

variable {g g' : Grammar} {p : Production} {rule : Rule} {rules : List Rule} {name : String}
  {fault : Fault}

theorem addRule_of_ok (h : rule.read = .ok p) :
    g.addRule rule = .ok (g.add p (Rule.spellable_read h)) :=
  addRule_eq_ok_iff.2 ⟨p, h, rfl, rfl⟩

theorem addRule_of_error (h : rule.read = .error fault) : g.addRule rule = .error fault := by
  unfold addRule
  split
  next p hp => simp [h] at hp
  next other ho => simpa using ho.symm.trans h

theorem rules_offer (g : Grammar) (rule : Rule) :
    (g.offer rule).rules = g.rules ++ rule.production?.toList := by
  rw [offer, Rule.production?]
  cases h : rule.read with
  | ok p =>
    rw [addRule_of_ok h]
    rfl
  | error fault =>
    rw [addRule_of_error h]
    exact (List.append_nil _).symm

theorem rules_offerAll (g : Grammar) (rules : List Rule) :
    (g.offerAll rules).rules = g.rules ++ rules.filterMap Rule.production? := by
  induction rules generalizing g with
  | nil => exact (List.append_nil _).symm
  | cons rule rest ih =>
    rw [offerAll, List.foldl_cons, ← offerAll, ih, rules_offer, List.append_assoc]
    cases hp : rule.production? <;> simp [hp]

theorem nonterminals_add (hp : p.Spellable) : (g.add p hp).nonterminals =
    if g.declares p.lhs then g.nonterminals else g.nonterminals ++ [p.lhs] := by
  have hn : (p.lhs ∈ g.rules.map (·.lhs)) = (g.declares p.lhs = true) := by simp [declares]
  rw [nonterminals, add, List.map_append, List.map_singleton, eraseDups_concat]
  simp only [hn, nonterminals]

theorem declares_add (hp : p.Spellable) (name : String) :
    (g.add p hp).declares name = (g.declares name || p.lhs == name) := by
  simp [declares, add]

theorem alternatives_add (hp : p.Spellable) (name : String) : (g.add p hp).alternatives name =
    if p.lhs = name then g.alternatives name ++ [p] else g.alternatives name := by
  by_cases h : p.lhs = name <;> simp [alternatives, add, h]

theorem filter_productions (g : Grammar) (name : String) :
    g.productions.filter (·.lhs == name) = g.alternatives name := by
  by_cases hd : g.declares name = true
  · have hn : (g.nonterminals.map id).Nodup := by
      rw [List.map_id]
      exact g.nodup_nonterminals
    exact filter_flatMap_of_nodup id Production.lhs hn
      (fun _ _ _ hp => (mem_alternatives.1 hp).2) (mem_nonterminals.2 hd)
  · rw [alternatives_eq_nil_iff.2 (Bool.eq_false_iff.2 hd), List.filter_eq_nil_iff]
    intro p hp he
    exact hd (declares_iff.2 ⟨p, mem_productions.1 hp, beq_iff_eq.1 he⟩)

theorem perm_productions (g : Grammar) : g.productions.Perm g.rules := by
  refine List.perm_iff_count.2 fun p => ?_
  have hc (l : List Production) : l.count p = (l.filter (·.lhs == p.lhs)).count p :=
    (List.count_filter (p := fun q : Production => q.lhs == p.lhs) (beq_self_eq_true p.lhs)).symm
  rw [hc, filter_productions, hc g.rules, alternatives]

theorem pairwise_nonterminals (g : Grammar) : g.nonterminals.Pairwise fun m n =>
    (g.rules.map (·.lhs)).idxOf m < (g.rules.map (·.lhs)).idxOf n :=
  pairwise_idxOf_eraseDups _

theorem pairwise_productions (g : Grammar) : g.productions.Pairwise fun p q =>
    (g.rules.map (·.lhs)).idxOf p.lhs ≤ (g.rules.map (·.lhs)).idxOf q.lhs := by
  refine List.pairwise_flatMap.2 ⟨fun name _ => ?_,
    g.pairwise_nonterminals.imp fun h p hp q hq => ?_⟩
  · refine List.pairwise_of_forall_mem_list fun p hp q hq => ?_
    have hl : p.lhs = q.lhs := (mem_alternatives.1 hp).2.trans (mem_alternatives.1 hq).2.symm
    exact Nat.le_of_eq (congrArg (List.idxOf · _) hl)
  · rw [(mem_alternatives.1 hp).2, (mem_alternatives.1 hq).2]
    exact Nat.le_of_lt h

/-- The views of a grammar, told by the productions that were added. -/
structure Arranged (g : Grammar) (added : List Production) : Prop where
  nodup : g.nonterminals.Nodup
  named : ∀ name, name ∈ g.nonterminals ↔ ∃ p ∈ added, p.lhs = name
  declared : ∀ name, g.declares name = true ↔ name ∈ g.nonterminals
  order : g.nonterminals.Pairwise fun m n =>
    (added.map (·.lhs)).idxOf m < (added.map (·.lhs)).idxOf n
  productions : g.productions.Perm added
  grouped : g.productions.Pairwise fun p q =>
    (added.map (·.lhs)).idxOf p.lhs ≤ (added.map (·.lhs)).idxOf q.lhs
  stable : ∀ name, g.productions.filter (·.lhs == name) = added.filter (·.lhs == name)
  found : ∀ name ps, g.productionsOf name = .ok ps ↔
    name ∈ g.nonterminals ∧ ps = added.filter (·.lhs == name)
  inhabited : ∀ name ps, g.productionsOf name = .ok ps → ps ≠ [] ∧ ∀ p ∈ ps, p.lhs = name
  missing : ∀ name, g.productionsOf name = .error (.undeclared name) ↔ name ∉ g.nonterminals
  letters : ∀ c, c ∈ g.terminals ↔ ∃ p ∈ g.productions, .terminal c ∈ p.rhs
  increasing : g.terminals.Pairwise (· < ·)
  reserved : endMarker ∉ g.terminals
  printed : ∀ c ∈ g.terminals, isBlank c = false

theorem arranged (g : Grammar) : g.Arranged g.rules where
  nodup := g.nodup_nonterminals
  named _ := mem_nonterminals.trans declares_iff
  declared _ := mem_nonterminals.symm
  order := g.pairwise_nonterminals
  productions := g.perm_productions
  grouped := g.pairwise_productions
  stable := g.filter_productions
  found name ps := by
    rw [productionsOf_eq_ok_iff, mem_nonterminals, alternatives, eq_comm (a := ps)]
  inhabited name ps h := by
    obtain ⟨hd, rfl⟩ := productionsOf_eq_ok_iff.1 h
    refine ⟨fun hn => ?_, fun p hp => (mem_alternatives.1 hp).2⟩
    rw [alternatives_eq_nil_iff.1 hn] at hd
    contradiction
  missing name := by
    rw [mem_nonterminals, productionsOf]
    split <;> simp_all
  letters c := by simp only [mem_terminals, mem_productions, Form.mem_terminals_iff]
  increasing := Alphabet.pairwise_ofList _
  reserved h := (letter_spellable h).1 rfl
  printed _ h := (letter_spellable h).2

end Grammar

end Predictive
