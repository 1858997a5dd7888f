import Predictive.Proofs.AddedRules

/-! Grammars kept in two structures: the names in the order in which they were declared, and a
hash map from the names to their productions. A rule is read before the first of them is
edited, so that a refused rule changes neither and they agree after any calls. -/
namespace Predictive

namespace Alphabet

theorem ofList_congr {a b : List Char} (h : ∀ c, c ∈ a ↔ c ∈ b) : ofList a = ofList b := by
  have hn (cs : List Char) : (ofList cs).Nodup := (pairwise_ofList cs).imp Char.ne_of_lt
  have hp : (ofList a).Perm (ofList b) :=
    (List.perm_ext_iff_of_nodup (hn a) (hn b)).2 fun c => by simp [h c]
  exact hp.eq_of_pairwise (fun _ _ _ _ hc hd => absurd hd (Char.lt_asymm hc))
    (pairwise_ofList a) (pairwise_ofList b)

end Alphabet

structure Register where
  start : String
  order : List String
  filed : Std.HashMap String (List Production)

namespace Register

def empty (start : String) : Register :=
  ⟨start, [], ∅⟩

/-- Files a production under its name; a name that has none so far is declared first. -/
def addRule (rule : Rule) : EStateM Fault Register Unit := do
  let p ← MonadExcept.ofExcept rule.read
  match (← get).filed[rule.name]? with
  | some ps => modify fun r => { r with filed := r.filed.insert rule.name (ps ++ [p]) }
  | none =>
    modify fun r => { r with order := r.order ++ [rule.name] }
    modify fun r => { r with filed := r.filed.insert rule.name [p] }

def after (r : Register) (rule : Rule) : Register :=
  match (addRule rule).run r with
  | .ok _ r' => r'
  | .error _ r' => r'

def afterAll (r : Register) (rules : List Rule) : Register :=
  rules.foldl after r

def declares (r : Register) (name : String) : Bool :=
  r.filed.contains name

def productionsOf (r : Register) (name : String) : Except Fault (List Production) :=
  match r.filed[name]? with
  | some ps => .ok ps
  | none => .error (.undeclared name)

def productions (r : Register) : List Production :=
  (r.order.filterMap (r.filed[·]?)).flatten

def terminals (r : Register) : List Char :=
  Alphabet.ofList ((r.filed.toList.flatMap (·.2)).flatMap (·.rhs.terminals))

def file (r : Register) (p : Production) : Register where
  start := r.start
  order := if r.declares p.lhs then r.order else r.order ++ [p.lhs]
  filed := r.filed.insert p.lhs ((r.filed[p.lhs]?).getD [] ++ [p])

variable {r : Register} {g : Grammar} {p : Production} {rule : Rule} {name : String}

theorem run_addRule (rule : Rule) (r : Register) :
    (addRule rule).run r =
      match rule.read with
      | .ok p => .ok () (r.file p)
      | .error fault => .error fault r := by
  rw [addRule, EStateM.run_bind]
  cases hr : rule.read with
  | error fault => rfl
  | ok p =>
    have ho : (MonadExcept.ofExcept (.ok p) : EStateM Fault Register Production).run r =
        .ok p r := rfl
    rw [ho]
    dsimp only
    rw [EStateM.run_bind, EStateM.run_get, file, Rule.lhs_of_read hr, declares,
      Std.HashMap.contains_eq_isSome_getElem?]
    dsimp only
    cases r.filed[rule.name]? with
    | none => rfl
    | some ps => rfl

structure Mirrors (r : Register) (g : Grammar) : Prop where
  start : r.start = g.start
  order : r.order = g.nonterminals
  filed : ∀ name, r.filed[name]? = if g.declares name then some (g.alternatives name) else none

theorem mirrors_empty (start : String) : (empty start).Mirrors (.empty start) where
  start := rfl
  order := rfl
  filed name := by simp [empty, Grammar.declares, Grammar.empty]

namespace Mirrors

theorem declares_eq (h : r.Mirrors g) (name : String) : r.declares name = g.declares name := by
  rw [declares, Std.HashMap.contains_eq_isSome_getElem?, h.filed]
  cases g.declares name <;> rfl

theorem file (h : r.Mirrors g) (hp : p.Spellable) : (r.file p).Mirrors (g.add p hp) where
  start := h.start
  order := by rw [Register.file, h.declares_eq, h.order, Grammar.nonterminals_add]
  filed name := by
    rw [Register.file, Std.HashMap.getElem?_insert, h.filed, h.filed, Grammar.declares_add,
      Grammar.alternatives_add]
    by_cases hl : p.lhs = name
    · subst hl
      cases hd : g.declares p.lhs with
      | true => simp
      | false => simp [Grammar.alternatives_eq_nil_iff.2 hd]
    · simp [hl]

theorem addRule (h : r.Mirrors g) (rule : Rule) :
    (∃ r' g', (addRule rule).run r = .ok () r' ∧ g.addRule rule = .ok g' ∧ r'.Mirrors g') ∨
      ∃ fault, (addRule rule).run r = .error fault r ∧ g.addRule rule = .error fault := by
  rw [run_addRule]
  cases hr : rule.read with
  | ok p =>
    exact .inl ⟨_, _, rfl, Grammar.addRule_of_ok hr, h.file (Rule.spellable_read hr)⟩
  | error fault => exact .inr ⟨fault, rfl, Grammar.addRule_of_error hr⟩

theorem after (h : r.Mirrors g) (rule : Rule) : (r.after rule).Mirrors (g.offer rule) := by
  rw [Register.after, Grammar.offer]
  rcases h.addRule rule with ⟨r', g', hr, hg, hn⟩ | ⟨fault, hr, hg⟩
  · rw [hr, hg]
    exact hn
  · rw [hr, hg]
    exact h

theorem afterAll (h : r.Mirrors g) (rules : List Rule) :
    (r.afterAll rules).Mirrors (g.offerAll rules) := by
  induction rules generalizing r g with
  | nil => exact h
  | cons rule rest ih => exact ih (h.after rule)

theorem productionsOf_eq (h : r.Mirrors g) (name : String) :
    r.productionsOf name = g.productionsOf name := by
  rw [productionsOf, h.filed, Grammar.productionsOf]
  cases g.declares name <;> rfl

theorem productions_eq (h : r.Mirrors g) : r.productions = g.productions := by
  have hf : ∀ name ∈ g.nonterminals, r.filed[name]? = some (g.alternatives name) :=
    fun name hn => by rw [h.filed, if_pos (Grammar.mem_nonterminals.1 hn)]
  rw [productions, h.order, List.filterMap_congr hf, Grammar.productions, List.flatMap]
  exact congrArg List.flatten (congrFun List.filterMap_eq_map' _)

theorem mem_toList_iff (h : r.Mirrors g) {ps : List Production} :
    (name, ps) ∈ r.filed.toList ↔ g.declares name = true ∧ g.alternatives name = ps := by
  rw [Std.HashMap.mem_toList_iff_getElem?_eq_some, h.filed]
  cases g.declares name <;> simp

theorem terminals_eq (h : r.Mirrors g) : r.terminals = g.terminals := by
  have hm (p : Production) : p ∈ r.filed.toList.flatMap (·.2) ↔ p ∈ g.rules := by
    rw [List.mem_flatMap]
    constructor
    · rintro ⟨⟨name, ps⟩, hf, hp⟩
      obtain ⟨_, rfl⟩ := h.mem_toList_iff.1 hf
      exact (Grammar.mem_alternatives.1 hp).1
    · intro hp
      exact ⟨(p.lhs, g.alternatives p.lhs),
        h.mem_toList_iff.2 ⟨Grammar.declares_iff.2 ⟨p, hp, rfl⟩, rfl⟩,
        Grammar.mem_alternatives.2 ⟨hp, rfl⟩⟩
  refine Alphabet.ofList_congr fun c => ?_
  rw [List.mem_flatMap, List.mem_flatMap]
  exact exists_congr fun p => and_congr_left' (hm p)

end Mirrors

/-- The views of the register are those of the grammar, and either takes the next call as the
other does; a refused call leaves both structures of the register as they were. -/
structure Agrees (r : Register) (g : Grammar) : Prop where
  nonterminals : r.order = g.nonterminals
  declares : ∀ name, r.declares name = g.declares name
  productionsOf : ∀ name, r.productionsOf name = g.productionsOf name
  productions : r.productions = g.productions
  terminals : r.terminals = g.terminals
  calls : ∀ rule,
    (∃ r' g', (addRule rule).run r = .ok () r' ∧ g.addRule rule = .ok g' ∧ r'.Mirrors g') ∨
      ∃ fault, (addRule rule).run r = .error fault r ∧ g.addRule rule = .error fault

theorem Mirrors.agrees (h : r.Mirrors g) : r.Agrees g where
  nonterminals := h.order
  declares := h.declares_eq
  productionsOf := h.productionsOf_eq
  productions := h.productions_eq
  terminals := h.terminals_eq
  calls := h.addRule

end Register

namespace Grammar

/-- After any calls, granted or refused, a grammar lists its names in the order of their first
granted rules, and groups just the productions of the granted rules by that order. Keeping the
names and the productions in two structures comes to the same. -/
theorem offerAll_arranged (start : String) (rules : List Rule) :
    ((empty start).offerAll rules).Arranged (rules.filterMap Rule.production?) ∧
      ((Register.empty start).afterAll rules).Agrees ((empty start).offerAll rules) := by
  have hr : ((empty start).offerAll rules).rules = rules.filterMap Rule.production? := by
    rw [rules_offerAll]
    rfl
  exact ⟨hr ▸ arranged _, ((Register.mirrors_empty start).afterAll rules).agrees⟩

example : ((empty "S").offerAll [⟨"A", ["a", "b$"]⟩, ⟨"S", ["c", "<A>"]⟩, ⟨"A", ["d"]⟩, ⟨"S", []⟩,
    ⟨"S", ["ε"]⟩]).text = "S → cA | ε\nA → d\n" := by
  decide

end Grammar

end Predictive
