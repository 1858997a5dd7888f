import Predictive.Proofs.AddedRules

/-! Spelling what was read. The three kinds of elements overlap on odd characters, but a blank
after a terminal tells it from ε and from a bracket, and the blank itself is dropped. So every
grammar can be written down as rules, and what can be stored is just what can be spelled. -/
namespace Predictive

def Symbol.element : Symbol → String
  | terminal c => String.ofList [c, ' ']
  | nonterminal name => "<" ++ name ++ ">"

def Form.elements (form : Form) : List String :=
  if form = [] then ["ε"] else form.map Symbol.element

def Production.rule (p : Production) : Rule :=
  ⟨p.lhs, p.rhs.elements⟩

namespace Rule

/-- What an element stands for. -/
inductive Stands : String → Form → Prop
  | nothing : Stands "ε" []
  | name {element name : String} : bracketed? element.toList = some name →
      Stands element [.nonterminal name]
  | letters {element : String} : element ≠ "ε" → bracketed? element.toList = none →
      endMarker ∉ element.toList →
      Stands element ((element.toList.filter (!isBlank ·)).map .terminal)

def Reserved (element : String) : Prop :=
  bracketed? element.toList = none ∧ endMarker ∈ element.toList

variable {owner element name : String} {elements : List String} {form : Form} {s : Symbol}
  {fault : Fault}

theorem endMarker_mem_filter {cs : List Char} :
    endMarker ∈ cs.filter (!isBlank ·) ↔ endMarker ∈ cs := by
  have hb : isBlank endMarker = false := by decide
  simp [hb]

theorem readElement_eq_ok_iff : readElement owner element = .ok form ↔ Stands element form := by
  constructor
  · intro h
    unfold readElement at h
    split at h
    next he =>
      cases h
      exact he ▸ .nothing
    next he =>
      split at h
      next name hn =>
        cases h
        exact .name hn
      next hn =>
        simp only [endMarker_mem_filter] at h
        split at h
        next => contradiction
        next hm =>
          cases h
          exact .letters he hn hm
  · intro h
    cases h with
    | nothing => rfl
    | name hn =>
      have he : element ≠ "ε" := by
        rintro rfl
        contradiction
      rw [readElement, if_neg he, hn]
    | letters he hn hm =>
      rw [readElement, if_neg he, hn]
      simp only [endMarker_mem_filter, if_neg hm]

theorem readElement_eq_error_iff : readElement owner element = .error fault ↔
    Reserved element ∧ fault = .reservedMarker owner := by
  unfold readElement Reserved
  split
  next he =>
    subst he
    have hm : ¬(bracketed? "ε".toList = none ∧ endMarker ∈ "ε".toList) := by decide
    simp only [hm, false_and, reduceCtorEq]
  next he =>
    cases hn : bracketed? element.toList with
    | some name => simp
    | none =>
      simp only [endMarker_mem_filter]
      split
      next hm => simp [hm, eq_comm]
      next hm => simp [hm]

theorem readElements_eq_ok_iff (owner : String) : readElements owner elements = .ok form ↔
    ∃ forms, List.Forall₂ Stands elements forms ∧ forms.flatten = form := by
  induction elements generalizing form with
  | nil => simp [readElements]
  | cons element rest ih =>
    rw [readElements]
    constructor
    · intro h
      split at h
      next => contradiction
      next head hh =>
        obtain ⟨tail, ht, rfl⟩ := map_eq_ok_iff.1 h
        obtain ⟨forms, hf, rfl⟩ := ih.1 ht
        exact ⟨head :: forms, .cons (readElement_eq_ok_iff.1 hh) hf, rfl⟩
    · rintro ⟨_, hf, rfl⟩
      cases hf with
      | @cons _ head _ forms hh hf =>
        rw [readElement_eq_ok_iff.2 hh]
        exact map_eq_ok_iff.2 ⟨_, ih.2 ⟨forms, hf, rfl⟩, rfl⟩

theorem read_eq_ok_iff {rule : Rule} {p : Production} : rule.read = .ok p ↔
    rule.elements ≠ [] ∧ p.lhs = rule.name ∧
      ∃ forms, List.Forall₂ Stands rule.elements forms ∧ forms.flatten = p.rhs := by
  rw [← readElements_eq_ok_iff rule.name, read]
  split
  next h => simp [h]
  next h =>
    rw [map_eq_ok_iff]
    constructor
    · rintro ⟨form, hf, rfl⟩
      exact ⟨h, rfl, hf⟩
    · rintro ⟨_, hl, hr⟩
      exact ⟨p.rhs, hr, by rw [← hl]⟩

theorem bracketed?_name (hn : name ≠ "") (hc : '>' ∉ name.toList) :
    bracketed? ('<' :: (name.toList ++ ['>'])) = some name := by
  have hl : name.toList ≠ [] := by simpa using hn
  have hp : ∀ c ∈ name.toList, decide (c ≠ '>') = true := by
    intro c hm
    have hne : c ≠ '>' := fun he => hc (he ▸ hm)
    simpa using hne
  simp only [bracketed?]
  rw [List.takeWhile_append_of_pos hp, List.dropWhile_append_of_pos hp]
  simp [hl]

theorem stands_element (hs : s.Spellable) : Stands s.element [s] := by
  cases s with
  | terminal c =>
    obtain ⟨hm, hb⟩ := hs
    have hl : (Symbol.terminal c).element.toList = [c, ' '] := String.toList_ofList
    have hne : (Symbol.terminal c).element ≠ "ε" := by
      intro he
      simp [he] at hl
    have hk : bracketed? [c, ' '] = none := by
      unfold bracketed?
      split
      next rest he =>
        cases he
        rfl
      next => rfl
    have hf : [c, ' '].filter (!isBlank ·) = [c] := by
      have : isBlank ' ' = true := by decide
      simp [hb, this]
    have h : Stands (Symbol.terminal c).element _ :=
      .letters hne (by rw [hl, hk]) (by rw [hl]; simpa [endMarker] using hm.symm)
    rwa [hl, hf] at h
  | nonterminal name =>
    have hl : (Symbol.nonterminal name).element.toList = '<' :: (name.toList ++ ['>']) := by
      simp [Symbol.element]
    exact .name (by rw [hl, bracketed?_name hs.1 hs.2])

theorem read_elements (owner : String) (hf : ∀ s ∈ form, s.Spellable) :
    (Rule.mk owner form.elements).read = .ok ⟨owner, form⟩ := by
  refine read_eq_ok_iff.2 ?_
  unfold Form.elements
  by_cases hn : form = []
  · subst hn
    exact ⟨by simp, rfl, [[]], .cons .nothing .nil, rfl⟩
  · rw [if_neg hn]
    refine ⟨by simpa using hn, rfl, form.map ([·]), ?_, List.flatMap_singleton' form⟩
    rw [List.forall₂_map_left_iff, List.forall₂_map_right_iff, List.forall₂_same]
    exact fun s hs => stands_element (hf s hs)

theorem exists_read_iff {p : Production} :
    (∃ elements, (Rule.mk p.lhs elements).read = .ok p) ↔ p.Spellable :=
  ⟨fun ⟨_, h⟩ => spellable_read h, fun h => ⟨p.rhs.elements, read_elements p.lhs h⟩⟩

theorem read_append {a b : Rule} {p q : Production} (ha : a.read = .ok p) (hb : b.read = .ok q)
    (owner : String) :
    (Rule.mk owner (a.elements ++ b.elements)).read = .ok ⟨owner, p.rhs ++ q.rhs⟩ := by
  obtain ⟨hn, _, fs, hf, hp⟩ := read_eq_ok_iff.1 ha
  obtain ⟨_, _, ks, hk, hq⟩ := read_eq_ok_iff.1 hb
  refine read_eq_ok_iff.2 ⟨by simp [hn], rfl, fs ++ ks, List.rel_append hf hk, ?_⟩
  rw [List.flatten_append, hp, hq]

end Rule

namespace Grammar

variable {g : Grammar}

theorem addRules_map_rule {ps : List Production} (hp : ∀ p ∈ ps, p.Spellable) :
    ∃ g', g.addRules (ps.map Production.rule) = .ok g' ∧ g'.start = g.start ∧
      g'.rules = g.rules ++ ps := by
  induction ps generalizing g with
  | nil => exact ⟨g, rfl, rfl, (List.append_nil _).symm⟩
  | cons p rest ih =>
    have hr : p.rule.read = .ok p := Rule.read_elements p.lhs (hp p List.mem_cons_self)
    obtain ⟨g', hg, hs, hl⟩ := ih (g := g.add p (Rule.spellable_read hr))
      fun q hq => hp q (List.mem_cons_of_mem p hq)
    refine ⟨g', ?_, hs, ?_⟩
    · rw [List.map_cons, addRules, addRule_of_ok hr]
      exact hg
    · rw [hl, add, List.append_assoc]
      rfl

theorem ofRules_map_rule (g : Grammar) : ofRules g.start (g.rules.map Production.rule) = .ok g := by
  obtain ⟨g', hg, hs, hl⟩ := addRules_map_rule (g := empty g.start) g.spellable
  have he : g' = g := Grammar.ext hs hl
  rw [ofRules, hg, he]

/-- What a grammar stores can be spelled, whatever its characters: the spelling of a production is
granted under any name and in any grammar and adds the same symbols, and the spellings of all
of them make the grammar again. That is all that can be read at all, and lists of elements
that can be read are read side by side as they are read apart. -/
theorem spelling_faithful (g : Grammar) :
    (∀ p ∈ g.rules, ∀ (other : Grammar) (owner : String), ∃ next,
      other.addRule ⟨owner, p.rhs.elements⟩ = .ok next ∧ next.start = other.start ∧
        next.rules = other.rules ++ [⟨owner, p.rhs⟩]) ∧
    ofRules g.start (g.rules.map Production.rule) = .ok g ∧
    (∀ p : Production, (∃ elements, (Rule.mk p.lhs elements).read = .ok p) ↔ p.Spellable) ∧
    ∀ (a b : Rule) (p q : Production), a.read = .ok p → b.read = .ok q → ∀ owner,
      (Rule.mk owner (a.elements ++ b.elements)).read = .ok ⟨owner, p.rhs ++ q.rhs⟩ := by
  refine ⟨fun p hp other owner => ?_, ofRules_map_rule g, fun _ => Rule.exists_read_iff,
    fun _ _ _ _ ha hb => Rule.read_append ha hb⟩
  have hr : (Rule.mk owner p.rhs.elements).read = .ok ⟨owner, p.rhs⟩ :=
    Rule.read_elements owner (g.spellable p hp)
  exact ⟨_, addRule_of_ok hr, rfl, rfl⟩

theorem spelling_faithful_lookalikes :
    let g := (empty "S").offerAll [⟨"S", ["ε ", "<ε <>", "<", " >"]⟩]
    let p : Production := ⟨"S", [.terminal 'ε', .nonterminal "ε <", .terminal '<', .terminal '>']⟩
    p ∈ g.rules ∧ p.rhs.elements = ["ε ", "<ε <>", "< ", "> "] ∧
      (∃ next, standard.addRule ⟨"A", p.rhs.elements⟩ = .ok next ∧ next.start = "S" ∧
        next.rules = standard.rules ++ [⟨"A", p.rhs⟩]) ∧
      (Rule.mk "S" ["<"]).read = .ok ⟨"S", [.terminal '<']⟩ ∧
      (Rule.mk "T" ["A>"]).read = .ok ⟨"T", [.terminal 'A', .terminal '>']⟩ ∧
      (Rule.mk "S" ["<", "A>"]).read =
        .ok ⟨"S", [.terminal '<', .terminal 'A', .terminal '>']⟩ := by
  intro g p
  have hp : p ∈ g.rules := by decide
  have ha : (Rule.mk "S" ["<"]).read = .ok ⟨"S", [.terminal '<']⟩ := rfl
  have hb : (Rule.mk "T" ["A>"]).read = .ok ⟨"T", [.terminal 'A', .terminal '>']⟩ := rfl
  obtain ⟨hs, _, _, hc⟩ := spelling_faithful g
  exact ⟨hp, rfl, hs p hp standard "A", ha, hb, hc _ _ _ _ ha hb "S"⟩

end Grammar

end Predictive
