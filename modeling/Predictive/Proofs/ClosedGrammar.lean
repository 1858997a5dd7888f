import Predictive.Proofs.BoundedSearch
import Predictive.Proofs.EndMarkers
import Predictive.Proofs.SessionReplay
import Predictive.Proofs.TraceDerivation

/-! Closed grammars at work. Validation looks at the rules once; that no undeclared name comes
up later is a fact about the forms of derivations, and sessions and analyses have it from
there, since the form of a session and the stack of an analysis are parts of such forms. -/
namespace Predictive

namespace Grammar

/-- Reads all rules and validates the grammar with its names in an order of their own. -/
def buildIn (visit : Grammar → List String) (start : String) (rules : List Rule) :
    Except Fault Grammar :=
  match ofRules start rules with
  | .ok g => (g.validateIn (visit g)).map fun _ => g
  | .error fault => .error fault

variable {g built : Grammar} {start name : String} {rules : List Rule} {form : Form} {c : Choice}
  {cs : List Choice} {fault : Fault}

theorem buildIn_eq_ok_iff {visit : Grammar → List String} (hv : (visit g).Perm g.nonterminals)
    (h : ofRules start rules = .ok g) :
    buildIn visit start rules = .ok built ↔ built = g ∧ g.Closed := by
  rw [buildIn, h]
  constructor
  · intro hb
    obtain ⟨⟨⟩, hok, rfl⟩ := map_eq_ok_iff.1 hb
    exact ⟨rfl, (validateIn_eq_ok_iff hv).1 hok⟩
  · rintro ⟨rfl, hc⟩
    exact map_eq_ok_iff.2 ⟨(), (validateIn_eq_ok_iff hv).2 hc, rfl⟩

theorem Closed.declaresAll (hg : g.Closed) {d : Derivation} (h : d.form g = .ok form) :
    g.DeclaresAll form :=
  (declaresAll_startForm hg).chooseAll hg h

theorem DeclaresAll.alternatives_ne_nil (hd : g.DeclaresAll form)
    (h : form.current? = some name) : g.alternatives name ≠ [] := by
  rw [ne_eq, alternatives_eq_nil_iff, hd.current h]
  simp

theorem eq_noAlternative_of_chosen (h : g.declares c.name = true)
    (he : g.chosen c = .error fault) : fault = .noAlternative c.name c.index := by
  rw [chosen, productionsOf_of_declares h] at he
  dsimp only at he
  split at he
  next => contradiction
  next =>
    cases he
    rfl

theorem DeclaresAll.fault_of_choose (hd : g.DeclaresAll form)
    (h : g.choose c form = .error fault) :
    fault = .notLeftmost c.name ∨ fault = .noAlternative c.name c.index := by
  unfold choose at h
  split at h
  next hc =>
    split at h
    next => contradiction
    next other ho =>
      cases h
      exact .inr (eq_noAlternative_of_chosen (hd.current hc) ho)
  next =>
    cases h
    exact .inl rfl

theorem DeclaresAll.fault_of_chooseAll (hg : g.Closed) (hd : g.DeclaresAll form)
    (h : g.chooseAll cs form = .error fault) :
    ∃ c ∈ cs, fault = .notLeftmost c.name ∨ fault = .noAlternative c.name c.index := by
  induction cs generalizing form with
  | nil => cases h
  | cons c rest ih =>
    rw [Grammar.chooseAll] at h
    split at h
    next p next hn =>
      obtain ⟨hc, hp, rfl⟩ := choose_eq_ok_iff.1 hn
      obtain ⟨d, hm, hf⟩ := ih (hd.expand hg (mem_rules_of_chosen hp).1 hc) h
      exact ⟨d, List.mem_cons_of_mem c hm, hf⟩
    next other ho =>
      cases h
      exact ⟨c, List.mem_cons_self, hd.fault_of_choose ho⟩

theorem Closed.form_ne_undeclared (hg : g.Closed) (d : Derivation) (name : String) :
    d.form g ≠ .error (.undeclared name) := by
  intro h
  obtain ⟨c, _, hf | hf⟩ := (declaresAll_startForm hg).fault_of_chooseAll hg h <;> cases hf

theorem Closed.sentence_ne_undeclared (hg : g.Closed) (d : Derivation) (name : String) :
    d.sentence g ≠ .error (.undeclared name) := by
  intro h
  rw [Derivation.sentence] at h
  cases hf : d.form g with
  | ok form =>
    rw [hf] at h
    cases h
  | error fault =>
    rw [hf] at h
    cases h
    exact hg.form_ne_undeclared d name hf

end Grammar

namespace Session

variable {g : Grammar} {s : Session} {name : String}

theorem Consistent.declaresAll (hs : s.Consistent g) (hg : g.Closed) : g.DeclaresAll s.form :=
  hg.declaresAll hs.form

theorem available_ne_nil (hd : g.DeclaresAll s.form) (h : s.isComplete = false) :
    s.available g ≠ [] := by
  unfold available current?
  cases hc : s.form.current? with
  | none =>
    rw [isComplete, Form.isComplete, hc] at h
    contradiction
  | some name => exact hd.alternatives_ne_nil hc

theorem apply_ne_undeclared (hd : g.DeclaresAll s.form) (index : Nat) (name : String) :
    s.apply g index ≠ .error (.undeclared name) := by
  intro h
  unfold apply at h
  split at h
  next => cases h
  next current _ =>
    split at h
    next fault hf =>
      cases h
      obtain hf | hf := hd.fault_of_choose hf <;> cases hf
    next => cases h

end Session

namespace Analysis

variable {g : Grammar} {t : Table} {a : Analysis} {read ahead : List Char} {pending : Form}
  {name : String} {rest : List Symbol}

theorem Tracks.available_ne_nil (h : a.Tracks g read ahead pending) (hg : g.Closed)
    (hr : a.status = .running) (hs : a.configuration.stack = .nonterminal name :: rest) :
    a.available ⟨g, t⟩ ≠ [] := by
  have hd := hg.declaresAll h.form
  rw [available, isFinished, hr, hs]
  rw [h.configuration] at hs
  cases pending with
  | nil => cases hs
  | cons s form =>
    cases hs
    exact hd.alternatives_ne_nil (Form.current?_ofWord_append read _)

end Analysis

/-- Validation succeeds exactly on closed grammars, whatever the order in which the names are
visited, and so does building from rules that can be read. On a grammar that was validated
no undeclared name comes up: not in a form, not as the cause of a fault, and neither a
session nor an analysis is left without a production where it has a name to expand. -/
theorem Grammar.validated_stays_closed (g : Grammar) :
    (g.validate = .ok () ↔ g.Closed) ∧
    (∀ start rules built, ofRules start rules = .ok g →
      (build start rules = .ok built ↔ built = g ∧ g.Closed)) ∧
    (∀ visit : Grammar → List String, (visit g).Perm g.nonterminals →
      (g.validateIn (visit g) = .ok () ↔ g.Closed) ∧
        ∀ start rules built, ofRules start rules = .ok g →
          (buildIn visit start rules = .ok built ↔ built = g ∧ g.Closed)) ∧
    (g.validate = .ok () →
      (∀ (d : Derivation) form, d.form g = .ok form → g.DeclaresAll form) ∧
      (∀ (d : Derivation) name, d.form g ≠ .error (.undeclared name) ∧
        d.sentence g ≠ .error (.undeclared name)) ∧
      (∀ requests,
        let s := Session.afterAll g requests
        (s.isComplete = false → s.available g ≠ []) ∧
          ∀ index name, s.apply g index ≠ .error (.undeclared name)) ∧
      ∀ cells t input a requests, Table.ofCells g cells = .ok t →
        Analysis.start ⟨g, t⟩ input = .ok a →
        let e := a.afterAll ⟨g, t⟩ requests
        ∀ name rest, e.status = .running →
          e.configuration.stack = .nonterminal name :: rest → e.available ⟨g, t⟩ ≠ []) := by
  refine ⟨validate_eq_ok_iff, fun _ _ _ => buildIn_eq_ok_iff (.refl g.nonterminals),
    fun visit hv => ⟨validateIn_eq_ok_iff hv, fun _ _ _ => buildIn_eq_ok_iff hv⟩, fun hok => ?_⟩
  have hg := validate_eq_ok_iff.1 hok
  refine ⟨fun d form => hg.declaresAll,
    fun d name => ⟨hg.form_ne_undeclared d name, hg.sentence_ne_undeclared d name⟩,
    fun requests => ?_, ?_⟩
  · have hd := (Session.replayed_afterAll g requests).consistent.declaresAll hg
    exact ⟨Session.available_ne_nil hd, fun index => Session.apply_ne_undeclared hd index⟩
  · intro cells t input a requests ht hs e name rest hr hn
    obtain ⟨word, n, hc, he⟩ := (Analysis.reaches_start hs).afterAll requests
    obtain ⟨read, ahead, pending, _, h⟩ :=
      Analysis.tracks_iterate (Table.backed_ofCells ht) (Parser.endMarker_notMem_of_check hc) n
    rw [he] at h
    exact h.available_ne_nil hg hr hn

theorem Grammar.validated_stays_closed_standard :
    let s := Session.afterAll standard [.apply 0, .apply 3, .apply 1]
    standard.validate = .ok () ∧ ofRules "S" standardRules = .ok standard ∧
      build "S" standardRules = .ok standard ∧
      buildIn (·.nonterminals.reverse) "S" standardRules = .ok standard ∧
      s.isComplete = false ∧ s.available standard ≠ [] ∧
      ∃ a, Analysis.start .standard "acbb" = .ok a ∧
        let e := a.afterAll .standard [.restart "?", .step, .step]
        e.configuration.stack = [.nonterminal "C", .terminal 'b', .terminal '$'] ∧
          e.available .standard ≠ [] := by
  intro s
  have hr : ofRules "S" standardRules = .ok standard := rfl
  obtain ⟨hc, hb, hv, hok⟩ := validated_stays_closed standard
  have hg := hc.1 rfl
  obtain ⟨_, _, hs, ha⟩ := hok rfl
  refine ⟨rfl, hr, (hb _ _ _ hr).2 ⟨rfl, hg⟩,
    ((hv (·.nonterminals.reverse) (List.reverse_perm _)).2 _ _ _ hr).2 ⟨rfl, hg⟩,
    rfl, (hs [.apply 0, .apply 3, .apply 1]).1 rfl, _, rfl, rfl, ?_⟩
  exact ha _ _ "acbb" _ [.restart "?", .step, .step] Table.standard_standard rfl _ _ rfl rfl

end Predictive
