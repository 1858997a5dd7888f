import Predictive.Grammar.Rules
import Predictive.Proofs.SessionReplay

/-! What a session offers. The productions to choose from are listed without a word about what
went wrong, a choice has a reason of its own for each refusal, and completeness looks at the
form alone; still they say the same. The expansion, which goes down the form, is a
replacement at the position of the leftmost non-terminal. -/
namespace Predictive

namespace Session

def Expands (s : Session) (p : Production) (next : Session) : Prop :=
  ∃ i, s.form.leftmost? = some i ∧ s.form[i]? = some (.nonterminal p.lhs) ∧
    next.form = s.form.take i ++ p.rhs ++ s.form.drop (i + 1)

/-- Why a choice is refused: there is nothing left to expand, or what is to be expanded has no
productions, or not so many. -/
inductive Refused (g : Grammar) (s : Session) (index : Nat) : Fault → Prop
  | complete : (∀ name, .nonterminal name ∉ s.form) → Refused g s index .alreadyComplete
  | undeclared : s.current? = some name → g.declares name = false →
      Refused g s index (.undeclared name)
  | noAlternative : s.current? = some name → g.declares name = true →
      (s.available g).length ≤ index → Refused g s index (.noAlternative name index)

variable {g : Grammar} {s next : Session} {name : String} {index : Nat} {p : Production}
  {fault : Fault} {picks : List Nat}

theorem available_of_current? (h : s.current? = some name) :
    s.available g = g.alternatives name := by
  rw [available, h]

theorem exists_apply_iff :
    (∃ next, s.apply g index = .ok (p, next)) ↔ (s.available g)[index]? = some p := by
  constructor
  · rintro ⟨next, h⟩
    obtain ⟨name, form, hn, hc, _⟩ := apply_eq_ok_iff.1 h
    rw [available_of_current? hn]
    exact Grammar.chosen_eq_ok_iff.1 (Grammar.choose_eq_ok_iff.1 hc).2.1
  · intro h
    cases hn : s.current? with
    | none =>
      rw [available, hn] at h
      contradiction
    | some name =>
      rw [available_of_current? hn] at h
      have hp : g.chosen ⟨name, index⟩ = .ok p := Grammar.chosen_eq_ok_iff.2 h
      exact ⟨_, apply_eq_ok_iff.2 ⟨name, _, hn, Grammar.choose_eq_ok_iff.2 ⟨hn, hp, rfl⟩, rfl⟩⟩

theorem expands_of_apply (h : s.apply g index = .ok (p, next)) : s.Expands p next := by
  obtain ⟨name, form, hn, hc, rfl⟩ := apply_eq_ok_iff.1 h
  obtain ⟨_, hp, rfl⟩ := Grammar.choose_eq_ok_iff.1 hc
  obtain ⟨i, hi, hs, he⟩ := Form.expand_eq_splice hn
  have hl : p.lhs = name := (Grammar.mem_rules_of_chosen hp).2
  exact ⟨i, hi, hl ▸ hs, he p.rhs⟩

theorem apply_of_chosen (h : s.current? = some name) (hf : g.chosen ⟨name, index⟩ = .error fault) :
    s.apply g index = .error fault := by
  have hc : s.form.current? = some name := h
  rw [apply, h]
  dsimp only
  rw [Grammar.choose, if_pos hc, hf]

theorem Refused.apply_eq (h : s.Refused g index fault) : s.apply g index = .error fault := by
  cases h with
  | complete hn => rw [apply, current?, Form.current?_eq_none_iff.2 hn]
  | @undeclared name hn hd =>
    have hc : g.chosen ⟨name, index⟩ = .error (.undeclared name) := by
      rw [Grammar.chosen, Grammar.productionsOf_of_not_declares hd]
    exact apply_of_chosen hn hc
  | @noAlternative name hn hd hl =>
    rw [available_of_current? hn] at hl
    have hc : g.chosen ⟨name, index⟩ = .error (.noAlternative name index) := by
      rw [Grammar.chosen, Grammar.productionsOf_of_declares hd]
      dsimp only
      rw [List.getElem?_eq_none hl]
    exact apply_of_chosen hn hc

theorem offered_or_refused (g : Grammar) (s : Session) (index : Nat) :
    (∃ p, (s.available g)[index]? = some p) ∨ ∃ fault, s.Refused g index fault := by
  cases hn : s.current? with
  | none => exact .inr ⟨_, .complete (Form.current?_eq_none_iff.1 hn)⟩
  | some name =>
    cases hd : g.declares name with
    | false => exact .inr ⟨_, .undeclared hn hd⟩
    | true =>
      cases hp : (s.available g)[index]? with
      | some p => exact .inl ⟨p, rfl⟩
      | none => exact .inr ⟨_, .noAlternative hn hd (List.getElem?_eq_none_iff.1 hp)⟩

theorem apply_eq_error_iff : s.apply g index = .error fault ↔ s.Refused g index fault := by
  refine ⟨fun h => ?_, Refused.apply_eq⟩
  obtain ⟨p, hp⟩ | ⟨other, hr⟩ := offered_or_refused g s index
  · obtain ⟨next, hn⟩ := exists_apply_iff.2 hp
    rw [hn] at h
    contradiction
  · rw [hr.apply_eq] at h
    cases h
    exact hr

theorem isSome_sentence?_iff : s.sentence?.isSome = true ↔ s.current? = none := by
  unfold sentence? isComplete Form.isComplete current?
  cases s.form.current? <;> simp

theorem current?_eq_none_iff_apply :
    s.current? = none ↔ ∀ index, s.apply g index = .error .alreadyComplete := by
  constructor
  · exact fun h index => apply_eq_error_iff.2 (.complete (Form.current?_eq_none_iff.1 h))
  · intro h
    cases apply_eq_error_iff.1 (h 0) with
    | complete hn => exact Form.current?_eq_none_iff.2 hn

theorem exists_applyAll_iff : (∃ next, applyAll g picks s = .ok next) ↔
    ∀ before index rest, picks = before ++ index :: rest →
      ∃ mid, applyAll g before s = .ok mid ∧ index < (mid.available g).length := by
  constructor
  · rintro ⟨next, h⟩ before index rest rfl
    obtain ⟨mid, hm, h⟩ := applyAll_append_eq_ok_iff.1 h
    obtain ⟨p, _, hp, _⟩ := applyAll_cons_eq_ok_iff.1 h
    have ho := exists_apply_iff.1 ⟨_, hp⟩
    exact ⟨mid, hm, (List.getElem?_eq_some_iff.1 ho).1⟩
  · intro h
    induction picks generalizing s with
    | nil => exact ⟨s, rfl⟩
    | cons index rest ih =>
      obtain ⟨mid, hm, hi⟩ := h [] index rest rfl
      cases hm
      obtain ⟨first, hf⟩ := exists_apply_iff.2 (List.getElem?_eq_getElem hi)
      obtain ⟨next, hn⟩ := ih (s := first) fun before i after hr => by
        obtain ⟨mid, hm, hi⟩ := h (index :: before) i after (congrArg _ hr)
        obtain ⟨p, other, ho, hm⟩ := applyAll_cons_eq_ok_iff.1 hm
        cases hf.symm.trans ho
        exact ⟨mid, hm, hi⟩
      exact ⟨next, applyAll_cons_eq_ok_iff.2 ⟨_, first, hf, hn⟩⟩

/-- A choice is granted just if it is on offer, for any session over any grammar: it then gives
the production that is offered under its number, which takes the place of the leftmost
non-terminal between two sides that stay as they are. Any other choice is refused with what is in
its way, and there is a sentence once every choice is refused because nothing is left to
expand. So choices are granted in a row if each is on offer when its turn comes. -/
theorem apply_iff_offered (g : Grammar) (s : Session) :
    (∀ index p, (∃ next, s.apply g index = .ok (p, next)) ↔
      ∃ h : index < (s.available g).length, (s.available g)[index] = p) ∧
    (∀ index p next, s.apply g index = .ok (p, next) → s.Expands p next) ∧
    (∀ index fault, s.apply g index = .error fault ↔ s.Refused g index fault) ∧
    (s.sentence?.isSome = true ↔ ∀ index, s.apply g index = .error .alreadyComplete) ∧
    ∀ picks, (∃ next, applyAll g picks s = .ok next) ↔
      ∀ before index rest, picks = before ++ index :: rest →
        ∃ mid, applyAll g before s = .ok mid ∧ index < (mid.available g).length :=
  ⟨fun _ _ => exists_apply_iff.trans List.getElem?_eq_some_iff, fun _ _ _ => expands_of_apply,
    fun _ _ => apply_eq_error_iff, isSome_sentence?_iff.trans current?_eq_none_iff_apply,
    fun _ => exists_applyAll_iff⟩

theorem apply_iff_offered_acb :
    let s := afterAll .standard [.apply 0]
    let g : Grammar := ⟨"S", [⟨"S", [.nonterminal "X", .terminal 'b']⟩], by decide⟩
    (∃ next, s.apply .standard 1 =
        .ok (⟨"C", [.terminal 'c', .nonterminal "A", .terminal 'b']⟩, next) ∧
      s.Expands ⟨"C", [.terminal 'c', .nonterminal "A", .terminal 'b']⟩ next) ∧
      s.apply .standard 3 = .error (.noAlternative "C" 3) ∧
      (afterAll g [.apply 0]).apply g 0 = .error (.undeclared "X") := by
  intro s g
  obtain ⟨ho, he, hr, _⟩ := apply_iff_offered .standard s
  obtain ⟨_, _, hr', _⟩ := apply_iff_offered g (afterAll g [.apply 0])
  obtain ⟨next, hn⟩ := (ho 1 _).2 ⟨by decide, rfl⟩
  exact ⟨⟨next, hn, he _ _ _ hn⟩, (hr _ _).2 (.noAlternative rfl rfl (by decide)),
    (hr' _ _).2 (.undeclared rfl rfl)⟩

end Session

end Predictive
