import Predictive.Proofs.SpelledRules

/-! Rules without symbols. Only a rule without elements is refused for being empty: blanks are
dropped from an element after that, so a rule of blank elements passes for a spelled-out ε.
Where no element is blank, ε is stored just if it is written. -/
namespace Predictive

namespace Rule

def Blank (element : String) : Prop :=
  ∀ c ∈ element.toList, isBlank c = true

/-- An element that contributes no symbol. -/
def Silent (element : String) : Prop :=
  element = "ε" ∨ Blank element

instance : DecidablePred Blank :=
  fun element => List.decidableBAll (isBlank · = true) element.toList

instance : DecidablePred Silent :=
  fun _ => inferInstanceAs (Decidable (_ ∨ _))

variable {rule : Rule} {owner element : String} {elements : List String} {fault : Fault}

theorem not_blank_of_mem {c : Char} (hc : c ∈ element.toList) (hb : isBlank c = false) :
    ¬Blank element := fun h => by simp [h c hc] at hb

theorem bracketed?_of_blank (h : Blank element) : bracketed? element.toList = none := by
  unfold bracketed?
  split
  next rest hl => exact absurd h (not_blank_of_mem (c := '<') (by simp [hl]) (by decide))
  next => rfl

theorem stands_nil_iff : Stands element [] ↔ Silent element := by
  constructor
  · intro h
    generalize hf : ([] : Form) = form at h
    cases h with
    | nothing => exact .inl rfl
    | name => contradiction
    | letters =>
      have hb := List.filter_eq_nil_iff.1 (List.map_eq_nil_iff.1 hf.symm)
      exact .inr fun c hc => by simpa using hb c hc
  · rintro (rfl | hb)
    · exact .nothing
    · have he : element ≠ "ε" := by
        rintro rfl
        exact absurd hb (by decide)
      have hm : endMarker ∉ element.toList := fun hm => not_blank_of_mem hm (by decide) hb
      have hf : element.toList.filter (!isBlank ·) = [] :=
        List.filter_eq_nil_iff.2 fun c hc => by simp [hb c hc]
      have h := Stands.letters he (bracketed?_of_blank hb) hm
      rwa [hf] at h

theorem forall₂_stands_iff : (∃ forms, List.Forall₂ Stands elements forms ∧ forms.flatten = []) ↔
    ∀ element ∈ elements, Silent element := by
  induction elements with
  | nil => simp
  | cons element rest ih =>
    rw [List.forall_mem_cons, ← stands_nil_iff, ← ih]
    constructor
    · rintro ⟨_, hf, he⟩
      cases hf with
      | cons hs hf =>
        obtain ⟨rfl, he⟩ := List.append_eq_nil_iff.1 he
        exact ⟨hs, _, hf, he⟩
    · rintro ⟨hs, forms, hf, he⟩
      exact ⟨[] :: forms, .cons hs hf, he⟩

theorem read_eq_epsilon_iff : rule.read = .ok ⟨rule.name, []⟩ ↔
    rule.elements ≠ [] ∧ ∀ element ∈ rule.elements, Silent element := by
  rw [read_eq_ok_iff, forall₂_stands_iff]
  simp

theorem readElements_eq_error_iff : readElements owner elements = .error fault ↔
    (∃ element ∈ elements, Reserved element) ∧ fault = .reservedMarker owner := by
  induction elements with
  | nil => simp [readElements]
  | cons element rest ih =>
    rw [readElements]
    cases hr : readElement owner element with
    | error other =>
      obtain ⟨he, rfl⟩ := readElement_eq_error_iff.1 hr
      simp [he, eq_comm]
    | ok head =>
      have he : ¬Reserved element := fun he => by
        simp [readElement_eq_error_iff.2 ⟨he, rfl⟩] at hr
      have hm : (readElements owner rest).map (head ++ ·) = .error fault ↔
          readElements owner rest = .error fault := by
        cases readElements owner rest <;> simp [Except.map]
      simp [he, hm, ih]

theorem read_eq_error_iff : rule.read = .error fault ↔
    rule.elements = [] ∧ fault = .noElements rule.name ∨
      (∃ element ∈ rule.elements, Reserved element) ∧ fault = .reservedMarker rule.name := by
  rw [← readElements_eq_error_iff, read]
  split
  next h => simp [h, readElements, eq_comm]
  next h => cases readElements rule.name rule.elements <;> simp [h, Except.map]

end Rule

namespace Grammar

def AddsEpsilon (g : Grammar) (rule : Rule) : Prop :=
  ∃ next, g.addRule rule = .ok next ∧ next.start = g.start ∧
    next.rules = g.rules ++ [⟨rule.name, []⟩]

variable {g : Grammar} {rule : Rule} {fault : Fault}

theorem addsEpsilon_iff_read : g.AddsEpsilon rule ↔ rule.read = .ok ⟨rule.name, []⟩ := by
  constructor
  · rintro ⟨next, ha, _, hl⟩
    obtain ⟨p, hp, _, hr⟩ := addRule_eq_ok_iff.1 ha
    rw [hl, List.append_cancel_left_eq, List.singleton_inj] at hr
    rw [hp, hr]
  · exact fun h => ⟨_, addRule_of_ok h, rfl, rfl⟩

theorem addRule_eq_error_iff : g.addRule rule = .error fault ↔ rule.read = .error fault := by
  refine ⟨fun h => ?_, addRule_of_error⟩
  cases hr : rule.read with
  | ok p =>
    rw [addRule_of_ok hr] at h
    contradiction
  | error other => simpa [addRule_of_error hr] using h

theorem addsEpsilon_iff : g.AddsEpsilon rule ↔
    rule.elements ≠ [] ∧ ∀ element ∈ rule.elements, Rule.Silent element :=
  addsEpsilon_iff_read.trans Rule.read_eq_epsilon_iff

theorem addRule_eq_noElements_iff :
    g.addRule rule = .error (.noElements rule.name) ↔ rule.elements = [] := by
  simp [addRule_eq_error_iff, Rule.read_eq_error_iff]

theorem offer_of_addRule (h : g.addRule rule = .error fault) : g.offer rule = g := by
  rw [offer, h]

/-- Just the rules of silent elements add an empty production, and only a rule without elements is
refused for being empty; whatever the reason, a refused rule leaves the grammar as it is. If
no element is blank, then ε has to be written out to be stored. -/
theorem addsEpsilon_exact (g : Grammar) (rule : Rule) :
    (g.AddsEpsilon rule ↔
      rule.elements ≠ [] ∧ ∀ element ∈ rule.elements, Rule.Silent element) ∧
    (g.addRule rule = .error (.noElements rule.name) ↔ rule.elements = []) ∧
    (∀ fault, g.addRule rule = .error fault → g.offer rule = g ∧
      (rule.elements = [] ∧ fault = .noElements rule.name ∨
        (∃ element ∈ rule.elements, Rule.Reserved element) ∧
          fault = .reservedMarker rule.name)) ∧
    ((∀ element ∈ rule.elements, ¬Rule.Blank element) →
      (g.AddsEpsilon rule ↔ rule.elements ≠ [] ∧ ∀ element ∈ rule.elements, element = "ε") ∧
      ((∀ element ∈ rule.elements, Rule.Silent element) →
        ¬(rule.elements ≠ [] ∧ ∀ element ∈ rule.elements, element = "ε") →
        g.addRule rule = .error (.noElements rule.name))) := by
  refine ⟨addsEpsilon_iff, addRule_eq_noElements_iff, fun fault h => ?_, fun hb => ?_⟩
  · exact ⟨offer_of_addRule h, Rule.read_eq_error_iff.1 (addRule_eq_error_iff.1 h)⟩
  · have hs : (∀ element ∈ rule.elements, Rule.Silent element) ↔
        ∀ element ∈ rule.elements, element = "ε" :=
      forall₂_congr fun element hm => or_iff_left (hb element hm)
    rw [addsEpsilon_iff, addRule_eq_noElements_iff, hs]
    refine ⟨Iff.rfl, fun ha hn => ?_⟩
    by_contra he
    exact hn ⟨he, ha⟩

theorem addsEpsilon_exact_mixed :
    standard.AddsEpsilon ⟨"D", [" ", "ε", "", "\u3000\t"]⟩ ∧
      standard.offer ⟨"D", []⟩ = standard ∧
      standard.offer ⟨"D", ["ε", "a$"]⟩ = standard ∧
      standard.AddsEpsilon ⟨"D", ["ε", "ε"]⟩ := by
  have hn : standard.addRule ⟨"D", []⟩ = .error (.noElements "D") := rfl
  have hm : standard.addRule ⟨"D", ["ε", "a$"]⟩ = .error (.reservedMarker "D") := rfl
  refine ⟨(addsEpsilon_exact standard _).1.2 (by decide),
    ((addsEpsilon_exact standard _).2.2.1 _ hn).1, ((addsEpsilon_exact standard _).2.2.1 _ hm).1,
    ((addsEpsilon_exact standard _).2.2.2 (by decide)).1.2 (by decide)⟩

theorem addsEpsilon_blank :
    (empty "S").AddsEpsilon ⟨"S", [" "]⟩ ∧ ¬(∀ element ∈ [" "], element = "ε") ∧
      (empty "S").addRule ⟨"S", [" "]⟩ ≠ .error (.noElements "S") := by
  refine ⟨⟨_, rfl, rfl, rfl⟩, by decide, ?_⟩
  intro h
  contradiction

end Grammar

end Predictive
