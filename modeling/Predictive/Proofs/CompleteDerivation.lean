import Predictive.Proofs.GrowingForms

/-! Complete derivations. The form of a derivation is rebuilt from the start symbol with all of its
finished text in front; the relation `Derives` drops that text as soon as it is finished, so that a
derivation can be followed from left to right along its sentence. -/
namespace Predictive

namespace Grammar

/-- Choices that turn a form into a word, letter by letter and choice by choice. -/
inductive Derives (g : Grammar) : List Choice → Form → List Char → Prop
  | done : Derives g [] [] []
  | letter (a : Char) : Derives g cs form word → Derives g cs (.terminal a :: form) (a :: word)
  | choice : g.chosen c = .ok p → Derives g cs (p.rhs ++ form) word →
      Derives g (c :: cs) (.nonterminal c.name :: form) word

variable {g : Grammar} {c : Choice} {cs : List Choice} {form next : Form} {p : Production}
  {word : List Char}

theorem choose_ofWord_append (g : Grammar) (c : Choice) (word : List Char) (form : Form) :
    g.choose c (Form.ofWord word ++ form) =
      (g.choose c form).map fun r => (r.1, Form.ofWord word ++ r.2) := by
  unfold choose
  rw [Form.current?_ofWord_append]
  split
  · cases g.chosen c with
    | ok p => simp [Except.map]
    | error fault => rfl
  · rfl

theorem chooseAll_ofWord_append (g : Grammar) (cs : List Choice) (word : List Char) (form : Form) :
    g.chooseAll cs (Form.ofWord word ++ form) =
      (g.chooseAll cs form).map (Form.ofWord word ++ ·) := by
  induction cs generalizing form with
  | nil => rfl
  | cons c rest ih =>
    rw [chooseAll, chooseAll, choose_ofWord_append]
    cases g.choose c form with
    | ok r => exact ih r.2
    | error fault => rfl

theorem chooseAll_terminal (g : Grammar) (cs : List Choice) (a : Char) (form : Form) :
    g.chooseAll cs (.terminal a :: form) = (g.chooseAll cs form).map (.terminal a :: ·) :=
  chooseAll_ofWord_append g cs [a] form

theorem chooseAll_snoc (h : g.chooseAll cs g.startForm = .ok form)
    (hc : form.current? = some c.name) (hp : g.chosen c = .ok p) :
    g.chooseAll (cs ++ [c]) g.startForm = .ok (form.expand p.rhs) := by
  rw [chooseAll_append, h]
  exact chooseAll_cons_eq_ok_iff.2 ⟨hc, p, hp, rfl⟩

theorem Derives.append {ds : List Choice} {other : Form} {rest : List Char}
    (ha : g.Derives cs form word) (hb : g.Derives ds other rest) :
    g.Derives (cs ++ ds) (form ++ other) (word ++ rest) := by
  induction ha with
  | done => exact hb
  | letter a _ ih => exact .letter a ih
  | choice hp _ ih =>
    rw [List.append_assoc] at ih
    exact .choice hp ih

theorem Derives.split {a b : Form} (h : g.Derives cs (a ++ b) word) : ∃ ca cb u v,
    cs = ca ++ cb ∧ word = u ++ v ∧ g.Derives ca a u ∧ g.Derives cb b v := by
  generalize hf : a ++ b = form at h
  induction h generalizing a with
  | done =>
    obtain ⟨rfl, rfl⟩ := List.append_eq_nil_iff.1 hf
    exact ⟨[], [], [], [], rfl, rfl, .done, .done⟩
  | letter x h ih =>
    cases a with
    | nil =>
      cases hf
      exact ⟨[], _, [], _, rfl, rfl, .done, .letter x h⟩
    | cons s a =>
      cases hf
      obtain ⟨ca, cb, u, v, rfl, rfl, ha, hb⟩ := ih rfl
      exact ⟨ca, cb, x :: u, v, rfl, rfl, .letter x ha, hb⟩
  | choice hp h ih =>
    cases a with
    | nil =>
      cases hf
      exact ⟨[], _, [], _, rfl, rfl, .done, .choice hp h⟩
    | cons s a =>
      cases hf
      obtain ⟨ca, cb, u, v, rfl, rfl, ha, hb⟩ := ih (List.append_assoc _ _ _)
      exact ⟨_ :: ca, cb, u, v, rfl, rfl, .choice hp ha, hb⟩

theorem Derives.append_left (h : g.Derives cs form word) (u : List Char) :
    g.Derives cs (Form.ofWord u ++ form) (u ++ word) := by
  induction u with
  | nil => exact h
  | cons a rest ih => exact .letter a ih

theorem chooseAll_of_derives (h : g.Derives cs form word) :
    g.chooseAll cs form = .ok (Form.ofWord word) := by
  induction h with
  | done => rfl
  | letter a _ ih =>
    rw [chooseAll_terminal, ih]
    rfl
  | choice hp _ ih => exact chooseAll_cons_eq_ok_iff.2 ⟨rfl, _, hp, ih⟩

theorem derives_of_chooseAll (h : g.chooseAll cs form = .ok (Form.ofWord word)) :
    g.Derives cs form word := by
  induction cs generalizing form word with
  | nil =>
    cases h
    have hw := Derives.done.append_left (g := g) word
    rwa [List.append_nil, List.append_nil] at hw
  | cons c cs ih =>
    obtain ⟨hc, p, hp, h⟩ := chooseAll_cons_eq_ok_iff.1 h
    obtain ⟨u, rest, rfl⟩ := Form.eq_ofWord_append_of_current? hc
    rw [Form.expand_ofWord_append, Form.expand_nonterminal, chooseAll_ofWord_append] at h
    obtain ⟨next, hn, he⟩ := map_eq_ok_iff.1 h
    obtain ⟨v, rfl, rfl⟩ := Form.ofWord_append_eq_ofWord_iff.1 he
    exact (Derives.choice hp (ih hn)).append_left u

theorem mem_terminals_of_derives (h : g.Derives cs form word) :
    ∀ a ∈ word, a ∈ form.terminals ∨ a ∈ g.terminals := by
  have hm := mem_terminals_of_chooseAll (chooseAll_of_derives h)
  rwa [Form.terminals_ofWord] at hm

theorem length_names_le (h : g.Derives cs form word) : form.names.length ≤ cs.length := by
  induction h with
  | done => exact Nat.le_refl _
  | letter a _ ih => exact ih
  | choice _ _ ih =>
    rw [Form.names_append, List.length_append] at ih
    rw [Form.names_nonterminal, List.length_cons, List.length_cons]
    omega

theorem length_choices_le (hg : ∀ p ∈ g.rules, p.rhs.names.length ≤ p.rhs.terminalCount)
    (h : g.Derives cs form word) :
    cs.length + form.terminalCount ≤ word.length + form.names.length := by
  induction h with
  | done => exact Nat.le_refl _
  | letter a _ ih =>
    rw [Form.terminalCount_terminal, Form.names_terminal, List.length_cons]
    omega
  | choice hp _ ih =>
    have hr := hg _ (mem_rules_of_chosen hp).1
    rw [Form.terminalCount_append, Form.names_append, List.length_append] at ih
    rw [Form.terminalCount_nonterminal, Form.names_nonterminal, List.length_cons, List.length_cons]
    omega

theorem chooseAll_eq_ok_ofWord_iff :
    g.chooseAll cs form = .ok (Form.ofWord word) ↔ g.Derives cs form word :=
  ⟨derives_of_chooseAll, chooseAll_of_derives⟩

end Grammar

namespace Derivation

def Yields (g : Grammar) (d : Derivation) (sentence : String) : Prop :=
  ∃ form, d.form g = .ok form ∧ form.isComplete = true ∧ form.projection = sentence

theorem yields_iff {g : Grammar} {d : Derivation} {s : String} :
    d.Yields g s ↔ g.Derives d.choices g.startForm s.toList := by
  rw [← Grammar.chooseAll_eq_ok_ofWord_iff]
  constructor
  · rintro ⟨form, hf, hc, rfl⟩
    rw [Form.isComplete_iff] at hc
    rw [Form.projection, String.toList_ofList, ← hc]
    exact hf
  · intro h
    exact ⟨_, h, Form.isComplete_ofWord _, by simp [Form.projection]⟩

variable {g : Grammar} {c : Choice} {cs : List Choice} {p : Production}

theorem map_chosen {form : Form} {word : List Char} (h : g.Derives cs form word) :
    cs.map g.chosen = ((⟨cs⟩ : Derivation).productions g).map .ok := by
  induction h with
  | done => rfl
  | letter _ _ ih => exact ih
  | choice hp _ ih => rw [productions_cons hp, List.map_cons, List.map_cons, hp, ih]

theorem length_productions {form : Form} {word : List Char} (h : g.Derives cs form word) :
    ((⟨cs⟩ : Derivation).productions g).length = cs.length := by
  have hl := congrArg List.length (map_chosen h)
  rwa [List.length_map, List.length_map, eq_comm] at hl

theorem choices_eq_of_map_chosen (hg : g.rules.Nodup) {ds : List Choice} {ps : List Production}
    (hc : cs.map g.chosen = ps.map .ok) (hd : ds.map g.chosen = ps.map .ok) : cs = ds := by
  induction ps generalizing cs ds with
  | nil => rw [List.map_eq_nil_iff.1 hc, List.map_eq_nil_iff.1 hd]
  | cons p rest ih =>
    obtain ⟨c, cs, rfl, hp, hc⟩ := List.map_eq_cons_iff.1 hc
    obtain ⟨d, ds, rfl, hq, hd⟩ := List.map_eq_cons_iff.1 hd
    rw [Grammar.chosen_injective hg hp hq, ih hc hd]

theorem productions_map_choiceOf {ps : List Production} (h : ∀ p ∈ ps, p ∈ g.rules) :
    (⟨ps.map g.choiceOf⟩ : Derivation).productions g = ps := by
  induction ps with
  | nil => rfl
  | cons p rest ih =>
    rw [List.map_cons, productions_cons (Grammar.chosen_choiceOf (h p List.mem_cons_self)),
      ih fun q hq => h q (List.mem_cons_of_mem p hq)]

end Derivation

/-! Rewriting may take any occurrence at any time. Steps can be put off or brought forward without
changing their number, so it reaches the same sentences at the same cost. -/

namespace Grammar

/-- Replaces one occurrence of a name, wherever it stands, by one of its alternatives. -/
inductive Rewrites (g : Grammar) : Form → Form → Prop
  | replace (before after : Form) : p ∈ g.alternatives name →
      Rewrites g (before ++ .nonterminal name :: after) (before ++ (p.rhs ++ after))

inductive RewritesIn (g : Grammar) : Nat → Form → Form → Prop
  | refl : RewritesIn g 0 form form
  | head : g.Rewrites form next → RewritesIn g n next last → RewritesIn g (n + 1) form last

variable {g : Grammar} {cs : List Choice} {form next : Form} {n : Nat} {word : List Char}

/-- What was replaced first can wait until it is leftmost: the choices for the text before it
are made without it, and those for the rest follow its own. -/
theorem Rewrites.derives (hs : g.Rewrites form next) (h : g.Derives cs next word) :
    ∃ ds, ds.length = cs.length + 1 ∧ g.Derives ds form word := by
  cases hs with
  | replace before after hp =>
    obtain ⟨hr, rfl⟩ := mem_alternatives.1 hp
    obtain ⟨ca, cb, u, v, rfl, rfl, ha, hb⟩ := h.split
    refine ⟨ca ++ _ :: cb, ?_, ha.append (.choice (chosen_choiceOf hr) hb)⟩
    rw [List.length_append, List.length_cons, List.length_append]
    rfl

theorem RewritesIn.derives (h : g.RewritesIn n form (.ofWord word)) :
    ∃ cs, cs.length = n ∧ g.Derives cs form word := by
  generalize hl : Form.ofWord word = last at h
  induction h with
  | refl =>
    subst hl
    exact ⟨[], rfl, derives_of_chooseAll rfl⟩
  | head hs _ ih =>
    obtain ⟨cs, rfl, hd⟩ := ih hl
    exact hs.derives hd

theorem rewritesIn_of_chooseAll (h : g.chooseAll cs form = .ok next) :
    g.RewritesIn cs.length form next := by
  induction cs generalizing form with
  | nil =>
    cases h
    exact .refl
  | cons c rest ih =>
    obtain ⟨hc, p, hp, h⟩ := chooseAll_cons_eq_ok_iff.1 h
    obtain ⟨u, after, rfl⟩ := Form.eq_ofWord_append_of_current? hc
    rw [Form.expand_ofWord_append, Form.expand_nonterminal] at h
    exact .head (.replace _ after (mem_alternatives.2 (mem_rules_of_chosen hp))) (ih h)

/-- A sentence is reached by replacements in any order exactly if it is reached by as many
choices for the leftmost non-terminal. -/
theorem rewritesIn_iff_exists_derivation (g : Grammar) (n : Nat) (word : List Char) :
    g.RewritesIn n g.startForm (.ofWord word) ↔
      ∃ d : Derivation, d.length = n ∧ d.form g = .ok (.ofWord word) := by
  constructor
  · intro h
    obtain ⟨cs, hl, hd⟩ := h.derives
    exact ⟨⟨cs⟩, hl, chooseAll_of_derives hd⟩
  · rintro ⟨d, rfl, hd⟩
    exact rewritesIn_of_chooseAll hd

end Grammar

end Predictive
