import Predictive.Search
import Predictive.Proofs.CompleteDerivation

/-! What a bounded search finds. Its outcome answers a question about choices: those that
it found meet the bounds, and if it found none there are none. Neither the order of the
branches nor what is reported on the way enters the answer. -/
namespace Predictive

namespace Grammar

variable {g : Grammar} {c : Choice} {cs : List Choice} {form next : Form} {name : String}
  {p : Production} {maxLength left : Nat}

/-- Choices that turn a form into a word within the bounds for both. -/
def Completes (g : Grammar) (maxLength left : Nat) (form : Form) (cs : List Choice) : Prop :=
  cs.length ≤ left ∧ ∃ word, word.length ≤ maxLength ∧ g.chooseAll cs form = .ok (Form.ofWord word)

theorem Completes.terminalCount_le (h : g.Completes maxLength left form cs) :
    form.terminalCount ≤ maxLength := by
  obtain ⟨_, word, hw, hc⟩ := h
  have hle := terminalCount_le_of_chooseAll hc
  rw [Form.terminalCount, Form.terminalCount, Form.terminals_ofWord] at hle
  exact Nat.le_trans hle hw

theorem completes_iff_of_isComplete (h : form.current? = none) :
    g.Completes maxLength left form cs ↔ cs = [] ∧ form.terminalCount ≤ maxLength := by
  refine ⟨fun hc => ⟨?_, hc.terminalCount_le⟩, ?_⟩
  · obtain ⟨_, word, _, hc⟩ := hc
    exact eq_nil_of_chooseAll h hc
  · rintro ⟨rfl, hw⟩
    have hf : form.isComplete = true := by rw [Form.isComplete, h]; rfl
    exact ⟨Nat.zero_le _, form.terminals, hw, congrArg _ (Form.isComplete_iff.1 hf)⟩

theorem not_completes_nil (h : form.current? = some name) :
    ¬g.Completes maxLength left form [] := by
  rintro ⟨_, word, _, hc⟩
  cases hc
  rw [Form.current?_ofWord] at h
  contradiction

theorem completes_cons_iff : g.Completes maxLength (left + 1) form (c :: cs) ↔
    form.current? = some c.name ∧ ∃ p, g.chosen c = .ok p ∧
      g.Completes maxLength left (form.expand p.rhs) cs := by
  constructor
  · rintro ⟨hl, word, hw, hc⟩
    obtain ⟨hn, p, hp, hc⟩ := chooseAll_cons_eq_ok_iff.1 hc
    exact ⟨hn, p, hp, Nat.le_of_succ_le_succ hl, word, hw, hc⟩
  · rintro ⟨hn, p, hp, hl, word, hw, hc⟩
    exact ⟨Nat.succ_le_succ hl, word, hw, chooseAll_cons_eq_ok_iff.2 ⟨hn, p, hp, hc⟩⟩

def DeclaresAll (g : Grammar) (form : Form) : Prop :=
  ∀ name ∈ form.names, g.declares name = true

theorem declaresAll_startForm (hg : g.Closed) : g.DeclaresAll g.startForm := by
  intro name hn
  rw [List.mem_singleton.1 hn]
  exact hg.start

theorem DeclaresAll.current (hd : g.DeclaresAll form) (h : form.current? = some name) :
    g.declares name = true := by
  obtain ⟨word, rest, rfl⟩ := Form.eq_ofWord_append_of_current? h
  exact hd name (by simp)

theorem DeclaresAll.expand (hg : g.Closed) (hd : g.DeclaresAll form) (hp : p ∈ g.rules)
    (h : form.current? = some name) : g.DeclaresAll (form.expand p.rhs) := by
  intro n hn
  rcases Form.mem_names_expand h hn with hn | hn
  · exact hd n hn
  · exact hg.references p hp n hn

theorem DeclaresAll.chooseAll (hg : g.Closed) (hd : g.DeclaresAll form)
    (h : g.chooseAll cs form = .ok next) : g.DeclaresAll next := by
  induction cs generalizing form with
  | nil =>
    cases h
    exact hd
  | cons c cs ih =>
    obtain ⟨hc, p, hp, h⟩ := chooseAll_cons_eq_ok_iff.1 h
    exact ih (hd.expand hg (mem_rules_of_chosen hp).1 hc) h

end Grammar

namespace Search

variable {σ α β : Type} {attempt : Nat → σ → Except Fault (Option α) × σ} {order : List Nat}

/-- What an outcome says about a condition: what was found meets it, and if nothing was
found then nothing does. A fault leaves it open. -/
def Answers (P : α → Prop) : Except Fault (Option α) → Prop
  | .ok (some a) => P a
  | .ok none => ∀ a, ¬P a
  | .error _ => True

theorem Answers.congr {P Q : α → Prop} {r : Except Fault (Option α)} (h : Answers P r)
    (hpq : ∀ a, P a ↔ Q a) : Answers Q r := by
  rwa [← funext fun a => propext (hpq a)]

theorem answers_first {Q : Nat → α → Prop} (h : ∀ i s, Answers (Q i) (attempt i s).1)
    (order : List Nat) (s : σ) :
    Answers (fun a => ∃ i ∈ order, Q i a) (first attempt order s).1 := by
  induction order generalizing s with
  | nil => simp [first, Answers]
  | cons i rest ih =>
    have hi := h i s
    rw [first]
    split
    next t ht =>
      rw [ht] at hi
      refine (ih t).congr fun a => ?_
      simp [hi a]
    next a t ht =>
      rw [ht] at hi
      exact ⟨i, List.mem_cons_self, hi⟩
    next => trivial

theorem first_ok (h : ∀ i s, ∃ r, (attempt i s).1 = .ok r) (order : List Nat) (s : σ) :
    ∃ r, (first attempt order s).1 = .ok r := by
  induction order generalizing s with
  | nil => exact ⟨none, rfl⟩
  | cons i rest ih =>
    rw [first]
    split
    next t _ => exact ih t
    next a t _ => exact ⟨some a, rfl⟩
    next fault t ht =>
      obtain ⟨r, hr⟩ := h i s
      rw [ht] at hr
      contradiction

variable {g : Grammar} {source : Source σ} {bounds : Settings}

/-- The completions that begin with a certain choice, which one branch answers for. -/
def Branch (g : Grammar) (maxLength left : Nat) (form : Form) (c : Choice) (cs : List Choice) :
    Prop :=
  ∃ rest, cs = c :: rest ∧ g.Completes maxLength (left + 1) form (c :: rest)

theorem branch_iff {c : Choice} {cs : List Choice} {p : Production} {form : Form}
    {maxLength left : Nat} (hn : form.current? = some c.name) (hp : g.chosen c = .ok p) :
    Branch g maxLength left form c cs ↔
      ∃ rest, cs = c :: rest ∧ g.Completes maxLength left (form.expand p.rhs) rest := by
  constructor
  · rintro ⟨rest, he, h⟩
    obtain ⟨_, q, hq, h⟩ := Grammar.completes_cons_iff.1 h
    cases hp.symm.trans hq
    exact ⟨rest, he, h⟩
  · rintro ⟨rest, he, h⟩
    exact ⟨rest, he, Grammar.completes_cons_iff.2 ⟨hn, p, hp, h⟩⟩

theorem exists_branch_iff {name : String} {cs : List Choice} {form : Form} {maxLength left : Nat}
    (hn : form.current? = some name) (ho : order.Perm (List.range (g.alternatives name).length)) :
    (∃ i ∈ order, Branch g maxLength left form ⟨name, i⟩ cs) ↔
      g.Completes maxLength (left + 1) form cs := by
  constructor
  · rintro ⟨i, _, rest, rfl, h⟩
    exact h
  · intro h
    cases cs with
    | nil => exact absurd h (Grammar.not_completes_nil hn)
    | cons c rest =>
      obtain ⟨hc, p, hp, _⟩ := Grammar.completes_cons_iff.1 h
      cases hn.symm.trans hc
      have hi := (List.getElem?_eq_some_iff.1 (Grammar.chosen_eq_ok_iff.1 hp)).1
      exact ⟨c.index, ho.mem_iff.2 (List.mem_range.2 hi), rest, rfl, h⟩

theorem answers_of_isComplete {form : Form} {maxLength : Nat} (left : Nat)
    (h : form.current? = none) : Answers (g.Completes maxLength left form)
      (.ok (if form.terminalCount ≤ maxLength then some [] else none)) := by
  split
  next hw => exact (Grammar.completes_iff_of_isComplete h).2 ⟨rfl, hw⟩
  next hw => exact fun cs hc => hw hc.terminalCount_le

/-- The search answers for every way to complete the form within the bounds. -/
theorem answers_run (g : Grammar) (hs : source.Lawful) (bounds : Settings) (left : Nat)
    (form : Form) (s : σ) :
    Answers (g.Completes bounds.maxLength left form) (run g source bounds left form s).1 := by
  induction left generalizing form s with
  | zero =>
    rw [run]
    split
    next h => exact answers_of_isComplete 0 h
    next name h =>
      intro cs hc
      cases cs with
      | nil => exact Grammar.not_completes_nil h hc
      | cons c rest => exact Nat.not_succ_le_zero _ hc.1
  | succ left ih =>
    rw [run]
    split
    next h => exact answers_of_isComplete (left + 1) h
    next name h =>
      dsimp only
      split
      next => trivial
      next ps hps =>
        obtain ⟨_, rfl⟩ := Grammar.productionsOf_eq_ok_iff.1 hps
        refine (answers_first (fun i t => ?_) _ _).congr fun cs => exists_branch_iff h (hs _ s)
        split
        next hp =>
          rintro cs ⟨rest, _, hc⟩
          obtain ⟨_, p, hq, _⟩ := Grammar.completes_cons_iff.1 hc
          rw [Grammar.chosen_eq_ok_iff, hp] at hq
          contradiction
        next p hp =>
          have hb (cs : List Choice) : Branch g bounds.maxLength left form ⟨name, i⟩ cs ↔
              ∃ rest, cs = ⟨name, i⟩ :: rest ∧
                g.Completes bounds.maxLength left (form.expand p.rhs) rest :=
            branch_iff h (Grammar.chosen_eq_ok_iff.2 hp)
          split
          next hl =>
            -- the letters of the form stay in every sentence made of it
            intro cs hc
            obtain ⟨rest, _, hc⟩ := (hb cs).1 hc
            exact Nat.not_le.2 hl hc.terminalCount_le
          next =>
            have hr := ih (form.expand p.rhs)
              (source.note (.tried (bounds.maxDepth - (left + 1)) p) t)
            split
            next rest u hu =>
              rw [hu] at hr
              exact (hb _).2 ⟨rest, rfl, hr⟩
            next u hu =>
              rw [hu] at hr
              intro cs hc
              obtain ⟨rest, _, hc⟩ := (hb cs).1 hc
              exact hr rest hc
            next => trivial

theorem run_ok (hg : g.Closed) (source : Source σ) (bounds : Settings) (left : Nat) {form : Form}
    (hd : g.DeclaresAll form) (s : σ) : ∃ r, (run g source bounds left form s).1 = .ok r := by
  induction left generalizing form s with
  | zero =>
    rw [run]
    split
    next => exact ⟨_, rfl⟩
    next => exact ⟨none, rfl⟩
  | succ left ih =>
    rw [run]
    split
    next => exact ⟨_, rfl⟩
    next name h =>
      rw [Grammar.productionsOf_of_declares (hd.current h)]
      dsimp only
      refine first_ok (fun i t => ?_) _ _
      split
      next => exact ⟨none, rfl⟩
      next p hp =>
        split
        next => exact ⟨none, rfl⟩
        next =>
          have hp := (Grammar.mem_alternatives.1 (List.mem_of_getElem? hp)).1
          obtain ⟨r, hr⟩ := ih (hd.expand hg hp h)
            (source.note (.tried (bounds.maxDepth - (left + 1)) p) t)
          split
          next rest u _ => exact ⟨_, rfl⟩
          next u _ => exact ⟨none, rfl⟩
          next fault u hu =>
            rw [hu] at hr
            contradiction

end Search

end Predictive
