import Mathlib.Algebra.Group.Nat.Defs
import Mathlib.Data.Finset.Card
import Mathlib.Data.List.MinMax
import Predictive.Proofs.EndMarkers
import Predictive.Proofs.PrescribedReading

/-! Unfolding. As long as one character is ahead, entries are applied to what is on top of the
stack and nothing else changes. How many are applied depends on the table and the
character alone, so a name cannot come up within its own expansion if that ends. This
bounds the steps to the next letter, and with them all steps of a run that ends. -/
namespace Predictive

namespace Table

def Rests (t : Table) (c : Char) (form : Form) : Prop :=
  ∀ name rest, form = .nonterminal name :: rest → t.entry name c = none

/-- Applying entries for the lookahead `c`, so many until none applies. -/
inductive Unfolds (t : Table) (c : Char) : Nat → Form → Form → Prop
  | rest : t.Rests c form → Unfolds t c 0 form form
  | entry : t.entry name c = some q → Unfolds t c n (q.rhs ++ form) next →
      Unfolds t c (n + 1) (.nonterminal name :: form) next

variable {t : Table} {c : Char} {name : String} {q : Production} {a b form next other : Form}
  {m n k : Nat}

theorem rests_nil (t : Table) (c : Char) : t.Rests c [] := by
  intro name rest h
  contradiction

theorem rests_terminal (t : Table) (c d : Char) (form : Form) :
    t.Rests c (.terminal d :: form) := by
  intro name rest h
  simp at h

theorem rests_nonterminal_iff :
    t.Rests c (.nonterminal name :: form) ↔ t.entry name c = none := by
  constructor
  · intro h
    exact h name form rfl
  · intro h n rest he
    cases he
    exact h

theorem not_rests_iff :
    ¬t.Rests c form ↔
      ∃ name rest q, form = .nonterminal name :: rest ∧ t.entry name c = some q := by
  simp only [Rests, not_forall, Option.ne_none_iff_exists']
  constructor
  · rintro ⟨name, rest, rfl, q, he⟩
    exact ⟨name, rest, q, rfl, he⟩
  · rintro ⟨name, rest, q, rfl, he⟩
    exact ⟨name, rest, rfl, q, he⟩

namespace Unfolds

theorem rests (h : t.Unfolds c n form next) : t.Rests c next := by
  induction h with
  | rest h => exact h
  | entry _ _ ih => exact ih

theorem unique (h : t.Unfolds c n form next) (h' : t.Unfolds c m form other) : n = m := by
  induction h generalizing m with
  | rest hr =>
    cases h' with
    | rest _ => rfl
    | entry he _ =>
      rw [rests_nonterminal_iff.1 hr] at he
      contradiction
  | entry he _ ih =>
    cases h' with
    | rest hr =>
      rw [rests_nonterminal_iff.1 hr] at he
      contradiction
    | entry he' h' =>
      cases he.symm.trans he'
      exact congrArg (· + 1) (ih h')

theorem append_of_nil (ha : t.Unfolds c m a []) (hb : t.Unfolds c k b next) :
    t.Unfolds c (m + k) (a ++ b) next := by
  generalize hz : ([] : Form) = z at ha
  induction ha with
  | rest _ =>
    subst hz
    rwa [Nat.zero_add]
  | entry he _ ih =>
    rw [Nat.add_right_comm]
    apply Unfolds.entry he
    have h := ih hz
    rwa [List.append_assoc] at h

theorem append_right (h : t.Unfolds c n a next) (hn : next ≠ []) (b : Form) :
    t.Unfolds c n (a ++ b) (next ++ b) := by
  induction h with
  | @rest form hr =>
    cases form with
    | nil => contradiction
    | cons s rest =>
      refine .rest fun name rest he => ?_
      cases he
      exact hr _ _ rfl
  | entry he _ ih =>
    apply Unfolds.entry he
    have h := ih hn
    rwa [List.append_assoc] at h

theorem split (h : t.Unfolds c n (a ++ b) next) :
    (∃ m k, n = m + k ∧ t.Unfolds c m a [] ∧ t.Unfolds c k b next) ∨
      ∃ rest, t.Unfolds c n a rest ∧ next = rest ++ b := by
  generalize hf : a ++ b = form at h
  induction h generalizing a with
  | rest hr =>
    subst hf
    refine .inr ⟨a, .rest fun name rest he => ?_, rfl⟩
    subst he
    exact hr _ _ rfl
  | @entry name q n form next he h ih =>
    cases a with
    | nil =>
      rw [List.nil_append] at hf
      exact .inl ⟨0, n + 1, by omega, .rest (rests_nil t c), hf ▸ .entry he h⟩
    | cons s rest =>
      cases hf
      obtain ⟨m, k, rfl, ha, hb⟩ | ⟨rest, ha, hn⟩ := ih (a := q.rhs ++ rest) (by simp)
      · exact .inl ⟨m + 1, k, by omega, .entry he ha, hb⟩
      · exact .inr ⟨rest, .entry he ha, hn⟩

end Unfolds

theorem length_rhs_le_width (h : t.entry name c = some q) : q.rhs.length ≤ t.width := by
  apply List.le_max_of_le' 0 _ le_rfl
  exact List.mem_map_of_mem (mem_of_entry h).2

open Classical in
/-- The names that have an entry and are done with after at most `n` of them. -/
noncomputable def doneWithin (t : Table) (c : Char) (n : Nat) : Finset String :=
  (t.rows.map (·.name)).toFinset.filter fun name =>
    ∃ m next, 0 < m ∧ m ≤ n ∧ t.Unfolds c m [.nonterminal name] next

theorem mem_doneWithin : name ∈ t.doneWithin c n ↔ name ∈ t.rows.map (·.name) ∧
    ∃ m next, 0 < m ∧ m ≤ n ∧ t.Unfolds c m [.nonterminal name] next := by
  classical
  rw [doneWithin, Finset.mem_filter, List.mem_toFinset]

theorem card_doneWithin_le (t : Table) (c : Char) (n : Nat) :
    (t.doneWithin c n).card ≤ t.rows.length := by
  calc (t.doneWithin c n).card ≤ (t.rows.map (·.name)).toFinset.card :=
        Finset.card_le_card fun name h => List.mem_toFinset.2 (mem_doneWithin.1 h).1
    _ ≤ (t.rows.map (·.name)).length := List.toFinset_card_le _
    _ = t.rows.length := List.length_map _

theorem doneWithin_mono (hn : n ≤ k) : t.doneWithin c n ⊆ t.doneWithin c k := by
  intro name h
  rw [mem_doneWithin] at h ⊢
  obtain ⟨hm, m, next, hp, hl, h⟩ := h
  exact ⟨hm, m, next, hp, hl.trans hn, h⟩

theorem card_doneWithin_lt (h : t.Unfolds c (m + 1) [.nonterminal name] next) (hm : m < n) :
    (t.doneWithin c m).card < (t.doneWithin c n).card := by
  apply Finset.card_lt_card
  refine ⟨doneWithin_mono hm.le, fun hs => ?_⟩
  have hn : name ∈ t.doneWithin c n := by
    cases h with
    | entry he h =>
      exact mem_doneWithin.2 ⟨(mem_of_entry he).1, m + 1, next, by omega, hm, .entry he h⟩
  obtain ⟨_, k, other, _, hk, h'⟩ := mem_doneWithin.1 (hs hn)
  have hu := h.unique h'
  omega

theorem succ_le_pow {w r s : Nat} (hm : m ≤ w * (w + 1) ^ r) (hr : r < s) :
    m + 1 ≤ (w + 1) ^ s := by
  calc m + 1 ≤ w * (w + 1) ^ r + (w + 1) ^ r := Nat.add_le_add hm (Nat.pow_pos (Nat.succ_pos w))
    _ = (w + 1) ^ (r + 1) := by rw [Nat.pow_succ, Nat.mul_succ, Nat.mul_comm w]
    _ ≤ (w + 1) ^ s := Nat.pow_le_pow_right (Nat.succ_pos w) hr

/-- Each symbol of a form costs at most `(width + 1) ^ r` steps, where `r` counts the names
that are done with in time, and no more than `r * width` symbols are added in the end. -/
theorem Unfolds.le_card (h : t.Unfolds c n form next) :
    n ≤ form.length * (t.width + 1) ^ (t.doneWithin c n).card ∧
      next.length ≤ form.length + (t.doneWithin c n).card * t.width := by
  induction n using Nat.strong_induction_on generalizing form next with
  | _ n ih =>
    cases h with
    | rest _ => exact ⟨Nat.zero_le _, Nat.le_add_right _ _⟩
    | @entry name q n form _ he h =>
      have hw := length_rhs_le_width he
      obtain ⟨m, k, rfl, ha, hb⟩ | ⟨rest, ha, rfl⟩ := h.split
      -- the name has vanished after `m + 1` steps, and the rest of the form is unfolded
      · have hm := (ih m (by omega) ha).1.trans (Nat.mul_le_mul_right _ hw)
        have hr : (t.doneWithin c m).card < (t.doneWithin c (m + k + 1)).card :=
          card_doneWithin_lt (.entry he (by rwa [List.append_nil])) (by omega)
        have hs := succ_le_pow hm hr
        have hk : (t.doneWithin c k).card ≤ (t.doneWithin c (m + k + 1)).card :=
          Finset.card_le_card (doneWithin_mono (by omega))
        obtain ⟨hn, hl⟩ := ih k (by omega) hb
        have hp : (t.width + 1) ^ (t.doneWithin c k).card ≤
            (t.width + 1) ^ (t.doneWithin c (m + k + 1)).card :=
          Nat.pow_le_pow_right (Nat.succ_pos _) hk
        have hq := Nat.mul_le_mul_right t.width hk
        have hf := Nat.mul_le_mul_left form.length hp
        rw [List.length_cons, Nat.succ_mul]
        omega
      -- the name has become what is at the front now, and the rest of the form is untouched
      · obtain ⟨hn, hl⟩ := ih n (by omega) ha
        have hr : (t.doneWithin c n).card < (t.doneWithin c (n + 1)).card :=
          card_doneWithin_lt (.entry he (by rwa [List.append_nil])) (by omega)
        have hs := succ_le_pow (hn.trans (Nat.mul_le_mul_right _ hw)) hr
        have hq := Nat.mul_le_mul_right t.width hr
        rw [Nat.succ_mul] at hq
        rw [List.length_cons, Nat.succ_mul, List.length_append]
        omega

theorem Unfolds.le (h : t.Unfolds c n form next) :
    n ≤ form.length * (t.width + 1) ^ t.rows.length ∧
      next.length ≤ form.length + t.rows.length * t.width := by
  obtain ⟨hn, hl⟩ := h.le_card
  have hr := t.card_doneWithin_le c n
  constructor
  · exact hn.trans (Nat.mul_le_mul_left _ (Nat.pow_le_pow_right (Nat.succ_pos _) hr))
  · exact hl.trans (Nat.add_le_add_left (Nat.mul_le_mul_right _ hr) _)

end Table

theorem Unmarked.unfolds {g : Grammar} {t : Table} {c : Char} {n : Nat} {form next : Form}
    {ahead : List Char} (ht : t.Backed g) (h : t.Unfolds c n form next) (hm : Unmarked form ahead) :
    Unmarked next ahead := by
  induction h with
  | rest _ => exact hm
  | entry he _ ih => exact ih (hm.choice (ht.mem_rules_of_entry he))

namespace Analysis

variable {p : Parser} {g : Grammar} {a : Analysis} {form next : Form} {ahead : List Char} {n : Nat}

theorem iterate_of_unfolds (h : p.table.Unfolds (ahead.headD endMarker) n form next)
    (hs : a.Settled) (hc : a.configuration = .reading form ahead) :
    ((step p)^[n] a).Settled ∧ ((step p)^[n] a).configuration = .reading next ahead := by
  induction h generalizing a with
  | rest _ => exact ⟨hs, hc⟩
  | entry he _ ih =>
    rw [Function.iterate_succ_apply, step_choice (hs.status_running hc (by simp)) hc he]
    exact ih (settled_settle rfl) (configuration_choice hc _)

theorem exists_unfolds_of_isFinished (hs : a.Settled) (hc : a.configuration = .reading form ahead)
    (h : ((step p)^[n] a).isFinished = true) :
    ∃ m next, p.table.Unfolds (ahead.headD endMarker) m form next := by
  induction n generalizing a form with
  | zero =>
    by_cases ho : form = [] ∧ ahead = []
    · exact ⟨0, form, .rest (ho.1 ▸ Table.rests_nil _ _)⟩
    · rw [Function.iterate_zero_apply, isFinished, hs.status_running hc ho] at h
      contradiction
  | succ n ih =>
    by_cases hr : p.table.Rests (ahead.headD endMarker) form
    · exact ⟨0, form, .rest hr⟩
    · obtain ⟨name, rest, q, rfl, he⟩ := Table.not_rests_iff.1 hr
      rw [Function.iterate_succ_apply, step_choice (hs.status_running hc (by simp)) hc he] at h
      obtain ⟨m, next, hu⟩ := ih (settled_settle rfl) (configuration_choice hc q) h
      exact ⟨m + 1, next, .entry he hu⟩

def Unfolding (p : Parser) (a : Analysis) : Prop :=
  ∀ m form ahead, ((step p)^[m] a).Settled →
    ((step p)^[m] a).configuration = .reading form ahead →
    ∃ n next, p.table.Unfolds (ahead.headD endMarker) n form next

theorem Unfolding.iterate (h : Unfolding p a) (k : Nat) : Unfolding p ((step p)^[k] a) := by
  intro m form ahead hs hc
  rw [← Function.iterate_add_apply] at hs hc
  exact h (m + k) form ahead hs hc

theorem isFinished_or_letter (ht : p.table.Backed g)
    (h : p.table.Unfolds (ahead.headD endMarker) n form next) (hs : a.Settled)
    (hc : a.configuration = .reading form ahead) (hm : Unmarked form ahead) :
    ((step p)^[n + 1] a).isFinished = true ∨
      ∃ c rest word, next = .terminal c :: rest ∧ ahead = c :: word ∧
        ((step p)^[n + 1] a).Settled ∧ ((step p)^[n + 1] a).configuration = .reading rest word := by
  obtain ⟨hs, hc⟩ := iterate_of_unfolds h hs hc
  rw [Function.iterate_succ_apply']
  by_cases ho : next = [] ∧ ahead = []
  · obtain ⟨rfl, rfl⟩ := ho
    left
    have hf : ((step p)^[n] a).isFinished = true := by
      rw [isFinished, hs.status_accepted hc]
      rfl
    rw [step_of_isFinished p hf, hf]
  · obtain ⟨c, rest, word, rfl, rfl, he⟩ | ⟨name, rest, q, rfl, hq, _⟩ | ⟨c, _, _, he⟩ |
      ⟨name, rest, _, _, he⟩ := step_cases (hs.status_running hc ho) hc ho (hm.unfolds ht h) p
    · right
      rw [he]
      exact ⟨c, rest, word, rfl, rfl, settled_settle rfl, configuration_letter hc⟩
    · rw [Table.rests_nonterminal_iff.1 h.rests] at hq
      contradiction
    · left
      rw [he]
      rfl
    · left
      rw [he]
      rfl

def budget (p : Parser) (height ahead : Nat) : Nat :=
  (ahead + 1) * ((height + ahead * (p.table.rows.length * p.table.width)) *
    (p.table.width + 1) ^ p.table.rows.length + 1)

theorem limit_eq_budget (p : Parser) (a : Analysis) :
    a.limit p = budget p a.configuration.stack.length a.configuration.input.length := rfl

variable {height height' k k' : Nat}

theorem budget_mono (p : Parser) (hh : height ≤ height') (hk : k ≤ k') :
    budget p height k ≤ budget p height' k' := by
  apply Nat.mul_le_mul (Nat.succ_le_succ hk)
  apply Nat.succ_le_succ
  apply Nat.mul_le_mul_right
  exact Nat.add_le_add hh (Nat.mul_le_mul_right _ hk)

theorem succ_le_budget
    (hn : n ≤ height * (p.table.width + 1) ^ p.table.rows.length) : n + 1 ≤ budget p height k := by
  calc n + 1 ≤ budget p height 0 := by simpa [budget] using hn
    _ ≤ budget p height k := budget_mono p le_rfl (Nat.zero_le k)

theorem add_budget_le (hn : n ≤ height * (p.table.width + 1) ^ p.table.rows.length)
    (hh : height' ≤ height + p.table.rows.length * p.table.width) :
    n + 1 + budget p height' k ≤ budget p height (k + 1) := by
  unfold budget
  generalize p.table.rows.length * p.table.width = growth at hh ⊢
  generalize (p.table.width + 1) ^ p.table.rows.length = cost at hn ⊢
  have hg : (k + 1) * growth = k * growth + growth := Nat.succ_mul k growth
  have h₁ : n ≤ (height + (k + 1) * growth) * cost :=
    hn.trans (Nat.mul_le_mul_right cost (Nat.le_add_right _ _))
  have h₂ : (height' + k * growth) * cost ≤ (height + (k + 1) * growth) * cost :=
    Nat.mul_le_mul_right cost (by omega)
  have h₃ : (k + 1) * ((height' + k * growth) * cost + 1) ≤
      (k + 1) * ((height + (k + 1) * growth) * cost + 1) :=
    Nat.mul_le_mul_left (k + 1) (Nat.succ_le_succ h₂)
  rw [Nat.succ_mul (k + 1)]
  omega

/-- Between two letters come no more steps than it takes to unfold the stack, which has
grown by a bounded number of symbols for each letter before. -/
theorem Unfolding.exists_isFinished (ht : p.table.Backed g) (h : Unfolding p a) (hs : a.Settled)
    (hc : a.configuration = .reading form ahead) (hm : Unmarked form ahead) :
    ∃ n ≤ budget p form.length ahead.length, ((step p)^[n] a).isFinished = true := by
  induction ahead generalizing a form with
  | nil =>
    obtain ⟨n, next, hu⟩ := h 0 form [] hs hc
    obtain hf | ⟨c, rest, word, _, hw, _⟩ := isFinished_or_letter ht hu hs hc hm
    · exact ⟨n + 1, succ_le_budget hu.le.1, hf⟩
    · contradiction
  | cons d word ih =>
    obtain ⟨n, next, hu⟩ := h 0 form (d :: word) hs hc
    obtain hf | ⟨c, rest, word, rfl, hw, hs', hc'⟩ := isFinished_or_letter ht hu hs hc hm
    · exact ⟨n + 1, succ_le_budget hu.le.1, hf⟩
    · cases hw
      obtain ⟨m, hl, hf⟩ := ih (h.iterate (n + 1)) hs' hc' (hm.unfolds ht hu).letter
      refine ⟨n + 1 + m, ?_, ?_⟩
      · have hg : rest.length ≤ form.length + p.table.rows.length * p.table.width :=
          (Nat.le_succ _).trans hu.le.2
        exact (Nat.add_le_add_left hl _).trans (add_budget_le hu.le.1 hg)
      · rw [Nat.add_comm, Function.iterate_add_apply]
        exact hf

theorem Unfolding.isFinished_run (ht : p.table.Backed g) (h : Unfolding p a) (hs : a.Settled)
    (hc : a.configuration = .reading form ahead) (hm : Unmarked form ahead) :
    (a.run p).isFinished = true := by
  obtain ⟨n, hn, hf⟩ := h.exists_isFinished ht hs hc hm
  have hl : n ≤ a.limit p := by
    rw [limit_eq_budget, hc]
    apply hn.trans
    apply budget_mono p
    · simp [Configuration.reading]
    · simp [Configuration.reading]
  rw [run_of_iterate hf hl]
  exact hf

/-- The limit cuts no run short: if any number of steps ends it, then so does a run. -/
theorem Aligned.isFinished_run_iff {read : List Char} (ht : p.table.Backed g)
    (h : a.Aligned read ahead form) :
    (a.run p).isFinished = true ↔ ∃ n, ((Analysis.step p)^[n] a).isFinished = true := by
  constructor
  · intro hf
    rw [run_eq_iterate] at hf
    exact ⟨_, hf⟩
  · rintro ⟨n, hf⟩
    by_cases hr : a.status = .running
    · have hs : a.Settled := by
        rw [Settled, hr, h.configuration, if_neg]
        rw [Configuration.isFinal_reading]
        exact h.not_done hr
      refine Unfolding.isFinished_run ht (fun m form' ahead' hs' hc' => ?_) hs h.configuration
        h.unmarked
      apply exists_unfolds_of_isFinished (n := n) hs' hc'
      rw [← Function.iterate_add_apply, Nat.add_comm, Function.iterate_add_apply,
        iterate_of_isFinished hf, hf]
    · have hf := isFinished_of_ne_running hr
      rw [run_eq_iterate, iterate_of_isFinished hf, hf]

theorem Aligned.run_eq_iterate {read : List Char} (ht : p.table.Backed g)
    (h : a.Aligned read ahead form) (hf : ((Analysis.step p)^[n] a).isFinished = true) :
    a.run p = (Analysis.step p)^[n] a := by
  have hr := (h.isFinished_run_iff ht).2 ⟨n, hf⟩
  rw [Analysis.run_eq_iterate] at hr ⊢
  exact iterate_eq_of_isFinished hr hf

end Analysis

end Predictive
