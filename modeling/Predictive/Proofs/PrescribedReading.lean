import Predictive.Proofs.MachineSteps
import Predictive.Proofs.TableEntries

/-! Readings of a word as a table prescribes them. `Reads` is the machine without its states
and its trace: a list of productions that reads a form off a word. There is at most
one, and the machine accepts exactly the words that have it. -/
namespace Predictive

namespace Table

/-- The productions with which a table reads a form off a word. -/
inductive Reads (t : Table) : List Production → Form → List Char → Prop
  | done : Reads t [] [] []
  | letter (c : Char) : Reads t ps form word → Reads t ps (.terminal c :: form) (c :: word)
  | entry {name : String} {p : Production} : t.entry name (word.headD endMarker) = some p →
      Reads t ps (p.rhs ++ form) word → Reads t (p :: ps) (.nonterminal name :: form) word

variable {t : Table} {ps qs : List Production} {form : Form} {word : List Char}

theorem reads_letter_iff {c : Char} :
    t.Reads ps (.terminal c :: form) (c :: word) ↔ t.Reads ps form word := by
  refine ⟨fun h => ?_, .letter c⟩
  cases h with
  | letter _ h => exact h

theorem reads_entry_iff {name : String} {p : Production} :
    t.Reads (p :: ps) (.nonterminal name :: form) word ↔
      t.entry name (word.headD endMarker) = some p ∧ t.Reads ps (p.rhs ++ form) word := by
  refine ⟨fun h => ?_, fun h => .entry h.1 h.2⟩
  cases h with
  | entry he h => exact ⟨he, h⟩

theorem Reads.unique (h : t.Reads ps form word) (h' : t.Reads qs form word) : ps = qs := by
  induction h generalizing qs with
  | done =>
    cases h'
    rfl
  | letter c _ ih =>
    cases h' with
    | letter _ h' => exact ih h'
  | entry he _ ih =>
    cases h' with
    | entry he' h' =>
      cases he.symm.trans he'
      exact congrArg _ (ih h')

end Table

namespace Analysis

def Settled (a : Analysis) : Prop :=
  a.status = if a.configuration.isFinal then .accepted a.steps else .running

theorem settled_settle {a : Analysis} (h : a.status = .running) : a.settle.Settled := by
  rw [Settled, configuration_settle, steps_settle]
  exact status_settle_of_running h

theorem settled_ofWord (start : String) (word : List Char) : (ofWord start word).Settled := by
  simp [Settled, ofWord, Configuration.initial_eq_reading]

variable {p : Parser} {a : Analysis} {ps : List Production} {form : Form} {word : List Char}

theorem Settled.status_running (h : a.Settled) (hc : a.configuration = .reading form word)
    (ho : ¬(form = [] ∧ word = [])) : a.status = .running := by
  rw [h, hc, if_neg]
  rwa [Configuration.isFinal_reading]

theorem Settled.status_accepted (h : a.Settled) (hc : a.configuration = .reading [] []) :
    a.status = .accepted a.steps := by
  rw [h, hc]
  rfl

/-- After `n` more steps the analysis is accepted and has applied `ps` besides. -/
structure AcceptsIn (p : Parser) (n : Nat) (ps : List Production) (a : Analysis) : Prop where
  status : ((step p)^[n] a).status = .accepted (a.steps + n)
  applied : ((step p)^[n] a).applied = a.applied ++ ps

theorem AcceptsIn.of_step {n : Nat} {action : Action} (hs : a.step p = (a.perform action).settle)
    (h : AcceptsIn p n ps (a.perform action).settle) :
    AcceptsIn p (n + 1) (action.production?.toList ++ ps) a where
  status := by
    rw [Function.iterate_succ_apply, hs, h.status, steps_settle, steps_perform]
    congr 1
    omega
  applied := by
    rw [Function.iterate_succ_apply, hs, h.applied, applied_settle, applied_perform,
      List.append_assoc]

theorem acceptsIn_of_reads (h : p.table.Reads ps form word) (hs : a.Settled)
    (hc : a.configuration = .reading form word) : a.AcceptsIn p (word.length + ps.length) ps := by
  induction h generalizing a with
  | done => exact ⟨hs.status_accepted hc, (List.append_nil _).symm⟩
  | @letter ps form word c _ ih =>
    have hr := hs.status_running hc (by simp)
    rw [List.length_cons, Nat.add_right_comm]
    apply AcceptsIn.of_step (step_letter hr hc)
    exact ih (settled_settle rfl) (configuration_letter hc)
  | @entry ps form word name q he _ ih =>
    have hr := hs.status_running hc (by simp)
    rw [List.length_cons, ← Nat.add_assoc]
    apply AcceptsIn.of_step (step_choice hr hc he)
    exact ih (settled_settle rfl) (configuration_choice hc q)

theorem not_isAccepted_iterate {n : Nat} {e : Analysis} (hs : a.step p = e)
    (he : e.isFinished = true) (hn : e.status.isAccepted = false) :
    ((step p)^[n + 1] a).status.isAccepted = false := by
  rw [Function.iterate_succ_apply, hs, iterate_of_isFinished he, hn]

theorem reads_of_isAccepted {g : Grammar} {t : Table} (ht : t.Backed g) {n : Nat}
    (ha : ((step ⟨g, t⟩)^[n] a).status.isAccepted = true) (hs : a.Settled)
    (hc : a.configuration = .reading form word) (hm : Unmarked form word) :
    ∃ ps, t.Reads ps form word := by
  induction n generalizing a form word with
  | zero =>
    have ho : form = [] ∧ word = [] := by
      by_contra ho
      rw [Function.iterate_zero_apply, hs.status_running hc ho] at ha
      contradiction
    obtain ⟨rfl, rfl⟩ := ho
    exact ⟨[], .done⟩
  | succ n ih =>
    by_cases ho : form = [] ∧ word = []
    · obtain ⟨rfl, rfl⟩ := ho
      exact ⟨[], .done⟩
    · have hr := hs.status_running hc ho
      obtain ⟨c, form, word, rfl, rfl, he⟩ | ⟨name, form, q, rfl, hq, he⟩ | ⟨c, _, _, he⟩ |
        ⟨name, _, _, _, he⟩ := step_cases hr hc ho hm ⟨g, t⟩
      · rw [Function.iterate_succ_apply, he] at ha
        obtain ⟨ps, h⟩ := ih ha (settled_settle rfl) (configuration_letter hc) hm.letter
        exact ⟨ps, .letter c h⟩
      · rw [Function.iterate_succ_apply, he] at ha
        obtain ⟨ps, h⟩ := ih ha (settled_settle rfl) (configuration_choice hc q)
          (hm.choice (ht.mem_rules_of_entry hq))
        exact ⟨q :: ps, .entry hq h⟩
      · rw [not_isAccepted_iterate he rfl rfl] at ha
        contradiction
      · rw [not_isAccepted_iterate he rfl rfl] at ha
        contradiction

section

variable {g : Grammar} {t : Table}

theorem status_iterate_ofWord (h : t.Reads ps g.startForm word) :
    ((step ⟨g, t⟩)^[word.length + ps.length] (ofWord g.start word)).status =
      .accepted (word.length + ps.length) := by
  have ha := acceptsIn_of_reads (p := ⟨g, t⟩) h (settled_ofWord g.start word) rfl
  exact ha.status.trans (congrArg Status.accepted (Nat.zero_add _))

theorem applied_iterate_ofWord (h : t.Reads ps g.startForm word) :
    ((step ⟨g, t⟩)^[word.length + ps.length] (ofWord g.start word)).applied = ps :=
  (acceptsIn_of_reads (p := ⟨g, t⟩) h (settled_ofWord g.start word) rfl).applied

theorem reads_of_isAccepted_ofWord (ht : t.Backed g) (hw : endMarker ∉ word) {n : Nat}
    (ha : ((step ⟨g, t⟩)^[n] (ofWord g.start word)).status.isAccepted = true) :
    ∃ ps, t.Reads ps g.startForm word :=
  reads_of_isAccepted ht ha (settled_ofWord g.start word) rfl ⟨by simp [Grammar.startForm], hw⟩

end

end Analysis

end Predictive
