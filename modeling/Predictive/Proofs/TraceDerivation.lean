import Predictive.Proofs.MachineSteps
import Predictive.Proofs.CompleteDerivation
import Predictive.Proofs.TableEntries

/-! The derivation in a trace. The productions that an analysis has applied, read as choices,
are a leftmost derivation of what it has consumed followed by what is on its stack. The
form of that derivation is rebuilt from scratch, so nothing of the stack enters it. -/
namespace Predictive.Analysis

/-- The applied productions as choices of a derivation. -/
def derivation (g : Grammar) (a : Analysis) : Derivation :=
  ⟨a.applied.map g.choiceOf⟩

/-- The trace derives the text `read` and the form `pending`, where the machine has the
latter on its stack and the text `ahead` in front. -/
structure Tracks (g : Grammar) (read ahead : List Char) (pending : Form) (a : Analysis) : Prop where
  configuration : a.configuration = .reading pending ahead
  form : (a.derivation g).form g = .ok (Form.ofWord read ++ pending)
  unmarked : Unmarked pending ahead
  isAccepted_iff : a.status.isAccepted = true ↔ pending = [] ∧ ahead = []

variable {g : Grammar} {t : Table} {read ahead word : List Char} {pending form : Form}
  {a e : Analysis}

theorem tracks_ofWord (g : Grammar) (hw : endMarker ∉ word) :
    (ofWord g.start word).Tracks g [] word g.startForm where
  configuration := rfl
  form := rfl
  unmarked := ⟨by simp [Grammar.startForm], hw⟩
  isAccepted_iff := by simp [ofWord, Status.isAccepted, Grammar.startForm]

theorem derivation_snoc (g : Grammar) {q : Production} (h : e.applied = a.applied ++ [q]) :
    e.derivation g = (a.derivation g).push (g.choiceOf q) := by
  rw [derivation, h, List.map_append]
  rfl

theorem form_derivation_applied {q : Production} (hq : q ∈ g.rules)
    (hf : (a.derivation g).form g = .ok (Form.ofWord read ++ .nonterminal q.lhs :: form))
    (he : e.applied = a.applied ++ [q]) :
    (e.derivation g).form g = .ok (Form.ofWord read ++ (q.rhs ++ form)) := by
  have hc := Grammar.chooseAll_snoc (c := g.choiceOf q) hf
    (by rw [Form.current?_ofWord_append]; rfl) (Grammar.chosen_choiceOf hq)
  rw [Form.expand_ofWord_append, Form.expand_nonterminal] at hc
  rw [derivation_snoc g he]
  exact hc

theorem Tracks.refused (h : a.Tracks g read ahead pending) (hr : a.status = .running)
    (hc : e.configuration = a.configuration) (hp : e.applied = a.applied)
    (hs : e.status.isAccepted = false) : e.Tracks g read ahead pending where
  configuration := hc.trans h.configuration
  form := by
    rw [derivation, hp]
    exact h.form
  unmarked := h.unmarked
  isAccepted_iff := by
    have ha := h.isAccepted_iff
    rw [hr] at ha
    rw [hs, ← ha]
    rfl

theorem Tracks.matched {c : Char} (h : a.Tracks g read (c :: ahead) (.terminal c :: form)) :
    (a.perform (.matched c)).settle.Tracks g (read ++ [c]) ahead form where
  configuration := configuration_letter h.configuration
  form := by
    have hp : (a.perform (.matched c)).settle.applied = a.applied := by simp [Action.production?]
    rw [derivation, hp, Form.ofWord_append, List.append_assoc]
    exact h.form
  unmarked := h.unmarked.letter
  isAccepted_iff := isAccepted_settle_iff rfl (configuration_letter h.configuration)

theorem Tracks.applied {q : Production} (hq : q ∈ g.rules)
    (h : a.Tracks g read ahead (.nonterminal q.lhs :: form)) :
    (a.perform (.applied q)).settle.Tracks g read ahead (q.rhs ++ form) where
  configuration := configuration_choice h.configuration q
  form := form_derivation_applied hq h.form (by simp [Action.production?])
  unmarked := h.unmarked.choice hq
  isAccepted_iff := isAccepted_settle_iff rfl (configuration_choice h.configuration q)

theorem Tracks.step_cases (ht : t.Backed g) (h : a.Tracks g read ahead pending)
    (hr : a.status = .running) :
    (∃ c word form, ahead = c :: word ∧ pending = .terminal c :: form ∧
      a.step ⟨g, t⟩ = (a.perform (.matched c)).settle ∧
      (a.step ⟨g, t⟩).Tracks g (read ++ [c]) word form) ∨
    (∃ form q, pending = .nonterminal q.lhs :: form ∧
      t.entry q.lhs (ahead.headD endMarker) = some q ∧
      a.step ⟨g, t⟩ = (a.perform (.applied q)).settle ∧
      (a.step ⟨g, t⟩).Tracks g read ahead (q.rhs ++ form)) ∨
    (∃ c, pending.headD (.terminal endMarker) = .terminal c ∧ c ≠ ahead.headD endMarker ∧
      a.step ⟨g, t⟩ = a.perform (.mismatch c (ahead.headD endMarker)) ∧
      (a.step ⟨g, t⟩).Tracks g read ahead pending) ∨
    (∃ name form, pending = .nonterminal name :: form ∧
      t.entry name (ahead.headD endMarker) = none ∧
      a.step ⟨g, t⟩ = a.perform (.noEntry name (ahead.headD endMarker)) ∧
      (a.step ⟨g, t⟩).Tracks g read ahead pending) := by
  have ho : ¬(pending = [] ∧ ahead = []) := fun ho => by
    have ha := h.isAccepted_iff.2 ho
    rw [hr] at ha
    contradiction
  obtain ⟨c, form, word, rfl, rfl, hs⟩ | ⟨name, form, q, rfl, he, hs⟩ | ⟨c, hc, hd, hs⟩ |
    ⟨name, form, rfl, he, hs⟩ := Analysis.step_cases hr h.configuration ho h.unmarked ⟨g, t⟩
  · exact .inl ⟨c, word, form, rfl, rfl, hs, hs ▸ h.matched⟩
  · have hl := Table.lhs_of_entry he
    subst hl
    exact .inr (.inl ⟨form, q, rfl, he, hs, hs ▸ h.applied (ht.mem_rules_of_entry he)⟩)
  · have hf := h.refused (e := a.perform (.mismatch c (ahead.headD endMarker))) hr rfl
      (by simp [Action.production?]) rfl
    exact .inr (.inr (.inl ⟨c, hc, hd, hs, hs ▸ hf⟩))
  · have hf := h.refused (e := a.perform (.noEntry name (ahead.headD endMarker))) hr rfl
      (by simp [Action.production?]) rfl
    exact .inr (.inr (.inr ⟨name, form, rfl, he, hs, hs ▸ hf⟩))

theorem Tracks.step (ht : t.Backed g) (h : a.Tracks g read ahead pending) :
    ∃ read' ahead' pending', read' ++ ahead' = read ++ ahead ∧
      (a.step ⟨g, t⟩).Tracks g read' ahead' pending' := by
  by_cases hr : a.status = .running
  · obtain ⟨c, word, form, rfl, rfl, _, hs⟩ | ⟨form, q, rfl, _, _, hs⟩ | ⟨c, _, _, _, hs⟩ |
      ⟨name, form, _, _, _, hs⟩ := h.step_cases ht hr
    · exact ⟨read ++ [c], word, form, by simp, hs⟩
    · exact ⟨read, ahead, q.rhs ++ form, rfl, hs⟩
    · exact ⟨read, ahead, pending, rfl, hs⟩
    · exact ⟨read, ahead, pending, rfl, hs⟩
  · refine ⟨read, ahead, pending, rfl, ?_⟩
    rwa [step_of_isFinished _ (isFinished_of_ne_running hr)]

theorem tracks_iterate (ht : t.Backed g) (hw : endMarker ∉ word) (n : Nat) :
    ∃ read ahead pending, read ++ ahead = word ∧
      ((Analysis.step ⟨g, t⟩)^[n] (ofWord g.start word)).Tracks g read ahead pending := by
  induction n with
  | zero => exact ⟨[], word, g.startForm, rfl, tracks_ofWord g hw⟩
  | succ n ih =>
    obtain ⟨read, ahead, pending, rfl, h⟩ := ih
    rw [Function.iterate_succ_apply']
    exact h.step ht

/-- After any number of steps, also in a rejection, the trace derives the consumed part of
the sentence followed by the stack; once the sentence is accepted, it derives just that. -/
theorem form_derivation_iterate {cells : List Cell} {input : String}
    (ht : Table.ofCells g cells = .ok t) (hw : Parser.check ⟨g, t⟩ input = .ok word) :
    trim input.toList = word ∧ ∃ a, start ⟨g, t⟩ input = .ok a ∧ ∀ n,
      let e := (Analysis.step ⟨g, t⟩)^[n] a
      ∃ read ahead pending, read ++ ahead = word ∧
        e.configuration = ⟨pending ++ [.terminal endMarker], ahead ++ [endMarker]⟩ ∧
        (e.derivation g).form g = .ok (Form.ofWord read ++ pending) ∧
        (e.status.isAccepted = true → (e.derivation g).form g = .ok (Form.ofWord word)) := by
  refine ⟨(Parser.check_eq_ok_iff.1 hw).1, ofWord g.start word, ?_, fun n => ?_⟩
  · rw [start, hw]
    rfl
  · obtain ⟨read, ahead, pending, rfl, h⟩ :=
      tracks_iterate (Table.backed_ofCells ht) (Parser.endMarker_notMem_of_check hw) n
    refine ⟨read, ahead, pending, rfl, h.configuration, h.form, fun ha => ?_⟩
    obtain ⟨rfl, rfl⟩ := h.isAccepted_iff.1 ha
    rw [h.form, List.append_nil, List.append_nil]

theorem form_derivation_iterate_aab :
    Table.ofCells Grammar.standard Table.standardCells = .ok Table.standardRows ∧
      Parser.standard.check " aab" = .ok ['a', 'a', 'b'] ∧
      ∃ a, start .standard " aab" = .ok a ∧ ∀ n,
        let e := (Analysis.step .standard)^[n] a
        ∃ read ahead pending, read ++ ahead = ['a', 'a', 'b'] ∧
          e.configuration = ⟨pending ++ [.terminal endMarker], ahead ++ [endMarker]⟩ ∧
          (e.derivation .standard).form .standard = .ok (Form.ofWord read ++ pending) ∧
          (e.status.isAccepted = true →
            (e.derivation .standard).form .standard = .ok (Form.ofWord ['a', 'a', 'b'])) :=
  ⟨rfl, rfl, (form_derivation_iterate Table.standard_standard rfl).2⟩

end Predictive.Analysis
