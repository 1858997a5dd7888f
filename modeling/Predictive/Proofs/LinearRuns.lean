import Predictive.Proofs.EndMarkers
import Predictive.Proofs.StandardLanguage

/-! Runs of linear length. Where an entry that is not for ε begins with its own lookahead, the
step after it reads that letter; and where no entry has two names, there is never more than one
name on the stack, so that only one entry for ε is applied. This leaves two steps for each
letter, one for ε and one for a refusal. -/
namespace Predictive

/-- Every entry is for ε or begins with its own lookahead, and none has two names. -/
structure Table.Direct (t : Table) : Prop where
  head? : ∀ e ∈ t.entries, e.2.rhs = [] ∨ e.2.rhs.head? = some (.terminal e.1)
  names : ∀ e ∈ t.entries, e.2.rhs.names.length ≤ 1

theorem Table.direct_standardRows : standardRows.Direct where
  head? := by decide
  names := by decide

namespace Configuration

def nameCount (c : Configuration) : Nat :=
  (Form.names c.stack).length

@[simp] theorem nameCount_reading (pending : Form) (ahead : List Char) :
    (reading pending ahead).nameCount = pending.names.length := by
  rw [nameCount, reading, Form.names_append, List.length_append]
  rfl

end Configuration

namespace Analysis

variable {p : Parser} {g : Grammar} {a : Analysis} {read ahead word : List Char}
  {pending form : Form} {name input : String} {r : Record} {action : Action} {q : Production}
  {n : Nat}

theorem mem_history_settle (h : r ∈ a.settle.history) :
    r ∈ a.history ∨ r.configuration = a.configuration := by
  unfold settle at h
  split at h
  next =>
    rw [record_history] at h
    rcases List.mem_cons.1 h with rfl | h
    · exact .inr rfl
    · exact .inl h
  next => exact .inl h

theorem mem_history_perform (h : r ∈ (a.perform action).history) :
    r ∈ a.history ∨ r.configuration = a.configuration.after action := by
  rw [perform, record_history] at h
  rcases List.mem_cons.1 h with rfl | h
  · exact .inr rfl
  · exact .inl h

def Due (pending : Form) (ahead : List Char) : Prop :=
  ∃ c form word, pending = .terminal c :: form ∧ ahead = c :: word

theorem not_due_nonterminal (name : String) (form : Form) (ahead : List Char) :
    ¬Due (.nonterminal name :: form) ahead := by
  rintro ⟨c, form, word, h, _⟩
  cases h

theorem not_due_of_ne {c : Char} (h : pending.headD (.terminal endMarker) = .terminal c)
    (hc : c ≠ ahead.headD endMarker) : ¬Due pending ahead := by
  rintro ⟨d, form, word, rfl, rfl⟩
  cases h
  exact hc rfl

/-- There is one name on the stack at most, and never were more. Two steps are made for each
letter and one for ε, for which a name on the stack stands as long as it is there; the entry for
a letter is applied in advance. A refusal may be one step more. -/
structure Paced (read ahead : List Char) (pending : Form) (a : Analysis) : Prop where
  seen : ∀ r ∈ a.history, r.configuration.nameCount ≤ 1
  single : pending.names.length ≤ 1
  steps_le : a.steps ≤ 2 * read.length + 2
  steps_add_le : a.status.rejection? = none →
    a.steps + pending.names.length ≤ 2 * read.length + 1 ∨
      Due pending ahead ∧ a.steps + pending.names.length ≤ 2 * read.length + 2

namespace Paced

theorem of_not_due (h : a.Paced read ahead pending) (hr : a.status = .running)
    (hd : ¬Due pending ahead) : a.steps + pending.names.length ≤ 2 * read.length + 1 :=
  (h.steps_add_le (by rw [hr]; rfl)).resolve_right fun hc => hd hc.1

theorem seen_perform (h : a.Paced read ahead pending)
    (hc : (a.configuration.after action).nameCount ≤ 1) :
    ∀ r ∈ (a.perform action).history, r.configuration.nameCount ≤ 1 := by
  intro r hr
  rcases mem_history_perform hr with hr | hr
  · exact h.seen r hr
  · rwa [hr]

theorem seen_settle (h : ∀ r ∈ a.history, r.configuration.nameCount ≤ 1)
    (hc : a.configuration.nameCount ≤ 1) :
    ∀ r ∈ a.settle.history, r.configuration.nameCount ≤ 1 := by
  intro r hr
  rcases mem_history_settle hr with hr | hr
  · exact h r hr
  · rwa [hr]

theorem matched {c : Char} (ha : a.Aligned read (c :: ahead) (.terminal c :: form))
    (hr : a.status = .running) (h : a.Paced read (c :: ahead) (.terminal c :: form)) :
    (a.perform (.matched c)).settle.Paced (read ++ [c]) ahead form := by
  have hc : (a.configuration.after (.matched c)).nameCount ≤ 1 := by
    rw [ha.configuration, Configuration.after_matched, Configuration.nameCount_reading]
    exact h.single
  have hs : a.steps + form.names.length ≤ 2 * read.length + 2 := by
    rcases h.steps_add_le (by rw [hr]; rfl) with hs | ⟨_, hs⟩
    · exact Nat.le_succ_of_le hs
    · exact hs
  refine ⟨seen_settle (h.seen_perform hc) hc, h.single, ?_, fun _ => .inl ?_⟩
  · rw [steps_settle, steps_perform, List.length_append, List.length_singleton]
    omega
  · rw [steps_settle, steps_perform, List.length_append, List.length_singleton]
    omega

theorem applied (hd : p.table.Direct) (hq : q ∈ g.rules)
    (he : p.table.entry name (ahead.headD endMarker) = some q)
    (ha : a.Aligned read ahead (.nonterminal name :: form)) (hr : a.status = .running)
    (h : a.Paced read ahead (.nonterminal name :: form)) :
    (a.perform (.applied q)).settle.Paced read ahead (q.rhs ++ form) := by
  have hm := (Table.mem_of_entry he).2
  have hf : form.names = [] := by
    have hl := h.single
    rw [Form.names_nonterminal, List.length_cons] at hl
    exact List.length_eq_zero_iff.1 (by omega)
  have hn : (q.rhs ++ form).names.length ≤ 1 := by
    rw [Form.names_append, hf, List.append_nil]
    exact hd.names _ hm
  have hs := h.of_not_due hr (not_due_nonterminal name form ahead)
  rw [Form.names_nonterminal, hf, List.length_singleton] at hs
  have hc : (a.configuration.after (.applied q)).nameCount ≤ 1 := by
    rwa [ha.configuration, Configuration.after_applied, Configuration.nameCount_reading]
  refine ⟨seen_settle (h.seen_perform hc) hc, hn, ?_, fun _ => ?_⟩
  · rw [steps_settle, steps_perform]
    omega
  · rw [steps_settle, steps_perform]
    rcases hd.head? _ hm with hv | hv
    · left
      rw [hv, List.nil_append, hf]
      exact hs
    · right
      obtain ⟨rest, hq'⟩ := List.head?_eq_some_iff.1 hv
      refine ⟨?_, by omega⟩
      cases ahead with
      | nil =>
        have hl : .terminal endMarker ∈ q.rhs := by
          rw [hq']
          exact List.mem_cons_self
        exact absurd rfl (Grammar.terminal_mem_rhs hq hl).1
      | cons d word => exact ⟨d, rest ++ form, word, by rw [hq']; rfl, rfl⟩

theorem refused (h : a.Paced read ahead pending) (hr : a.status = .running)
    (ha : a.Aligned read ahead pending) (hd : ¬Due pending ahead)
    (hc : a.configuration.after action = a.configuration)
    (hs : (Status.ofAction action).rejection?.isSome = true) :
    (a.perform action).Paced read ahead pending := by
  have hl := h.of_not_due hr hd
  refine ⟨h.seen_perform ?_, h.single, ?_, fun hn => ?_⟩
  · rw [hc, ha.configuration, Configuration.nameCount_reading]
    exact h.single
  · rw [steps_perform]
    omega
  · rw [status_perform] at hn
    rw [hn] at hs
    contradiction

end Paced

theorem Aligned.paced_step (ht : p.table.Backed g) (hd : p.table.Direct)
    (ha : a.Aligned read ahead pending) (h : a.Paced read ahead pending) :
    ∃ read' ahead' pending', read' ++ ahead' = read ++ ahead ∧
      (a.step p).Aligned read' ahead' pending' ∧ (a.step p).Paced read' ahead' pending' := by
  by_cases hr : a.status = .running
  · obtain ⟨c, form, word, rfl, rfl, hs⟩ | ⟨name, form, q, rfl, he, hs⟩ | ⟨c, hp, hne, hs⟩ |
      ⟨name, form, rfl, _, hs⟩ := step_cases hr ha.configuration (ha.not_done hr) ha.unmarked p
    all_goals rw [hs]
    · exact ⟨read ++ [c], word, form, by simp, ha.matched, h.matched ha hr⟩
    · have hq := ht.mem_rules_of_entry he
      exact ⟨read, ahead, q.rhs ++ form, rfl, ha.applied hq, h.applied hd hq he ha hr⟩
    · exact ⟨read, ahead, pending, rfl, ha.refused hr rfl rfl rfl,
        h.refused hr ha (not_due_of_ne hp hne) rfl rfl⟩
    · exact ⟨read, ahead, _, rfl, ha.refused hr rfl rfl rfl,
        h.refused hr ha (not_due_nonterminal name form ahead) rfl rfl⟩
  · refine ⟨read, ahead, pending, rfl, ?_⟩
    rw [step_of_isFinished _ (isFinished_of_ne_running hr)]
    exact ⟨ha, h⟩

theorem paced_ofWord (start : String) (word : List Char) :
    (ofWord start word).Paced [] word [.nonterminal start] where
  seen := by
    intro r hr
    rw [List.mem_singleton.1 hr]
    exact Nat.le_refl 1
  single := Nat.le_refl 1
  steps_le := Nat.zero_le _
  steps_add_le := fun _ => .inl (Nat.le_refl 1)

theorem paced_iterate (ht : p.table.Backed g) (hd : p.table.Direct) (start : String)
    (hw : endMarker ∉ word) (n : Nat) : ∃ read ahead pending, read ++ ahead = word ∧
      ((step p)^[n] (ofWord start word)).Aligned read ahead pending ∧
      ((step p)^[n] (ofWord start word)).Paced read ahead pending := by
  induction n with
  | zero => exact ⟨[], word, _, rfl, aligned_ofWord start hw, paced_ofWord start word⟩
  | succ n ih =>
    obtain ⟨read, ahead, pending, rfl, ha, h⟩ := ih
    rw [Function.iterate_succ_apply']
    exact ha.paced_step ht hd h

theorem steps_iterate (ht : p.table.Backed g) (start : String) (hw : endMarker ∉ word)
    (h : ((step p)^[n] (ofWord start word)).status = .running) :
    ((step p)^[n] (ofWord start word)).steps = n := by
  induction n with
  | zero => rfl
  | succ n ih =>
    obtain ⟨read, ahead, pending, _, ha⟩ := aligned_iterate ht start hw n
    rw [Function.iterate_succ_apply'] at h ⊢
    by_cases hr : ((step p)^[n] (ofWord start word)).status = .running
    · rw [ha.steps_step hr, ih hr]
    · rw [step_of_isFinished p (isFinished_of_ne_running hr)] at h
      exact absurd h hr

theorem isFinished_iterate (ht : p.table.Backed g) (hd : p.table.Direct) (start : String)
    (hw : endMarker ∉ word) :
    ((step p)^[2 * word.length + 2] (ofWord start word)).isFinished = true := by
  obtain ⟨read, ahead, pending, rfl, ha, h⟩ :=
    paced_iterate ht hd start hw (2 * word.length + 2)
  by_contra hf
  have hr : ((step p)^[2 * (read ++ ahead).length + 2] (ofWord start (read ++ ahead))).status =
      .running := by
    by_contra hr
    exact hf (isFinished_of_ne_running hr)
  have hs := steps_iterate ht start hw hr
  have hl : (read ++ ahead).length = read.length + ahead.length := List.length_append
  rcases h.steps_add_le (by rw [hr]; rfl) with hc | ⟨⟨c, form, word, rfl, rfl⟩, hc⟩
  · omega
  · rw [List.length_cons] at hl
    omega

theorem Paced.steps_le_of_isAccepted (ha : a.Aligned read ahead pending)
    (h : a.Paced read ahead pending) (hs : a.status.isAccepted = true) :
    a.steps ≤ 2 * read.length + 1 := by
  obtain ⟨rfl, rfl⟩ := ha.isAccepted_iff.1 hs
  have hn : a.status.rejection? = none := by
    cases hc : a.status <;> simp_all [Status.isAccepted, Status.rejection?]
  rcases h.steps_add_le hn with hl | ⟨⟨c, form, word, hc, _⟩, _⟩
  · exact hl
  · cases hc

theorem run_eq_iterate_of_direct (ht : p.table.Backed g) (hd : p.table.Direct) (start : String)
    (hw : endMarker ∉ word) :
    let e := (ofWord start word).run p
    e = (step p)^[2 * word.length + 2] (ofWord start word) ∧ e.isFinished = true ∧
      e.steps ≤ 2 * word.length + 2 ∧
      (e.status.isAccepted = true → e.steps ≤ 2 * word.length + 1) ∧
      ∀ r ∈ e.trace, r.configuration.nameCount ≤ 1 := by
  have hf := isFinished_iterate ht hd start hw
  have hl := two_mul_le_limit p (a := ofWord start word) (List.cons_ne_nil _ _)
  have hi : (ofWord start word).configuration.input.length = word.length + 1 :=
    List.length_append
  have he : (ofWord start word).run p = (step p)^[2 * word.length + 2] (ofWord start word) :=
    run_of_iterate hf (by omega)
  obtain ⟨read, ahead, pending, hr, ha, h⟩ :=
    paced_iterate ht hd start hw (2 * word.length + 2)
  have hlen : read.length ≤ word.length := by
    rw [← hr, List.length_append]
    exact Nat.le_add_right _ _
  dsimp only
  rw [he]
  refine ⟨rfl, hf, Nat.le_trans h.steps_le (by omega), fun hs => ?_, fun r hm => ?_⟩
  · exact Nat.le_trans (h.steps_le_of_isAccepted ha hs) (by omega)
  · exact h.seen r (List.mem_reverse.1 hm)

end Analysis

namespace Parser

/-- The standard parser is done with `n` letters after `2 * n + 2` steps, or `2 * n + 1` if it
accepts them, and has one name on its stack at most all the way. -/
theorem standard_steps_le {input : String} (hne : input ≠ "")
    (hs : ∀ c ∈ input.toList, c ∈ ['a', 'b', 'c', 'd']) :
    ∃ a, Analysis.start standard input = .ok a ∧
      let e := a.run standard
      e = (Analysis.step standard)^[2 * input.length + 2] a ∧ e.isFinished = true ∧
        e.steps ≤ 2 * input.length + 2 ∧
        (e.status.isAccepted = true → e.steps ≤ 2 * input.length + 1) ∧
        ∀ r ∈ e.trace, r.configuration.nameCount ≤ 1 := by
  have hc : standard.check input = .ok input.toList := check_of_letters hne hs
  have ht : standard.table.Backed Grammar.standard :=
    Table.backed_ofCells Table.standard_standard
  refine ⟨_, Analysis.start_eq_ok_iff.2 ⟨_, hc, rfl⟩, ?_⟩
  rw [← String.length_toList]
  exact Analysis.run_eq_iterate_of_direct ht Table.direct_standardRows standard.grammar.start
    (endMarker_notMem_of_check hc)

theorem standard_steps_le_aab :
    "aab" ≠ "" ∧ (∀ c ∈ "aab".toList, c ∈ ['a', 'b', 'c', 'd']) ∧
      (∃ a, Analysis.start standard "aab" = .ok a ∧ (a.run standard).isFinished = true ∧
        (a.run standard).steps = 2 * "aab".length + 2) ∧
      ∃ a, Analysis.start standard "b" = .ok a ∧
        (a.run standard).status = .accepted (2 * "b".length + 1) := by
  have hs : "aab".toList ⊆ ['a', 'b', 'c', 'd'] := by decide
  obtain ⟨a, ha, _, hf, _⟩ := standard_steps_le (by decide) fun c hc => hs hc
  have he : ((Analysis.ofWord "S" ['a', 'a', 'b']).run standard).steps = 8 := by decide +kernel
  have hb : ((Analysis.ofWord "S" ['b']).run standard).status = .accepted 3 := by decide +kernel
  cases (show Analysis.start standard "aab" = .ok (.ofWord "S" ['a', 'a', 'b']) from rfl).symm.trans
    ha
  exact ⟨by decide, fun c hc => hs hc, ⟨_, ha, hf, he⟩, _, rfl, hb⟩

end Parser

end Predictive
