import Predictive.Proofs.EndMarkers

/-! Predictions. What an analysis says that it is going to apply is looked up apart from the step
that applies it. The two meet in the first record that the step adds to the trace: the prediction
is the production of that record, and there is none where the record is of another kind or
where the step adds nothing. -/
namespace Predictive

namespace Configuration

variable {t : Table} {c : Configuration} {q : Production} {name : String} {rest : List Symbol}

theorem prescribed?_of_entry_eq_none (hs : c.stack = .nonterminal name :: rest)
    (he : t.entry name c.lookahead = none) :
    c.prescribed? t = some (.noEntry name c.lookahead) := by
  rw [prescribed?, hs]
  dsimp only
  rw [he]

theorem stack_of_prescribed?_applied (h : c.prescribed? t = some (.applied q)) :
    ∃ rest, c.stack = .nonterminal q.lhs :: rest := by
  unfold prescribed? at h
  split at h
  next => contradiction
  next => split at h <;> cases h
  next name rest hs =>
    split at h
    next p he =>
      cases h
      rw [Table.lhs_of_entry he]
      exact ⟨rest, hs⟩
    next => cases h

end Configuration

namespace Analysis

def nextRecord? (p : Parser) (a : Analysis) : Option Record :=
  (a.step p).trace[a.trace.length]?

/-- The next step replaces the top of the stack by the right-hand side of `q`, and records that
it applied `q`. -/
structure Applies (p : Parser) (q : Production) (a : Analysis) : Prop where
  replaced : ∃ rest, a.configuration.stack = .nonterminal q.lhs :: rest ∧
    (a.step p).configuration = ⟨q.rhs ++ rest, a.configuration.input⟩
  recorded : a.nextRecord? p = some ⟨a.steps + 1, (a.step p).configuration, .applied q⟩

variable {p : Parser} {a : Analysis} {q : Production} {name : String} {c : Char}
  {rest : List Symbol} {action : Action}

theorem nextRecord?_of_step_eq (h : a.step p = a) : a.nextRecord? p = none := by
  rw [nextRecord?, h]
  exact List.getElem?_eq_none (Nat.le_refl _)

theorem nextRecord?_of_prescribed (hr : a.status = .running)
    (h : a.configuration.prescribed? p.table = some action) :
    a.nextRecord? p = some ⟨a.steps + 1, a.configuration.after action, action⟩ := by
  obtain ⟨more, hm⟩ := trace_prefix_settle (a.perform action)
  rw [nextRecord?, step_of_prescribed hr h, ← hm, trace_perform]
  simp

theorem nextRecord?_of_running (hr : a.status = .running) :
    a.nextRecord? p = (a.configuration.prescribed? p.table).map fun action =>
      ⟨a.steps + 1, a.configuration.after action, action⟩ := by
  cases h : a.configuration.prescribed? p.table with
  | none => exact nextRecord?_of_step_eq (step_of_idle h)
  | some action => exact nextRecord?_of_prescribed hr h

theorem predicted?_of_isFinished (h : a.isFinished = true) : a.predicted? p = none := by
  unfold predicted?
  split
  · exact if_pos h
  · rfl

theorem predicted?_of_running (hr : a.status = .running) :
    a.predicted? p = (a.configuration.prescribed? p.table).bind Action.production? := by
  rw [predicted?, isFinished_of_running hr, Configuration.prescribed?]
  cases a.configuration.stack with
  | nil => rfl
  | cons top rest =>
    cases top with
    | terminal d => dsimp only; split <;> rfl
    | nonterminal name =>
      dsimp only
      cases p.table.entry name a.configuration.lookahead <;> rfl

theorem predicted?_eq (p : Parser) (a : Analysis) :
    a.predicted? p = (a.nextRecord? p).bind fun r => r.action.production? := by
  by_cases hr : a.status = .running
  · rw [predicted?_of_running hr, nextRecord?_of_running hr, Option.bind_map]
    rfl
  · have hf := isFinished_of_ne_running hr
    rw [predicted?_of_isFinished hf, nextRecord?_of_step_eq (step_of_isFinished p hf)]
    rfl

theorem prescribed?_of_predicted? (h : a.predicted? p = some q) :
    a.status = .running ∧ a.configuration.prescribed? p.table = some (.applied q) := by
  by_cases hr : a.status = .running
  · rw [predicted?_of_running hr] at h
    obtain ⟨action, ha, hq⟩ := Option.bind_eq_some_iff.1 h
    cases action with
    | applied q' =>
      cases hq
      exact ⟨hr, ha⟩
    | _ => contradiction
  · rw [predicted?_of_isFinished (isFinished_of_ne_running hr)] at h
    contradiction

theorem predicted?_eq_some_iff : a.predicted? p = some q ↔ a.Applies p q := by
  constructor
  · intro h
    obtain ⟨hr, ha⟩ := prescribed?_of_predicted? h
    obtain ⟨rest, hs⟩ := Configuration.stack_of_prescribed?_applied ha
    have hc : (a.step p).configuration = a.configuration.after (.applied q) := by
      rw [step_of_prescribed hr ha, configuration_settle, configuration_perform]
    refine ⟨⟨rest, hs, ?_⟩, ?_⟩
    · rw [hc, Configuration.after, hs]
      rfl
    · rw [hc]
      exact nextRecord?_of_prescribed hr ha
  · intro h
    rw [predicted?_eq, h.recorded]
    rfl

theorem refused_of_predicted?_eq_none (hr : a.status = .running)
    (hs : a.configuration.stack = .nonterminal name :: rest) (h : a.predicted? p = none) :
    (a.step p).status = .noEntry name a.configuration.lookahead ∧ a.nextRecord? p =
      some ⟨a.steps + 1, a.configuration, .noEntry name a.configuration.lookahead⟩ := by
  rw [predicted?, hs, isFinished_of_running hr] at h
  have ha := Configuration.prescribed?_of_entry_eq_none hs h
  refine ⟨?_, nextRecord?_of_prescribed hr ha⟩
  rw [step_noEntry hr ha]
  rfl

theorem predicted?_of_terminal (hs : a.configuration.stack = .terminal c :: rest) :
    a.predicted? p = none ∧ a.available p = [] := by
  rw [predicted?, available, hs]
  exact ⟨rfl, rfl⟩

theorem mem_available_of_predicted? (ht : p.table.Backed p.grammar)
    (h : a.predicted? p = some q) : q ∈ a.available p := by
  unfold predicted? at h
  unfold available
  split at h
  next name rest _ =>
    split at h
    next => contradiction
    next hf =>
      rw [if_neg hf]
      exact Grammar.mem_alternatives.2 ⟨ht.mem_rules_of_entry h, Table.lhs_of_entry h⟩
  next => contradiction

theorem applied_step (p : Parser) (a : Analysis) :
    (a.step p).applied = a.applied ++ (a.predicted? p).toList := by
  by_cases hr : a.status = .running
  · rw [predicted?_of_running hr]
    cases h : a.configuration.prescribed? p.table with
    | none =>
      rw [step_of_idle h]
      exact (List.append_nil _).symm
    | some action =>
      rw [step_of_prescribed hr h, applied_settle, applied_perform]
      rfl
  · have hf := isFinished_of_ne_running hr
    rw [step_of_isFinished p hf, predicted?_of_isFinished hf]
    exact (List.append_nil _).symm

theorem applied_iterate (p : Parser) (a : Analysis) (n : Nat) : ((step p)^[n] a).applied =
    a.applied ++ (List.range n).filterMap fun i => ((step p)^[i] a).predicted? p := by
  induction n with
  | zero => exact (List.append_nil _).symm
  | succ n ih =>
    rw [Function.iterate_succ_apply', applied_step, ih, List.range_succ, List.filterMap_append,
      List.append_assoc]
    cases h : ((step p)^[n] a).predicted? p <;> simp [h]

/-- What is predicted is what the next step applies, for any analysis, be it running or over. A
name for which nothing is predicted is refused; over a terminal there is nothing to predict or to
choose from; and with a table of the parser's own grammar the prediction is one of the productions
to choose from. So a run applies what was predicted on its way. -/
theorem predictions_agree (p : Parser) (a : Analysis) :
    (∀ q, a.predicted? p = some q ↔ a.Applies p q) ∧
    (∀ name rest, a.status = .running → a.configuration.stack = .nonterminal name :: rest →
      a.predicted? p = none →
      (a.step p).status = .noEntry name a.configuration.lookahead ∧ a.nextRecord? p =
        some ⟨a.steps + 1, a.configuration, .noEntry name a.configuration.lookahead⟩) ∧
    (∀ c rest, a.configuration.stack = .terminal c :: rest →
      a.predicted? p = none ∧ a.available p = []) ∧
    (∀ cells, Table.ofCells p.grammar cells = .ok p.table →
      ∀ q, a.predicted? p = some q → q ∈ a.available p) ∧
    ∀ n, ((step p)^[n] a).applied =
      a.applied ++ (List.range n).filterMap fun i => ((step p)^[i] a).predicted? p :=
  ⟨fun _ => predicted?_eq_some_iff, fun _ _ => refused_of_predicted?_eq_none,
    fun _ _ => predicted?_of_terminal,
    fun _ ht _ => mem_available_of_predicted? (Table.backed_ofCells ht), applied_iterate p a⟩

theorem predictions_agree_cd :
    ∃ a, start .standard "cd" = .ok a ∧
      a.Applies .standard ⟨"S", [.terminal 'c', .nonterminal "B", .terminal 'c']⟩ ∧
      ⟨"S", [.terminal 'c', .nonterminal "B", .terminal 'c']⟩ ∈ a.available .standard ∧
      (a.step .standard).available .standard = [] ∧
      ((step .standard)^[2] a).status = .running ∧
      (((step .standard)^[2] a).step .standard).status = .noEntry "B" 'd' := by
  have hs : start .standard "cd" = .ok (ofWord "S" ['c', 'd']) := rfl
  obtain ⟨happ, _, _, hmem, _⟩ := predictions_agree .standard (ofWord "S" ['c', 'd'])
  obtain ⟨_, _, hter, _⟩ := predictions_agree .standard ((ofWord "S" ['c', 'd']).step .standard)
  obtain ⟨_, href, _⟩ := predictions_agree .standard ((step .standard)^[2] (ofWord "S" ['c', 'd']))
  exact ⟨_, hs, (happ _).1 rfl, hmem _ Table.standard_standard _ rfl, (hter _ _ rfl).2, rfl,
    (href _ _ rfl rfl rfl).1⟩

end Analysis

end Predictive
