import Predictive.Proofs.MachineSteps
import Predictive.Proofs.TableEntries

/-! What every analysis has in common, whatever was asked of it. It is some steps into the
sentence that was taken up last; its stack and its input end with the end-marker, which
nothing above or before them is, so neither runs out and the end-marker is not matched.
The table may come from another grammar than the parser's own. -/
namespace Predictive

def Action.letter? : Action → Option Char
  | .matched c => some c
  | _ => none

namespace Analysis

inductive Request where
  | step
  | run
  | restart (input : String)
deriving DecidableEq, Repr

def after (p : Parser) (a : Analysis) : Request → Analysis
  | .step => a.step p
  | .run => a.run p
  | .restart input =>
    match start p input with
    | .ok fresh => fresh
    | .error _ => a

def afterAll (p : Parser) (a : Analysis) (requests : List Request) : Analysis :=
  requests.foldl (after p) a

def subject (p : Parser) (input : String) : Request → String
  | .restart other => if (p.check other).isOk then other else input
  | _ => input

def subjectAfterAll (p : Parser) (input : String) (requests : List Request) : String :=
  requests.foldl (subject p) input

def letters (a : Analysis) : List Char :=
  a.trace.filterMap (·.action.letter?)

def position (a : Analysis) : Nat :=
  a.letters.length

variable {p : Parser} {g : Grammar} {a fresh : Analysis} {input : String}
  {read ahead word : List Char} {pending form : Form}

theorem start_eq_ok_iff : start p input = .ok a ↔
    ∃ word, p.check input = .ok word ∧ ofWord p.grammar.start word = a :=
  map_eq_ok_iff

def Reaches (p : Parser) (input : String) (a : Analysis) : Prop :=
  ∃ word n, p.check input = .ok word ∧ (step p)^[n] (ofWord p.grammar.start word) = a

theorem reaches_start (h : start p input = .ok a) : Reaches p input a := by
  obtain ⟨word, hw, rfl⟩ := start_eq_ok_iff.1 h
  exact ⟨word, 0, hw, rfl⟩

theorem Reaches.iterate (h : Reaches p input a) (m : Nat) :
    Reaches p input ((step p)^[m] a) := by
  obtain ⟨word, n, hw, rfl⟩ := h
  exact ⟨word, m + n, hw, Function.iterate_add_apply _ _ _ _⟩

theorem Reaches.after (h : Reaches p input a) (r : Request) :
    Reaches p (subject p input r) (a.after p r) := by
  cases r with
  | step => exact h.iterate 1
  | run =>
    rw [Analysis.after, run_eq_iterate]
    exact h.iterate _
  | restart other =>
    rw [Analysis.after, subject]
    cases hc : p.check other with
    | ok word =>
      have hs : start p other = .ok (ofWord p.grammar.start word) :=
        start_eq_ok_iff.2 ⟨word, hc, rfl⟩
      rw [hs]
      exact reaches_start hs
    | error fault =>
      rw [start, hc]
      exact h

theorem Reaches.afterAll (h : Reaches p input a) (requests : List Request) :
    Reaches p (subjectAfterAll p input requests) (a.afterAll p requests) := by
  induction requests generalizing input a with
  | nil => exact h
  | cons r rest ih => exact ih (h.after r)

theorem trace_record (a : Analysis) (action : Action) :
    (a.record action).trace = a.trace ++ [⟨a.steps, a.configuration, action⟩] :=
  List.reverse_cons

theorem trace_perform (a : Analysis) (action : Action) : (a.perform action).trace =
    a.trace ++ [⟨a.steps + 1, a.configuration.after action, action⟩] :=
  trace_record _ action

theorem trace_prefix_settle (a : Analysis) : a.trace <+: a.settle.trace := by
  unfold settle
  split
  · rw [trace_record]
    exact List.prefix_append _ _
  · exact List.prefix_refl _

theorem trace_prefix_step (p : Parser) (a : Analysis) : a.trace <+: (a.step p).trace := by
  unfold step
  split
  · exact List.prefix_refl _
  · split
    next action _ =>
      refine List.IsPrefix.trans ?_ (trace_prefix_settle (a.perform action))
      rw [trace_perform]
      exact List.prefix_append _ _
    · exact List.prefix_refl _

@[simp] theorem letters_record (a : Analysis) (action : Action) :
    (a.record action).letters = a.letters ++ action.letter?.toList := by
  rw [letters, letters, trace_record, List.filterMap_append]
  cases action <;> rfl

@[simp] theorem letters_perform (a : Analysis) (action : Action) :
    (a.perform action).letters = a.letters ++ action.letter?.toList :=
  letters_record _ action

@[simp] theorem letters_settle (a : Analysis) : a.settle.letters = a.letters := by
  unfold settle
  split
  · rw [letters_record]
    exact List.append_nil _
  · rfl

theorem append_endMarker_eq_cons (ahead : List Char) :
    ahead ++ [endMarker] = ahead.headD endMarker :: (ahead ++ [endMarker]).tail := by
  cases ahead with
  | nil => rfl
  | cons c rest => rfl

/-- The machine has read `read` and has the text `ahead` in front and the form `pending` on
its stack; the end-markers behind and below them are the only ones. -/
structure Aligned (read ahead : List Char) (pending : Form) (a : Analysis) : Prop where
  configuration : a.configuration = .reading pending ahead
  unmarked : Unmarked pending ahead
  isAccepted_iff : a.status.isAccepted = true ↔ pending = [] ∧ ahead = []
  letters : a.letters = read

theorem aligned_ofWord (start : String) (hw : endMarker ∉ word) :
    (ofWord start word).Aligned [] word [.nonterminal start] where
  configuration := rfl
  unmarked := ⟨by simp, hw⟩
  isAccepted_iff := by simp [ofWord, Status.isAccepted]
  letters := rfl

namespace Aligned

theorem not_done (h : a.Aligned read ahead pending) (hr : a.status = .running) :
    ¬(pending = [] ∧ ahead = []) := by
  rw [← h.isAccepted_iff, hr]
  simp [Status.isAccepted]

theorem matched {c : Char} (h : a.Aligned read (c :: ahead) (.terminal c :: form)) :
    (a.perform (.matched c)).settle.Aligned (read ++ [c]) ahead form where
  configuration := configuration_letter h.configuration
  unmarked := h.unmarked.letter
  isAccepted_iff := isAccepted_settle_iff rfl (configuration_letter h.configuration)
  letters := by
    rw [letters_settle, letters_perform, h.letters]
    rfl

theorem applied {name : String} {q : Production} (hq : q ∈ g.rules)
    (h : a.Aligned read ahead (.nonterminal name :: form)) :
    (a.perform (.applied q)).settle.Aligned read ahead (q.rhs ++ form) where
  configuration := configuration_choice h.configuration q
  unmarked := h.unmarked.choice hq
  isAccepted_iff := isAccepted_settle_iff rfl (configuration_choice h.configuration q)
  letters := by
    rw [letters_settle, letters_perform, h.letters]
    exact List.append_nil _

theorem refused {action : Action} (h : a.Aligned read ahead pending) (hr : a.status = .running)
    (hc : a.configuration.after action = a.configuration) (hl : action.letter? = none)
    (hs : (Status.ofAction action).isAccepted = false) :
    (a.perform action).Aligned read ahead pending where
  configuration := hc.trans h.configuration
  unmarked := h.unmarked
  isAccepted_iff := by
    rw [status_perform, hs]
    exact ⟨fun ht => by contradiction, fun ho => absurd ho (h.not_done hr)⟩
  letters := by
    rw [letters_perform, hl, h.letters]
    exact List.append_nil _

theorem step (ht : p.table.Backed g) (h : a.Aligned read ahead pending) :
    ∃ read' ahead' pending', read' ++ ahead' = read ++ ahead ∧
      (a.step p).Aligned read' ahead' pending' := by
  by_cases hr : a.status = .running
  · obtain ⟨c, form, word, rfl, rfl, hs⟩ | ⟨name, form, q, rfl, he, hs⟩ | ⟨c, _, _, hs⟩ |
      ⟨name, form, rfl, _, hs⟩ := step_cases hr h.configuration (h.not_done hr) h.unmarked p
    · exact ⟨read ++ [c], word, form, by simp, hs ▸ h.matched⟩
    · exact ⟨read, ahead, q.rhs ++ form, rfl, hs ▸ h.applied (ht.mem_rules_of_entry he)⟩
    · exact ⟨read, ahead, pending, rfl, hs ▸ h.refused hr rfl rfl rfl⟩
    · exact ⟨read, ahead, _, rfl, hs ▸ h.refused hr rfl rfl rfl⟩
  · refine ⟨read, ahead, pending, rfl, ?_⟩
    rwa [step_of_isFinished _ (isFinished_of_ne_running hr)]

end Aligned

theorem aligned_iterate (ht : p.table.Backed g) (start : String) (hw : endMarker ∉ word) (n : Nat) :
    ∃ read ahead pending, read ++ ahead = word ∧
      ((Analysis.step p)^[n] (ofWord start word)).Aligned read ahead pending := by
  induction n with
  | zero => exact ⟨[], word, _, rfl, aligned_ofWord start hw⟩
  | succ n ih =>
    obtain ⟨read, ahead, pending, rfl, h⟩ := ih
    rw [Function.iterate_succ_apply']
    exact h.step ht

namespace Aligned

theorem steps_step (h : a.Aligned read ahead pending) (hr : a.status = .running) :
    (a.step p).steps = a.steps + 1 := by
  obtain ⟨c, form, word, _, _, hs⟩ | ⟨name, form, q, _, _, hs⟩ | ⟨c, _, _, hs⟩ |
    ⟨name, form, _, _, hs⟩ := step_cases hr h.configuration (h.not_done hr) h.unmarked p
  all_goals simp [hs]

theorem prescribed?_ne_none (h : a.Aligned read ahead pending) (t : Table) :
    a.configuration.prescribed? t ≠ none := by
  rw [h.configuration]
  cases pending with
  | nil =>
    rw [Configuration.prescribed?_bottom]
    split <;> simp
  | cons s form =>
    cases s with
    | terminal c =>
      rw [Configuration.prescribed?_terminal]
      split <;> simp
    | nonterminal name =>
      rw [Configuration.prescribed?_nonterminal]
      split <;> simp

theorem head?_input (h : a.Aligned read ahead pending) :
    a.configuration.input.head? = some a.configuration.lookahead := by
  rw [h.configuration, Configuration.lookahead_reading, Configuration.reading,
    append_endMarker_eq_cons]
  rfl

theorem input_eq_drop (h : a.Aligned read ahead pending) :
    a.configuration.input = (read ++ ahead ++ [endMarker]).drop a.position := by
  rw [position, h.letters, h.configuration, List.append_assoc, List.drop_left]
  rfl

theorem position_lt (h : a.Aligned read ahead pending) :
    a.position < (read ++ ahead ++ [endMarker]).length := by
  simp [position, h.letters]

theorem action_ne_matched (h : a.Aligned read ahead pending) (hw : endMarker ∉ read) :
    ∀ r ∈ a.trace, r.action ≠ .matched endMarker := by
  intro r hr ha
  apply hw
  rw [← h.letters]
  exact List.mem_filterMap.2 ⟨r, hr, by rw [ha]; rfl⟩

end Aligned

/-- Whatever is asked of an analysis, its stack ends with the end-marker, and so does the rest
of the sentence, which begins at the position of the lookahead; there is no other
end-marker in them. So there is always a symbol on top and a character ahead, the
end-marker is not matched, and every step before the end is counted. -/
theorem afterAll_aligned {cells : List Cell} (p : Parser)
    (ht : Table.ofCells g cells = .ok p.table) (hs : start p input = .ok a)
    (requests : List Request) :
    let e := a.afterAll p requests
    let text := trim (subjectAfterAll p input requests).toList
    endMarker ∉ text ∧
    (∃ above, e.configuration.stack = above ++ [.terminal endMarker] ∧
      .terminal endMarker ∉ above) ∧
    e.position < (text ++ [endMarker]).length ∧
    e.configuration.input = (text ++ [endMarker]).drop e.position ∧
    e.configuration.prescribed? p.table ≠ none ∧
    e.configuration.input.head? = some e.configuration.lookahead ∧
    (∀ r ∈ e.trace, r.action ≠ .matched endMarker) ∧
    (e.status = .running → (e.step p).steps = e.steps + 1) := by
  obtain ⟨word, n, hc, he⟩ := (reaches_start hs).afterAll requests
  have hw := Parser.endMarker_notMem_of_check hc
  obtain ⟨read, ahead, pending, hr, h⟩ :=
    aligned_iterate (Table.backed_ofCells ht) p.grammar.start hw n
  have hm : endMarker ∉ read := fun hm => hw (hr ▸ List.mem_append_left _ hm)
  dsimp only
  rw [(Parser.check_eq_ok_iff.1 hc).1, ← hr]
  rw [he] at h
  refine ⟨hr ▸ hw, ⟨pending, ?_, h.unmarked.pending⟩, h.position_lt, h.input_eq_drop,
    h.prescribed?_ne_none p.table, h.head?_input, h.action_ne_matched hm, h.steps_step⟩
  rw [h.configuration]
  rfl

theorem afterAll_aligned_mixed :
    let p : Parser := ⟨⟨"S", [⟨"S", [.terminal 'a']⟩], by decide⟩, Table.standardRows⟩
    Table.ofCells Grammar.standard Table.standardCells = .ok p.table ∧
      ∃ a, start p "a" = .ok a ∧
        let e := a.afterAll p [.step, .restart "b", .step]
        e.position = 1 ∧ e.configuration.input = [endMarker] ∧
          (e.status = .running → (e.step p).steps = e.steps + 1) := by
  intro p
  have hs : start p "a" = .ok (ofWord "S" ['a']) := rfl
  have h := afterAll_aligned p Table.standard_standard hs [.step, .restart "b", .step]
  exact ⟨Table.standard_standard, _, hs, rfl, h.2.2.2.1.trans (by decide), h.2.2.2.2.2.2.2⟩

end Analysis

end Predictive
