import Mathlib.Data.List.Chain
import Predictive.Proofs.EndMarkers

/-! Traces as logs. Each record follows from the one before by its action alone, so the trace
can be replayed without the machine; and what the machine shows, its configuration, its
number of steps and its status, is told by the last record. -/
namespace Predictive

/-- The status of a run whose last record has this action. -/
def Action.verdict : Action → Status
  | mismatch expected found => .mismatch expected found
  | noEntry name c => .noEntry name c
  | accept steps => .accepted steps
  | _ => .running

theorem Action.isAccepted_verdict_iff {action : Action} :
    action.verdict.isAccepted = true ↔ ∃ n, action = .accept n := by
  cases action <;> simp [verdict, Status.isAccepted]

namespace Record

/-- What can come after a record, whatever its own action was: an action that its configuration
admits, and the configuration that this action makes of it. -/
inductive Move (t : Table) : Record → Record → Prop
  | matched : Move t ⟨n, ⟨.terminal c :: stack, c :: input⟩, before⟩
      ⟨n + 1, ⟨stack, input⟩, .matched c⟩
  | applied : t.entry q.lhs c = some q →
      Move t ⟨n, ⟨.nonterminal q.lhs :: stack, c :: input⟩, before⟩
        ⟨n + 1, ⟨q.rhs ++ stack, c :: input⟩, .applied q⟩
  | mismatch : c ≠ d →
      Move t ⟨n, ⟨.terminal c :: stack, d :: input⟩, before⟩
        ⟨n + 1, ⟨.terminal c :: stack, d :: input⟩, .mismatch c d⟩
  | noEntry : t.entry name c = none →
      Move t ⟨n, ⟨.nonterminal name :: stack, c :: input⟩, before⟩
        ⟨n + 1, ⟨.nonterminal name :: stack, c :: input⟩, .noEntry name c⟩
  | accept : Move t ⟨n, ⟨[.terminal endMarker], [endMarker]⟩, before⟩
      ⟨n, ⟨[.terminal endMarker], [endMarker]⟩, .accept n⟩

structure Next (t : Table) (r s : Record) : Prop where
  running : r.action.verdict = .running
  move : Move t r s

variable {t : Table} {r s : Record} {n : Nat}

theorem Move.number_eq (h : Move t r s) :
    s.number = if s.action.verdict.isAccepted then r.number else r.number + 1 := by
  cases h <;> rfl

theorem Next.number_eq (h : Next t r s) (hs : s.action.verdict.isAccepted = false) :
    s.number = r.number + 1 := by
  rw [h.move.number_eq, hs]
  rfl

theorem Next.isAccepted_left (h : Next t r s) : r.action.verdict.isAccepted = false := by
  rw [h.running]
  rfl

end Record

/-- Records from a first to a last one, each following from the one before. -/
structure Log (t : Table) (first last : Record) (records : List Record) : Prop where
  head? : records.head? = some first
  getLast? : records.getLast? = some last
  chain : records.IsChain (Record.Next t)

namespace Log

variable {t : Table} {first last r s : Record} {records : List Record} {i : Nat}

theorem single (t : Table) (r : Record) : Log t r r [r] :=
  ⟨rfl, rfl, .singleton r⟩

theorem snoc (h : Log t first last records) (hn : Record.Next t last r) :
    Log t first r (records ++ [r]) where
  head? := by rw [List.head?_append, h.head?]; rfl
  getLast? := List.getLast?_concat
  chain := by
    refine h.chain.append (.singleton r) fun a ha b hb => ?_
    rw [h.getLast?] at ha
    cases ha
    cases hb
    exact hn

theorem next (h : Log t first last records) (hr : records[i]? = some r)
    (hs : records[i + 1]? = some s) : Record.Next t r s := by
  obtain ⟨_, rfl⟩ := List.getElem?_eq_some_iff.1 hr
  obtain ⟨hi, rfl⟩ := List.getElem?_eq_some_iff.1 hs
  exact List.isChain_iff_getElem.1 h.chain i hi

theorem number_eq (h : Log t first last records) (hf : first.number = 0)
    (hr : records[i]? = some r) (ha : r.action.verdict.isAccepted = false) : r.number = i := by
  induction i generalizing r with
  | zero =>
    rw [← List.head?_eq_getElem?, h.head?] at hr
    cases hr
    exact hf
  | succ i ih =>
    have hi : i < records.length := Nat.lt_of_succ_lt (List.getElem?_eq_some_iff.1 hr).1
    have hn := h.next (List.getElem?_eq_getElem hi) hr
    rw [hn.number_eq ha, ih (List.getElem?_eq_getElem hi) hn.isAccepted_left]

theorem length_of_isAccepted (h : Log t first last records) (hr : records[i]? = some r)
    (ha : r.action.verdict.isAccepted = true) : i + 1 = records.length := by
  have hi := (List.getElem?_eq_some_iff.1 hr).1
  by_contra hne
  have hlt : i + 1 < records.length := by omega
  rw [(h.next hr (List.getElem?_eq_getElem hlt)).isAccepted_left] at ha
  contradiction

theorem length_eq (h : Log t first last records) (hf : first.number = 0)
    (ha : first.action.verdict.isAccepted = false) : records.length =
      last.number + 1 + if last.action.verdict.isAccepted then 1 else 0 := by
  have hl := List.getLast?_eq_getElem?.symm.trans h.getLast?
  cases hv : last.action.verdict.isAccepted with
  | false =>
    have hn := h.number_eq hf hl hv
    have hp := (List.getElem?_eq_some_iff.1 hl).1
    simp
    omega
  | true =>
    match hk : records.length with
    | 0 => simp [hk] at hl
    | 1 =>
      rw [hk, ← List.head?_eq_getElem?, h.head?] at hl
      cases hl
      rw [ha] at hv
      contradiction
    | k + 2 =>
      rw [hk] at hl
      have hlt : k < records.length := by omega
      have hn := h.next (List.getElem?_eq_getElem hlt) hl
      have hm := hn.move.number_eq
      rw [hv, h.number_eq hf (List.getElem?_eq_getElem hlt) hn.isAccepted_left] at hm
      simp [hm]

end Log

theorem Configuration.isFinal_iff {c : Configuration} :
    c.isFinal = true ↔ c = ⟨[.terminal endMarker], [endMarker]⟩ := by
  obtain ⟨stack, input⟩ := c
  simp [isFinal]

namespace Analysis

variable {p : Parser} {g : Grammar} {t : Table} {first : Record} {a : Analysis} {action : Action}
  {input : String} {word : List Char}

def Logged (t : Table) (first : Record) (a : Analysis) : Prop :=
  ∃ action, Log t first ⟨a.steps, a.configuration, action⟩ a.trace ∧ action.verdict = a.status

theorem logged_ofWord (t : Table) (start : String) (word : List Char) :
    (ofWord start word).Logged t ⟨0, .initial start word, .initial⟩ :=
  ⟨.initial, .single t _, rfl⟩

namespace Logged

theorem perform (h : a.Logged t first) (hr : a.status = .running)
    (hv : action.verdict = .ofAction action)
    (hm : ∀ before, Record.Move t ⟨a.steps, a.configuration, before⟩
      ⟨a.steps + 1, a.configuration.after action, action⟩) : (a.perform action).Logged t first := by
  obtain ⟨before, hl, hb⟩ := h
  exact ⟨action, trace_record _ action ▸ hl.snoc ⟨hb.trans hr, hm before⟩, hv⟩

theorem settle (h : a.Logged t first) : a.settle.Logged t first := by
  unfold Analysis.settle
  split
  next hf =>
    obtain ⟨before, hl, hb⟩ := h
    refine ⟨.accept a.steps, trace_record _ _ ▸ hl.snoc ⟨hb.trans hf.1, ?_⟩, rfl⟩
    rw [record_configuration, Configuration.isFinal_iff.1 hf.2]
    exact .accept
  next => exact h

theorem step {read ahead : List Char} {pending : Form} (h : a.Logged p.table first)
    (ha : a.Aligned read ahead pending) : (a.step p).Logged p.table first := by
  by_cases hr : a.status = .running
  · have hi := append_endMarker_eq_cons ahead
    have hc := ha.configuration
    obtain ⟨c, form, word, rfl, rfl, hs⟩ | ⟨name, form, q, rfl, he, hs⟩ | ⟨c, hp, hd, hs⟩ |
      ⟨name, form, rfl, he, hs⟩ := step_cases hr hc (ha.not_done hr) ha.unmarked p
    all_goals rw [hs]
    · refine (h.perform hr rfl fun before => ?_).settle
      rw [hc]
      exact .matched
    · refine (h.perform hr rfl fun before => ?_).settle
      have hl := Table.lhs_of_entry he
      subst hl
      rw [hc, Configuration.after_applied, Configuration.reading, Configuration.reading, hi,
        List.append_assoc]
      exact .applied he
    · refine h.perform hr rfl fun before => ?_
      rw [hc, Configuration.reading, hi]
      cases pending with
      | nil => cases hp; exact .mismatch hd
      | cons s form => cases hp; exact .mismatch hd
    · refine h.perform hr rfl fun before => ?_
      rw [hc, Configuration.reading, hi]
      exact .noEntry he
  · rwa [step_of_isFinished _ (isFinished_of_ne_running hr)]

end Logged

theorem logged_iterate (ht : p.table.Backed g) (start : String) (hw : endMarker ∉ word) (n : Nat) :
    ((Analysis.step p)^[n] (ofWord start word)).Logged p.table
      ⟨0, .initial start word, .initial⟩ := by
  induction n with
  | zero => exact logged_ofWord p.table start word
  | succ n ih =>
    obtain ⟨read, ahead, pending, _, h⟩ := aligned_iterate ht start hw n
    rw [Function.iterate_succ_apply']
    exact ih.step h

/-- The trace of an analysis is a log of its run, whatever was asked of it. It begins with the
sentence taken up last, each record follows from the one before by its action, the records
are numbered by the steps, and only an acceptance, at the end, repeats a number. The last
record shows the configuration and the status. -/
theorem afterAll_logged {cells : List Cell} (p : Parser)
    (ht : Table.ofCells g cells = .ok p.table) (hs : start p input = .ok a)
    (requests : List Request) :
    let e := a.afterAll p requests
    let text := trim (subjectAfterAll p input requests).toList
    e.trace.head? = some
      ⟨0, ⟨[.nonterminal p.grammar.start, .terminal endMarker], text ++ [endMarker]⟩, .initial⟩ ∧
    e.trace.IsChain (Record.Next p.table) ∧
    (∀ (i : Nat) (r : Record), e.trace[i]? = some r → (∀ n, r.action ≠ .accept n) → r.number = i) ∧
    (∀ (i n : Nat) (r : Record), e.trace[i]? = some r → r.action = .accept n →
      i + 1 = e.trace.length) ∧
    e.trace.length = e.steps + 1 + (if e.status.isAccepted then 1 else 0) ∧
    ∃ r, e.trace.getLast? = some r ∧ r.configuration = e.configuration ∧
      r.action.verdict = e.status := by
  obtain ⟨word, n, hc, he⟩ := (reaches_start hs).afterAll requests
  obtain ⟨action, hl, hv⟩ := logged_iterate (Table.backed_ofCells ht) p.grammar.start
    (Parser.endMarker_notMem_of_check hc) n
  rw [he] at hl hv
  dsimp only
  rw [(Parser.check_eq_ok_iff.1 hc).1]
  refine ⟨hl.head?, hl.chain, fun i r hr hn => ?_, fun i n r hr hn => ?_, ?_, _, hl.getLast?, rfl,
    hv⟩
  · apply hl.number_eq rfl hr
    rw [Bool.eq_false_iff, ne_eq, Action.isAccepted_verdict_iff]
    exact fun ⟨n, hn'⟩ => hn n hn'
  · exact hl.length_of_isAccepted hr (Action.isAccepted_verdict_iff.2 ⟨n, hn⟩)
  · rw [hl.length_eq rfl rfl, hv]

theorem afterAll_logged_ab :
    Table.ofCells Grammar.standard Table.standardCells = .ok Table.standardRows ∧
      ∃ a, start .standard " ab" = .ok a ∧
        let e := a.afterAll .standard [.step, .restart "?", .run]
        e.status = .accepted 4 ∧ e.trace.length = 6 ∧
          e.trace.IsChain (Record.Next Table.standardRows) := by
  have hs : start .standard " ab" = .ok (ofWord "S" ['a', 'b']) := rfl
  have h := afterAll_logged .standard Table.standard_standard hs [.step, .restart "?", .run]
  have he : ((ofWord "S" ['a', 'b']).afterAll .standard [.step, .restart "?", .run]).status =
    .accepted 4 := by decide +kernel
  exact ⟨Table.standard_standard, _, hs, he, by decide +kernel, h.2.1⟩

end Analysis

end Predictive
