import Predictive.Proofs.Unfolding
import Predictive.Proofs.WrittenCells

/-! Tables with more entries. A step looks up one entry at most, and an entry that is there is
still there when others are added; so two analyses of a sentence, one with a table that extends
the other's, go the same way until the smaller table has no entry. What comes after that is
open, but no record from before is lost. -/
namespace Predictive

namespace Table

def Extends (t t' : Table) : Prop :=
  ∀ name c q, t.entry name c = some q → t'.entry name c = some q

theorem Ordered.extends {g : Grammar} {t t' : Table} (ht : t.Ordered g) (ht' : t'.Ordered g)
    (h : t.entries ⊆ t'.entries) : t.Extends t' := by
  intro name c q he
  obtain ⟨hl, hm⟩ := ht.entry_eq_some_iff.1 he
  exact ht'.entry_eq_some_iff.2 ⟨hl, h hm⟩

end Table

theorem Configuration.prescribed?_of_extends {t t' : Table} (h : t.Extends t')
    (c : Configuration) : c.prescribed? t = c.prescribed? t' ∨
      ∃ name, c.prescribed? t = some (.noEntry name c.lookahead) := by
  rw [prescribed?, prescribed?]
  split
  next => exact .inl rfl
  next => exact .inl rfl
  next name rest hs =>
    cases he : t.entry name c.lookahead with
    | none => exact .inr ⟨name, rfl⟩
    | some q =>
      rw [h name _ q he]
      exact .inl rfl

namespace Analysis

/-- The one analysis is refused for want of an entry, and the records that it has from before
are the first records of the other. -/
def StopsShort (a e : Analysis) : Prop :=
  ∃ name c records r, a.status = .noEntry name c ∧ a.trace = records ++ [r] ∧
    r.action = .noEntry name c ∧ records <+: e.trace

variable {p p' : Parser} {g : Grammar} {a e : Analysis} {read ahead : List Char} {pending : Form}

theorem StopsShort.isFinished (h : a.StopsShort e) : a.isFinished = true := by
  obtain ⟨name, c, _, _, hs, _⟩ := h
  rw [Analysis.isFinished, hs]
  rfl

theorem StopsShort.step (h : a.StopsShort e) (p p' : Parser) :
    (a.step p).StopsShort (e.step p') := by
  rw [step_of_isFinished p h.isFinished]
  obtain ⟨name, c, records, r, hs, ht, hr, hp⟩ := h
  exact ⟨name, c, records, r, hs, ht, hr, hp.trans (trace_prefix_step p' e)⟩

theorem step_of_extends (h : p.table.Extends p'.table) (a : Analysis) :
    (a.step p).StopsShort (a.step p') ∨ a.step p = a.step p' := by
  by_cases hr : a.status = .running
  · obtain he | ⟨name, hn⟩ := Configuration.prescribed?_of_extends h a.configuration
    · right
      rw [step, step, he]
    · left
      rw [step_noEntry hr hn]
      exact ⟨name, a.configuration.lookahead, a.trace, _, rfl, trace_perform a _, rfl,
        trace_prefix_step p' a⟩
  · right
    have hf := isFinished_of_ne_running hr
    rw [step_of_isFinished p hf, step_of_isFinished p' hf]

theorem iterate_of_extends (h : p.table.Extends p'.table) (a : Analysis) (n : Nat) :
    ((step p)^[n] a).StopsShort ((step p')^[n] a) ∨ (step p)^[n] a = (step p')^[n] a := by
  induction n with
  | zero => exact .inr rfl
  | succ n ih =>
    rw [Function.iterate_succ_apply', Function.iterate_succ_apply']
    rcases ih with hs | he
    · exact .inl (hs.step p p')
    · rw [← he]
      exact step_of_extends h _

theorem run_of_extends (ht : p'.table.Backed g) (h : p.table.Extends p'.table)
    (ha : a.Aligned read ahead pending) (hf : (a.run p).isFinished = true)
    (hn : ∀ name c, (a.run p).status ≠ .noEntry name c) : a.run p' = a.run p := by
  rw [run_eq_iterate p a] at hf hn ⊢
  obtain ⟨name, c, _, _, hs, _⟩ | he := iterate_of_extends h a (a.limit p)
  · exact absurd hs (hn name c)
  · rw [he] at hf ⊢
    exact ha.run_eq_iterate ht hf

/-- Adding entries to a table only undoes refusals for want of an entry. After any number of steps
the analysis with the smaller table has either been refused for that, and had come as far as the
other one by the same records, or it is equal to the other one. So a sentence that is accepted
stays accepted, by the same steps, and one that is refused for a letter stays refused. -/
theorem iterate_of_entries_subset {t t' : Table} {cells others : List Cell} {input : String}
    {word : List Char} (ht : Table.ofCells g cells = .ok t) (ht' : Table.ofCells g others = .ok t')
    (he : t.entries ⊆ t'.entries) (hw : Parser.check ⟨g, t⟩ input = .ok word) :
    ∃ a, start ⟨g, t⟩ input = .ok a ∧ start ⟨g, t'⟩ input = .ok a ∧
      (∀ k,
        let e := (step ⟨g, t⟩)^[k] a
        let e' := (step ⟨g, t'⟩)^[k] a
        e.StopsShort e' ∨ e = e') ∧
      ∀ e, Parser.parse ⟨g, t⟩ input = .ok e →
        (e.status.isAccepted = true ∨ ∃ c d, e.status = .mismatch c d) →
        Parser.parse ⟨g, t'⟩ input = .ok e := by
  have hx : (Parser.mk g t).table.Extends (Parser.mk g t').table :=
    (Table.records_of_ofCells ht).ordered.extends (Table.records_of_ofCells ht').ordered he
  have hw' : Parser.check ⟨g, t'⟩ input = .ok word := hw
  have ha := aligned_ofWord g.start (Parser.endMarker_notMem_of_check hw)
  refine ⟨_, start_eq_ok_iff.2 ⟨word, hw, rfl⟩, start_eq_ok_iff.2 ⟨word, hw', rfl⟩,
    iterate_of_extends hx _, fun e hp hv => ?_⟩
  cases (Parser.parse_eq_run hw).symm.trans hp
  have hn : ∀ name c, ((ofWord g.start word).run ⟨g, t⟩).status ≠ .noEntry name c := by
    intro name c hn
    rw [hn] at hv
    rcases hv with hv | ⟨_, _, hv⟩ <;> contradiction
  have hf : ((ofWord g.start word).run ⟨g, t⟩).isFinished = true := by
    rcases hv with hv | ⟨c, d, hv⟩
    · exact isFinished_of_isAccepted hv
    · exact isFinished_of_ne_running (by rw [hv]; simp)
  rw [Parser.parse_eq_run hw']
  exact congrArg Except.ok (run_of_extends (Table.backed_ofCells ht') hx ha hf hn)

theorem iterate_of_entries_subset_standard :
    let t : Table := ⟨Table.standardRows.rows.map fun row =>
      if row.name ∈ ["S", "A"] then row else ⟨row.name, []⟩⟩
    Table.ofCells .standard (Table.standardCells.take 7) = .ok t ∧
      Table.ofCells .standard Table.standardCells = .ok Table.standardRows ∧
      t.entries ⊆ Table.standardRows.entries ∧
      (∃ a, start .standard "ab" = .ok a ∧
        ((step ⟨.standard, t⟩)^[3] a).StopsShort ((step .standard)^[3] a)) ∧
      ∃ e, Parser.parse ⟨.standard, t⟩ "b" = .ok e ∧ e.status = .accepted 3 ∧
        Parser.parse .standard "b" = .ok e := by
  intro t
  have ht : Table.ofCells .standard (Table.standardCells.take 7) = .ok t := rfl
  have hs : t.entries ⊆ Table.standardRows.entries := by decide
  have hab : Parser.check ⟨.standard, t⟩ "ab" = .ok ['a', 'b'] := rfl
  have hb : Parser.check ⟨.standard, t⟩ "b" = .ok ['b'] := rfl
  refine ⟨ht, Table.standard_standard, hs, ?_, ?_⟩
  · obtain ⟨a, ha, ha', hk, _⟩ :=
      iterate_of_entries_subset ht Table.standard_standard hs hab
    cases ha
    refine ⟨_, ha', (hk 3).resolve_right fun he => ?_⟩
    have hc := congrArg status he
    contradiction
  · obtain ⟨a, _, _, _, hp⟩ := iterate_of_entries_subset ht Table.standard_standard hs hb
    have he : ((ofWord "S" ['b']).run ⟨.standard, t⟩).status = .accepted 3 := by decide +kernel
    exact ⟨_, rfl, he, hp _ rfl (.inl (congrArg Status.isAccepted he))⟩

end Analysis

end Predictive
