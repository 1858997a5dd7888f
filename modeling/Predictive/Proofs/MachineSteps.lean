import Mathlib.Data.Nat.Find
import Mathlib.Logic.Function.Iterate
import Predictive.Analysis
import Predictive.Proofs.Productions

/-! Single steps of an analysis. A sentence that may be analysed is what is left between the blanks
at its ends, over the alphabet alone. As long as neither end-marker is touched, a configuration is a
form that is still pending and a word that is still ahead; what a step can do to these is said once,
by `step_cases`. -/
namespace Predictive

theorem trim_of_forall {cs : List Char} (h : ∀ c ∈ cs, isBlank c = false) : trim cs = cs := by
  have hd (l : List Char) (hl : ∀ c ∈ l, isBlank c = false) : l.dropWhile isBlank = l := by
    cases l with
    | nil => rfl
    | cons c rest => rw [List.dropWhile_cons, hl c List.mem_cons_self]; rfl
  rw [trim, hd cs h, hd _ (fun c hc => h c (List.mem_reverse.1 hc)), List.reverse_reverse]

namespace Parser

variable {p : Parser} {input : String} {word : List Char}

theorem foreign?_eq_none_iff : p.foreign? word = none ↔ ∀ c ∈ word, c ∈ p.alphabet := by
  rw [foreign?, List.find?_eq_none]
  constructor
  · intro h c hc
    obtain ⟨i, hi⟩ := List.mem_iff_getElem?.1 hc
    simpa using h (c, i) (List.mk_mem_zipIdx_iff_getElem?.2 hi)
  · intro h s hs
    simpa using h s.1 (List.fst_mem_of_mem_zipIdx hs)

theorem check_eq_ok_iff : p.check input = .ok word ↔
    trim input.toList = word ∧ word ≠ [] ∧ ∀ c ∈ word, c ∈ p.alphabet := by
  unfold check
  dsimp only
  split
  next h =>
    refine ⟨fun h => by contradiction, fun hc => ?_⟩
    exact absurd (hc.1.symm.trans h) hc.2.1
  next h =>
    split
    next c i hf =>
      refine ⟨fun h => by contradiction, fun hc => ?_⟩
      rw [hc.1, foreign?_eq_none_iff.2 hc.2.2] at hf
      contradiction
    next hf =>
      rw [foreign?_eq_none_iff] at hf
      constructor
      · intro he
        cases he
        exact ⟨rfl, h, hf⟩
      · intro hc
        rw [hc.1]

theorem check_of_letters (hne : input ≠ "") (h : ∀ c ∈ input.toList, c ∈ p.alphabet) :
    p.check input = .ok input.toList := by
  refine check_eq_ok_iff.2 ⟨trim_of_forall fun c hc => ?_, ?_, h⟩
  · exact (Grammar.letter_spellable (h c hc)).2
  · simpa using hne

theorem endMarker_notMem_of_check (h : p.check input = .ok word) : endMarker ∉ word := fun hm =>
  (Grammar.letter_spellable ((check_eq_ok_iff.1 h).2.2 _ hm)).1 rfl

theorem parse_eq_run (h : p.check input = .ok word) :
    p.parse input = .ok ((Analysis.ofWord p.grammar.start word).run p) := by
  rw [parse, Analysis.start, h]
  rfl

end Parser

namespace Configuration

/-- The configuration with a form still to be read off a word, end-markers added. -/
def reading (pending : Form) (ahead : List Char) : Configuration :=
  ⟨pending ++ [.terminal endMarker], ahead ++ [endMarker]⟩

variable {pending form : Form} {ahead word : List Char}

theorem initial_eq_reading (start : String) (word : List Char) :
    initial start word = reading [.nonterminal start] word := rfl

@[simp] theorem lookahead_reading (pending : Form) (ahead : List Char) :
    (reading pending ahead).lookahead = ahead.headD endMarker := by
  cases ahead with
  | nil => rfl
  | cons c rest => rfl

@[simp] theorem isFinal_reading :
    (reading pending ahead).isFinal = true ↔ pending = [] ∧ ahead = [] := by
  simp [isFinal, reading]

theorem prescribed?_bottom (t : Table) (word : List Char) :
    (reading [] word).prescribed? t =
      if endMarker = word.headD endMarker then some (.matched endMarker)
      else some (.mismatch endMarker (word.headD endMarker)) := by
  rw [← lookahead_reading [] word]
  rfl

theorem prescribed?_terminal (t : Table) (c : Char) (form : Form) (word : List Char) :
    (reading (.terminal c :: form) word).prescribed? t =
      if c = word.headD endMarker then some (.matched c)
      else some (.mismatch c (word.headD endMarker)) := by
  rw [← lookahead_reading (.terminal c :: form) word]
  rfl

theorem prescribed?_nonterminal (t : Table) (name : String) (form : Form) (word : List Char) :
    (reading (.nonterminal name :: form) word).prescribed? t =
      match t.entry name (word.headD endMarker) with
      | some q => some (.applied q)
      | none => some (.noEntry name (word.headD endMarker)) := by
  rw [← lookahead_reading (.nonterminal name :: form) word]
  rfl

@[simp] theorem after_matched (a c : Char) (form : Form) (word : List Char) :
    (reading (.terminal c :: form) (c :: word)).after (.matched a) = reading form word := rfl

@[simp] theorem after_applied (p : Production) (name : String) (form : Form) (word : List Char) :
    (reading (.nonterminal name :: form) word).after (.applied p) =
      reading (p.rhs ++ form) word := by
  simp [reading, after]

end Configuration

/-- The end-marker is in neither of the two, so that it only stands for their ends. -/
structure Unmarked (pending : Form) (ahead : List Char) : Prop where
  pending : .terminal endMarker ∉ pending
  ahead : endMarker ∉ ahead

namespace Unmarked

variable {form : Form} {word : List Char}

theorem letter {c d : Char} (h : Unmarked (.terminal c :: form) (d :: word)) : Unmarked form word :=
  ⟨fun hm => h.pending (List.mem_cons_of_mem _ hm), fun hm => h.ahead (List.mem_cons_of_mem _ hm)⟩

theorem choice {g : Grammar} {q : Production} {name : String} (hq : q ∈ g.rules)
    (h : Unmarked (.nonterminal name :: form) word) : Unmarked (q.rhs ++ form) word := by
  refine ⟨fun hm => ?_, h.ahead⟩
  rcases List.mem_append.1 hm with hm | hm
  · exact (g.spellable q hq _ hm).1 rfl
  · exact h.pending (List.mem_cons_of_mem _ hm)

end Unmarked

def Action.production? : Action → Option Production
  | .applied p => some p
  | _ => none

namespace Analysis

def applied (a : Analysis) : List Production :=
  a.trace.filterMap (·.action.production?)

@[simp] theorem applied_record (a : Analysis) (action : Action) :
    (a.record action).applied = a.applied ++ action.production?.toList := by
  rw [applied, applied, trace, trace, record_history, List.reverse_cons, List.filterMap_append]
  cases action <;> rfl

@[simp] theorem configuration_perform (a : Analysis) (action : Action) :
    (a.perform action).configuration = a.configuration.after action := rfl

@[simp] theorem steps_perform (a : Analysis) (action : Action) :
    (a.perform action).steps = a.steps + 1 := rfl

@[simp] theorem status_perform (a : Analysis) (action : Action) :
    (a.perform action).status = .ofAction action := rfl

@[simp] theorem applied_perform (a : Analysis) (action : Action) :
    (a.perform action).applied = a.applied ++ action.production?.toList :=
  applied_record _ action

@[simp] theorem configuration_settle (a : Analysis) :
    a.settle.configuration = a.configuration := by
  unfold settle
  split <;> rfl

@[simp] theorem steps_settle (a : Analysis) : a.settle.steps = a.steps := by
  unfold settle
  split <;> rfl

@[simp] theorem applied_settle (a : Analysis) : a.settle.applied = a.applied := by
  unfold settle
  split
  · rw [applied_record]
    exact List.append_nil _
  · rfl

theorem settle_of_ne_running {a : Analysis} (h : a.status ≠ .running) : a.settle = a :=
  if_neg fun hc => h hc.1

theorem status_settle_of_running {a : Analysis} (h : a.status = .running) :
    a.settle.status = if a.configuration.isFinal then .accepted a.steps else .running := by
  unfold settle
  split
  next hf => rw [if_pos hf.2, record_status]
  next hf => rw [if_neg fun hc => hf ⟨h, hc⟩, h]

theorem isAccepted_settle {a : Analysis} (h : a.status = .running) :
    a.settle.status.isAccepted = a.configuration.isFinal := by
  rw [status_settle_of_running h]
  cases a.configuration.isFinal <;> rfl

variable {p : Parser} {a : Analysis} {pending form : Form} {ahead word : List Char}

theorem configuration_letter {c : Char}
    (hc : a.configuration = .reading (.terminal c :: form) (c :: word)) :
    (a.perform (.matched c)).settle.configuration = .reading form word := by
  rw [configuration_settle, configuration_perform, hc, Configuration.after_matched]

theorem configuration_choice {name : String}
    (hc : a.configuration = .reading (.nonterminal name :: form) word) (q : Production) :
    (a.perform (.applied q)).settle.configuration = .reading (q.rhs ++ form) word := by
  rw [configuration_settle, configuration_perform, hc, Configuration.after_applied]

theorem isAccepted_settle_iff (hr : a.status = .running)
    (hc : a.settle.configuration = .reading pending ahead) :
    a.settle.status.isAccepted = true ↔ pending = [] ∧ ahead = [] := by
  rw [configuration_settle] at hc
  rw [isAccepted_settle hr, hc, Configuration.isFinal_reading]

theorem step_of_prescribed {action : Action} (hr : a.status = .running)
    (h : a.configuration.prescribed? p.table = some action) :
    a.step p = (a.perform action).settle := by
  rw [step, isFinished, hr, h]
  rfl

theorem step_of_idle (h : a.configuration.prescribed? p.table = none) : a.step p = a := by
  rw [step, h]
  exact ite_self a

theorem step_letter {c : Char} (hr : a.status = .running)
    (hc : a.configuration = .reading (.terminal c :: form) (c :: word)) :
    a.step p = (a.perform (.matched c)).settle := by
  apply step_of_prescribed hr
  rw [hc, Configuration.prescribed?_terminal]
  exact if_pos rfl

theorem step_choice {name : String} {q : Production} (hr : a.status = .running)
    (hc : a.configuration = .reading (.nonterminal name :: form) word)
    (he : p.table.entry name (word.headD endMarker) = some q) :
    a.step p = (a.perform (.applied q)).settle := by
  apply step_of_prescribed hr
  rw [hc, Configuration.prescribed?_nonterminal, he]

theorem step_mismatch {c d : Char} (hr : a.status = .running)
    (hp : a.configuration.prescribed? p.table = some (.mismatch c d)) :
    a.step p = a.perform (.mismatch c d) := by
  rw [step_of_prescribed hr hp]
  exact settle_of_ne_running (by simp [Status.ofAction])

theorem step_noEntry {name : String} {d : Char} (hr : a.status = .running)
    (hp : a.configuration.prescribed? p.table = some (.noEntry name d)) :
    a.step p = a.perform (.noEntry name d) := by
  rw [step_of_prescribed hr hp]
  exact settle_of_ne_running (by simp [Status.ofAction])

/-- Everything that a step can do before the two end-markers meet: read a letter, apply an
entry, or refuse, with the letter or the name that it had in front. -/
theorem step_cases (hr : a.status = .running) (hc : a.configuration = .reading pending ahead)
    (ho : ¬(pending = [] ∧ ahead = [])) (hm : Unmarked pending ahead) (p : Parser) :
    (∃ c form word, pending = .terminal c :: form ∧ ahead = c :: word ∧
      a.step p = (a.perform (.matched c)).settle) ∨
    (∃ name form q, pending = .nonterminal name :: form ∧
      p.table.entry name (ahead.headD endMarker) = some q ∧
      a.step p = (a.perform (.applied q)).settle) ∨
    (∃ c, pending.headD (.terminal endMarker) = .terminal c ∧ c ≠ ahead.headD endMarker ∧
      a.step p = a.perform (.mismatch c (ahead.headD endMarker))) ∨
    (∃ name form, pending = .nonterminal name :: form ∧
      p.table.entry name (ahead.headD endMarker) = none ∧
      a.step p = a.perform (.noEntry name (ahead.headD endMarker))) := by
  match pending, ahead with
  | [], [] => exact absurd ⟨rfl, rfl⟩ ho
  | [], d :: word =>
    have hd : endMarker ≠ d := fun h => hm.ahead (h ▸ List.mem_cons_self)
    have hp := Configuration.prescribed?_bottom p.table (d :: word)
    rw [List.headD_cons, if_neg hd, ← hc] at hp
    exact .inr (.inr (.inl ⟨endMarker, rfl, hd, step_mismatch hr hp⟩))
  | .terminal c :: form, ahead =>
    have hp := Configuration.prescribed?_terminal p.table c form ahead
    rw [← hc] at hp
    split at hp
    next he =>
      cases ahead with
      | nil => exact absurd (he ▸ List.mem_cons_self) hm.pending
      | cons d word =>
        rw [List.headD_cons] at he
        subst he
        exact .inl ⟨c, form, word, rfl, rfl, step_letter hr hc⟩
    next he => exact .inr (.inr (.inl ⟨c, rfl, he, step_mismatch hr hp⟩))
  | .nonterminal name :: form, ahead =>
    have hp := Configuration.prescribed?_nonterminal p.table name form ahead
    rw [← hc] at hp
    split at hp
    next q he => exact .inr (.inl ⟨name, form, q, rfl, he, step_choice hr hc he⟩)
    next he => exact .inr (.inr (.inr ⟨name, form, rfl, he, step_noEntry hr hp⟩))

theorem isFinished_of_isAccepted (h : a.status.isAccepted = true) : a.isFinished = true := by
  unfold isFinished
  cases hs : a.status with
  | accepted n => rfl
  | running | mismatch _ _ | noEntry _ _ =>
    rw [hs] at h
    contradiction

theorem isFinished_of_running (h : a.status = .running) : a.isFinished = false := by
  rw [isFinished, h]
  rfl

theorem isFinished_of_ne_running (h : a.status ≠ .running) : a.isFinished = true := by
  cases hs : a.status <;> simp_all [isFinished, Status.isFinished]

theorem verdict_of_isFinished (h : a.isFinished = true) :
    (∃ steps, a.status = .accepted steps) ∨
      (∃ expected found, a.status = .mismatch expected found) ∨
      ∃ name lookahead, a.status = .noEntry name lookahead := by
  rw [isFinished] at h
  cases hs : a.status with
  | running =>
    rw [hs] at h
    contradiction
  | accepted steps => exact .inl ⟨steps, rfl⟩
  | mismatch expected found => exact .inr (.inl ⟨expected, found, rfl⟩)
  | noEntry name lookahead => exact .inr (.inr ⟨name, lookahead, rfl⟩)

theorem iterate_of_isFinished (h : a.isFinished = true) (n : Nat) : (step p)^[n] a = a :=
  Function.iterate_fixed (step_of_isFinished p h) n

theorem iterate_eq_of_isFinished {m n : Nat} (hm : ((step p)^[m] a).isFinished = true)
    (hn : ((step p)^[n] a).isFinished = true) : (step p)^[m] a = (step p)^[n] a := by
  rcases Nat.le_total m n with h | h
  · rw [← Nat.sub_add_cancel h, Function.iterate_add_apply, iterate_of_isFinished hm]
  · rw [← Nat.sub_add_cancel h, Function.iterate_add_apply, iterate_of_isFinished hn]

theorem runWithin_eq_iterate (p : Parser) (n : Nat) (a : Analysis) :
    a.runWithin p n = (step p)^[n] a := by
  induction n generalizing a with
  | zero => rfl
  | succ n ih =>
    rw [runWithin, Function.iterate_succ_apply]
    split
    next h => rw [step_of_isFinished p h, iterate_of_isFinished h]
    next => exact ih _

theorem run_eq_iterate (p : Parser) (a : Analysis) : a.run p = (step p)^[a.limit p] a :=
  runWithin_eq_iterate p _ a

theorem run_of_iterate {n : Nat} (h : ((step p)^[n] a).isFinished = true) (hn : n ≤ a.limit p) :
    a.run p = (step p)^[n] a := by
  rw [run_eq_iterate, ← Nat.sub_add_cancel hn, Function.iterate_add_apply,
    iterate_of_isFinished h]

theorem exists_run_eq_iterate (h : (a.run p).isFinished = true) :
    ∃ n, (∀ m < n, ((step p)^[m] a).status = .running) ∧ a.run p = (step p)^[n] a := by
  rw [run_eq_iterate] at h ⊢
  have he : ∃ n, ((step p)^[n] a).isFinished = true := ⟨_, h⟩
  refine ⟨Nat.find he, fun m hm => ?_, iterate_eq_of_isFinished h (Nat.find_spec he)⟩
  by_contra hr
  exact Nat.find_min he hm (isFinished_of_ne_running hr)

end Analysis

end Predictive
