import Predictive.Proofs.ClosedGrammar

/-! Searching in place. A search can keep its choices in one derivation that is shared by all
branches: a choice is pushed before its branch is tried and popped when the branch is given
up, and the form is computed from the derivation each time. Then a branch that is given up has
to leave the derivation as it was, since the next one goes on with it. -/
namespace Predictive.Search

namespace InPlace

variable {σ : Type}

abbrev Program (σ : Type) := EStateM Fault (Derivation × σ)

def push (c : Choice) : Program σ Unit :=
  modify fun s => (s.1.push c, s.2)

def pop : Program σ Unit :=
  modify fun s => (s.1.pop.2, s.2)

def note (source : Source σ) (event : Event) : Program σ Unit :=
  modify fun s => (s.1, source.note event s.2)

def order (source : Source σ) (n : Nat) : Program σ (List Nat) :=
  modifyGet fun s => ((source.order n s.2).1, s.1, (source.order n s.2).2)

def form (g : Grammar) : Program σ Form := do
  MonadExcept.ofExcept ((← get).1.form g)

def tryEach (attempt : Nat → Program σ Bool) : List Nat → Program σ Bool
  | [] => return false
  | i :: rest => do
    if ← attempt i then return true
    tryEach attempt rest

/-- Makes a choice and goes deeper; takes the choice back unless that succeeds. -/
def attempt (g : Grammar) (source : Source σ) (bounds : Settings) (depth : Nat)
    (deeper : Form → Program σ Bool) (c : Choice) : Program σ Bool := do
  push c
  let next ← form g
  let p ← MonadExcept.ofExcept (g.chosen c)
  if next.terminalCount > bounds.maxLength then
    note source (.tooLong p)
    pop
    return false
  note source (.tried depth p)
  if ← deeper next then return true
  pop
  return false

def search (g : Grammar) (source : Source σ) (bounds : Settings) (current : Form) (depth : Nat) :
    Program σ Bool :=
  match current.current? with
  | none => return decide (current.terminalCount ≤ bounds.maxLength)
  | some name =>
    if _h : depth < bounds.maxDepth then do
      let ps ← MonadExcept.ofExcept (g.productionsOf name)
      let numbers ← order source ps.length
      tryEach (fun i => attempt g source bounds depth
        (fun next => search g source bounds next (depth + 1)) ⟨name, i⟩) numbers
    else do
      note source .tooDeep
      return false
termination_by bounds.maxDepth - depth
decreasing_by omega

/-- What a search in place leaves behind, told by what a search finds: the choices that were found
are added to the derivation, and if there are none it is as it was before. -/
inductive Leaves (d : Derivation) : Except Fault (Option (List Choice)) × σ →
    EStateM.Result Fault (Derivation × σ) Bool → Prop
  | found (cs : List Choice) (t : σ) :
    Leaves d (.ok (some cs), t) (.ok true (⟨d.choices ++ cs⟩, t))
  | exhausted (t : σ) : Leaves d (.ok none, t) (.ok false (d, t))
  | failed (fault : Fault) (d' : Derivation) (t : σ) :
    Leaves d (.error fault, t) (.error fault (d', t))

variable {g : Grammar} {source : Source σ} {bounds : Settings} {d : Derivation} {current : Form}
  {c : Choice} {p : Production} {depth : Nat}

theorem leaves_tryEach {attempt : Nat → σ → Except Fault (Option (List Choice)) × σ}
    {act : Nat → Program σ Bool} {numbers : List Nat}
    (h : ∀ i ∈ numbers, ∀ s, Leaves d (attempt i s) ((act i).run (d, s))) (s : σ) :
    Leaves d (first attempt numbers s) ((tryEach act numbers).run (d, s)) := by
  induction numbers generalizing s with
  | nil => exact .exhausted s
  | cons i rest ih =>
    have hi := h i List.mem_cons_self s
    rw [first, tryEach, EStateM.run_bind]
    generalize attempt i s = a at hi
    generalize (act i).run (d, s) = r at hi
    cases hi with
    | found cs t => exact .found cs t
    | exhausted t => exact ih (fun j hj => h j (List.mem_cons_of_mem i hj)) t
    | failed fault d' t => exact .failed fault d' t

@[simp] theorem run_push (c : Choice) (d : Derivation) (s : σ) :
    (push c).run (d, s) = .ok () (d.push c, s) := rfl

@[simp] theorem run_pop (d : Derivation) (s : σ) : pop.run (d, s) = .ok () (d.pop.2, s) := rfl

@[simp] theorem run_note (source : Source σ) (event : Event) (d : Derivation) (s : σ) :
    (note source event).run (d, s) = .ok () (d, source.note event s) := rfl

@[simp] theorem run_order (source : Source σ) (n : Nat) (d : Derivation) (s : σ) :
    (order source n).run (d, s) = .ok (source.order n s).1 (d, (source.order n s).2) := rfl

@[simp] theorem run_ofExcept_ok {α : Type} (a : α) (r : Derivation × σ) :
    (MonadExcept.ofExcept (.ok a) : Program σ α).run r = .ok a r := rfl

theorem run_form (h : d.form g = .ok current) (s : σ) :
    (form g).run (d, s) = .ok current (d, s) := by
  simp only [form, EStateM.run_bind, EStateM.run_get, h, run_ofExcept_ok]

theorem form_push_of_chosen (hf : d.form g = .ok current) (hc : current.current? = some c.name)
    (hp : g.chosen c = .ok p) : (d.push c).form g = .ok (current.expand p.rhs) := by
  rw [Derivation.form_push, hf]
  exact map_eq_ok_iff.2 ⟨_, Grammar.choose_eq_ok_iff.2 ⟨hc, hp, rfl⟩, rfl⟩

theorem run_attempt (hf : d.form g = .ok current) (hc : current.current? = some c.name)
    (hp : g.chosen c = .ok p) (deeper : Form → Program σ Bool) (s : σ) :
    (attempt g source bounds depth deeper c).run (d, s) =
      if (current.expand p.rhs).terminalCount > bounds.maxLength then
        .ok false (d, source.note (.tooLong p) s)
      else
        match (deeper (current.expand p.rhs)).run (d.push c, source.note (.tried depth p) s) with
        | .ok true r => .ok true r
        | .ok false r => .ok false (r.1.pop.2, r.2)
        | .error fault r => .error fault r := by
  have hn := form_push_of_chosen hf hc hp
  simp only [attempt, EStateM.run_bind, run_push, run_form hn, hp, run_ofExcept_ok]
  split
  next =>
    simp only [EStateM.run_bind, run_note, run_pop, Derivation.pop_push]
    rfl
  next =>
    simp only [EStateM.run_bind, run_note]
    cases (deeper (current.expand p.rhs)).run (d.push c, source.note (.tried depth p) s) with
    | ok found r => cases found <;> rfl
    | error fault r => rfl

theorem Leaves.of_push {outcome : Except Fault (Option (List Choice)) × σ}
    {result : EStateM.Result Fault (Derivation × σ) Bool} : Leaves (d.push c) outcome result →
    Leaves d
      (match outcome with
        | (.ok (some rest), s) => (.ok (some (c :: rest)), s)
        | (.ok none, s) => (.ok none, s)
        | (.error fault, s) => (.error fault, s))
      (match result with
        | .ok true r => .ok true r
        | .ok false r => .ok false (r.1.pop.2, r.2)
        | .error fault r => .error fault r) := by
  intro h
  cases h with
  | found cs t =>
    have hc : (d.push c).choices ++ cs = d.choices ++ c :: cs := by simp [Derivation.push]
    rw [hc]
    exact .found (c :: cs) t
  | exhausted t =>
    simp only [Derivation.pop_push]
    exact .exhausted t
  | failed fault d' t => exact .failed fault d' t

theorem leaves_of_isComplete (d : Derivation) (fits : Prop) [Decidable fits] (s : σ) :
    Leaves d (.ok (if fits then some [] else none), s) (.ok (decide fits) (d, s)) := by
  by_cases h : fits
  · have hf := Leaves.found (d := d) [] s
    rw [List.append_nil] at hf
    simpa [h] using hf
  · simpa [h] using Leaves.exhausted (d := d) s

/-- A search in place comes to what the search finds, and the choices of a branch that is given
up are gone from the derivation. -/
theorem leaves_search (g : Grammar) (hs : source.Lawful) (bounds : Settings)
    (hf : d.form g = .ok current) (depth : Nat) (s : σ) :
    Leaves d (run g source bounds (bounds.maxDepth - depth) current s)
      ((search g source bounds current depth).run (d, s)) := by
  generalize hl : bounds.maxDepth - depth = left
  induction left generalizing depth d current s with
  | zero =>
    have hd : ¬depth < bounds.maxDepth := by omega
    rw [run, search]
    cases hn : current.current? with
    | none => exact leaves_of_isComplete d _ s
    | some name =>
      simp only [dif_neg hd]
      exact .exhausted _
  | succ left ih =>
    have hd : depth < bounds.maxDepth := by omega
    have he : bounds.maxDepth - (left + 1) = depth := by omega
    rw [run, search]
    cases hn : current.current? with
    | none => exact leaves_of_isComplete d _ s
    | some name =>
      simp only [dif_pos hd]
      cases hps : g.productionsOf name with
      | error fault => exact .failed fault d s
      | ok ps =>
        obtain ⟨_, rfl⟩ := Grammar.productionsOf_eq_ok_iff.1 hps
        simp only [EStateM.run_bind, run_ofExcept_ok, run_order]
        refine leaves_tryEach (fun i hi t => ?_) _
        have hi : i < (g.alternatives name).length := List.mem_range.1 ((hs _ s).mem_iff.1 hi)
        have hp : g.chosen ⟨name, i⟩ = .ok (g.alternatives name)[i] :=
          Grammar.chosen_eq_ok_iff.2 (List.getElem?_eq_getElem hi)
        rw [run_attempt hf hn hp, List.getElem?_eq_getElem hi]
        dsimp only
        split
        next => exact .exhausted _
        next =>
          rw [he]
          exact (ih (form_push_of_chosen hf hn hp) (depth + 1) _ (by omega)).of_push

/-- A derivation that goes on from another by at most `left` choices, and is complete and within
the bound for its sentence. -/
def Completion (g : Grammar) (maxLength left : Nat) (d e : Derivation) : Prop :=
  ∃ cs, e.choices = d.choices ++ cs ∧ cs.length ≤ left ∧
    ∃ form, e.form g = .ok form ∧ form.isComplete = true ∧ form.terminalCount ≤ maxLength

theorem completion_iff {e : Derivation} {maxLength left : Nat} (hf : d.form g = .ok current) :
    Completion g maxLength left d e ↔
      ∃ cs, e.choices = d.choices ++ cs ∧ g.Completes maxLength left current cs := by
  refine exists_congr fun cs => and_congr_right fun he => and_congr_right fun _ => ?_
  have hc : e.form g = g.chooseAll cs current := by
    rw [Derivation.form, he, Grammar.chooseAll_append, ← Derivation.form, hf]
    rfl
  rw [hc]
  constructor
  · rintro ⟨form, hform, hi, hl⟩
    exact ⟨form.terminals, hl, by rw [hform, ← Form.isComplete_iff.1 hi]⟩
  · rintro ⟨word, hl, hw⟩
    exact ⟨Form.ofWord word, hw, Form.isComplete_ofWord word,
      by simpa [Form.terminalCount] using hl⟩

theorem exists_completion_iff {maxLength left : Nat} (hf : d.form g = .ok current) :
    (∃ e, Completion g maxLength left d e) ↔ ∃ cs, g.Completes maxLength left current cs := by
  simp only [completion_iff hf]
  constructor
  · rintro ⟨e, cs, _, hc⟩
    exact ⟨cs, hc⟩
  · rintro ⟨cs, hc⟩
    exact ⟨⟨d.choices ++ cs⟩, cs, rfl, hc⟩

/-- From any derivation with a form and at any depth, a search in place that succeeds has completed
the derivation within the bounds, and one that gives up has left it as it was, for want of a
completion. On a closed grammar it does one or the other. -/
theorem search_completes (g : Grammar) (hs : source.Lawful) (bounds : Settings) (depth : Nat)
    (hf : d.form g = .ok current) (s : σ) :
    (∀ e t, (search g source bounds current depth).run (d, s) = .ok true (e, t) →
      Completion g bounds.maxLength (bounds.maxDepth - depth) d e) ∧
    (∀ e t, (search g source bounds current depth).run (d, s) = .ok false (e, t) →
      e = d ∧ ¬∃ e, Completion g bounds.maxLength (bounds.maxDepth - depth) d e) ∧
    (g.validate = .ok () → ∃ found e t,
      (search g source bounds current depth).run (d, s) = .ok found (e, t)) ∧
    Leaves d (run g source bounds (bounds.maxDepth - depth) current s)
      ((search g source bounds current depth).run (d, s)) := by
  have ha := answers_run g hs bounds (bounds.maxDepth - depth) current s
  have hl := leaves_search g hs bounds hf depth s
  have hr (hv : g.validate = .ok ()) :
      ∃ r, (run g source bounds (bounds.maxDepth - depth) current s).1 = .ok r := by
    have hg := Grammar.validate_eq_ok_iff.1 hv
    exact run_ok hg source bounds _ ((Grammar.declaresAll_startForm hg).chooseAll hg hf) s
  rw [exists_completion_iff hf]
  generalize run g source bounds (bounds.maxDepth - depth) current s = outcome at ha hl hr ⊢
  generalize (search g source bounds current depth).run (d, s) = result at hl ⊢
  cases hl with
  | found cs t =>
    refine ⟨fun e u h => ?_, nofun, fun _ => ⟨_, _, _, rfl⟩, .found cs t⟩
    cases h
    exact (completion_iff hf).2 ⟨cs, rfl, ha⟩
  | exhausted t =>
    refine ⟨nofun, fun e u h => ?_, fun _ => ⟨_, _, _, rfl⟩, .exhausted t⟩
    cases h
    exact ⟨rfl, fun ⟨cs, hc⟩ => ha cs hc⟩
  | failed fault d' t =>
    refine ⟨nofun, nofun, fun hv => ?_, .failed fault d' t⟩
    obtain ⟨r, hr⟩ := hr hv
    contradiction

theorem search_completes_b :
    Source.random.Lawful ∧ Grammar.standard.validate = .ok () ∧
      (⟨[⟨"S", 1⟩]⟩ : Derivation).form .standard = .ok [.terminal 'b', .nonterminal "A"] ∧
      (∃ e t, (search .standard .random ⟨1, 64, none⟩ [.terminal 'b', .nonterminal "A"] 63).run
          (⟨[⟨"S", 1⟩]⟩, .ofSeed 7) = .ok true (e, t) ∧
        Completion .standard 1 1 ⟨[⟨"S", 1⟩]⟩ e) ∧
      ∃ t, (search .standard .random ⟨1, 64, none⟩ [.terminal 'b', .nonterminal "A"] 65).run
        (⟨[⟨"S", 1⟩]⟩, .ofSeed 7) = .ok false (⟨[⟨"S", 1⟩]⟩, t) := by
  have hf : (⟨[⟨"S", 1⟩]⟩ : Derivation).form .standard =
      .ok [.terminal 'b', .nonterminal "A"] := rfl
  have hc : Completion .standard 1 1 ⟨[⟨"S", 1⟩]⟩ ⟨[⟨"S", 1⟩, ⟨"A", 1⟩]⟩ :=
    ⟨[⟨"A", 1⟩], rfl, Nat.le_refl _, _, rfl, rfl, Nat.le_refl _⟩
  obtain ⟨ht, hx, hv, _⟩ := search_completes .standard Source.lawful_random ⟨1, 64, none⟩ 63 hf
    (.ofSeed 7)
  obtain ⟨ht', hx', hv', _⟩ := search_completes .standard Source.lawful_random ⟨1, 64, none⟩ 65 hf
    (.ofSeed 7)
  obtain ⟨found, e, t, hr⟩ := hv rfl
  obtain ⟨found', e', t', hr'⟩ := hv' rfl
  refine ⟨Source.lawful_random, rfl, hf, ⟨e, t, ?_⟩, t', ?_⟩
  · cases found with
    | true => exact ⟨hr, ht e t hr⟩
    | false => exact absurd ⟨_, hc⟩ (hx e t hr).2
  · cases found' with
    | true =>
      obtain ⟨cs, _, hc⟩ := (completion_iff hf).1 (ht' e' t' hr')
      cases List.length_eq_zero_iff.1 (Nat.le_zero.1 hc.1)
      exact absurd hc (Grammar.not_completes_nil rfl)
    | false => rw [hr', (hx' e' t' hr').1]

end InPlace

end Predictive.Search
