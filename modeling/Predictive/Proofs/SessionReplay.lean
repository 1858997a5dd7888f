import Mathlib.Data.List.Infix
import Predictive.Proofs.CompleteDerivation

/-! Sessions as replays. Whatever was asked of a session, it is the one that its own choices
make out of a fresh one. This is the invariant that carries undoing, and the form and
the visited names, which are kept beside the choices, are read off it. -/
namespace Predictive

def Derivation.Through (g : Grammar) (d : Derivation) (forms : List Form) : Prop :=
  d.choices.inits.map (fun cs => (⟨cs⟩ : Derivation).form g) = forms.map .ok

theorem Derivation.through_push {g : Grammar} {d : Derivation} {forms : List Form} {c : Choice}
    {next : Form} (h : d.Through g forms) (hn : (d.push c).form g = .ok next) :
    (d.push c).Through g (forms ++ [next]) := by
  rw [Through] at h ⊢
  rw [push, List.inits_append, List.map_append, h, List.map_append]
  exact congrArg (forms.map Except.ok ++ [·]) hn

namespace Session

inductive Request where
  | apply (index : Nat)
  | undo
  | reset
deriving DecidableEq, Repr

def replay (g : Grammar) : List Nat → Session → Session
  | [], s => s
  | index :: rest, s =>
    match s.apply g index with
    | .ok (_, next) => replay g rest next
    | .error _ => s

/-- The session after a request. A refused choice leaves it alone; undoing starts afresh, so
a replay that failed would leave the choices before the failure. -/
def after (g : Grammar) (s : Session) : Request → Session
  | .apply index =>
    match s.apply g index with
    | .ok (_, next) => next
    | .error _ => s
  | .undo =>
    match s.undo g with
    | .ok (_, next) => next
    | .error _ => (start g).replay g (s.derivation.pop.2.choices.map (·.index))
  | .reset => start g

def afterAll (g : Grammar) (requests : List Request) : Session :=
  requests.foldl (after g) (start g)

variable {g : Grammar} {s next : Session} {index : Nat} {p : Production} {a b picks : List Nat}

theorem apply_eq_ok_iff : s.apply g index = .ok (p, next) ↔
    ∃ name form, s.current? = some name ∧ g.choose ⟨name, index⟩ s.form = .ok (p, form) ∧
      next = ⟨s.derivation.push ⟨name, index⟩, form, visit form.current? s.visited⟩ := by
  unfold apply
  split
  next h => simp [h]
  next name h =>
    cases hc : g.choose ⟨name, index⟩ s.form with
    | error fault => simp [h, hc]
    | ok r =>
      obtain ⟨q, form⟩ := r
      simp [h, hc, eq_comm]

theorem applyAll_cons_eq_ok_iff : applyAll g (index :: picks) s = .ok next ↔
    ∃ p mid, s.apply g index = .ok (p, mid) ∧ applyAll g picks mid = .ok next := by
  rw [applyAll]
  cases s.apply g index with
  | ok r => simp [Prod.ext_iff]
  | error fault => simp

theorem applyAll_append_eq_ok_iff : applyAll g (a ++ b) s = .ok next ↔
    ∃ mid, applyAll g a s = .ok mid ∧ applyAll g b mid = .ok next := by
  induction a generalizing s with
  | nil => simp [applyAll]
  | cons index rest ih =>
    simp only [List.cons_append, applyAll_cons_eq_ok_iff, ih]
    constructor
    · rintro ⟨p, m, hm, mid, ha, hb⟩
      exact ⟨mid, ⟨p, m, hm, ha⟩, hb⟩
    · rintro ⟨mid, ⟨p, m, hm, ha⟩, hb⟩
      exact ⟨p, m, hm, mid, ha, hb⟩

theorem applyAll_of_chooseAll {cs : List Choice} {form : Form}
    (h : g.chooseAll cs s.form = .ok form) :
    ∃ next, applyAll g (cs.map (·.index)) s = .ok next ∧ next.form = form := by
  induction cs generalizing s with
  | nil =>
    cases h
    exact ⟨s, rfl, rfl⟩
  | cons c rest ih =>
    obtain ⟨hc, p, hp, h⟩ := Grammar.chooseAll_cons_eq_ok_iff.1 h
    have ha := apply_eq_ok_iff.2 ⟨c.name, _, hc, Grammar.choose_eq_ok_iff.2 ⟨hc, hp, rfl⟩, rfl⟩
    obtain ⟨next, hn, hf⟩ := ih (s := ⟨_, s.form.expand p.rhs, _⟩) h
    exact ⟨next, applyAll_cons_eq_ok_iff.2 ⟨p, _, ha, hn⟩, hf⟩

theorem applyAll_induction {P : Session → Prop}
    (step : ∀ {s index p next}, P s → s.apply g index = .ok (p, next) → P next) (hs : P s)
    (h : applyAll g picks s = .ok next) : P next := by
  induction picks generalizing s with
  | nil =>
    cases h
    exact hs
  | cons index rest ih =>
    obtain ⟨p, mid, hm, h⟩ := applyAll_cons_eq_ok_iff.1 h
    exact ih (step hs hm) h

def indices (s : Session) : List Nat :=
  s.derivation.choices.map (·.index)

theorem indices_apply (h : s.apply g index = .ok (p, next)) :
    next.indices = s.indices ++ [index] := by
  obtain ⟨name, form, _, _, rfl⟩ := apply_eq_ok_iff.1 h
  exact List.map_append

theorem indices_applyAll (h : applyAll g picks s = .ok next) :
    next.indices = s.indices ++ picks := by
  induction picks generalizing s with
  | nil =>
    cases h
    exact (List.append_nil _).symm
  | cons index rest ih =>
    obtain ⟨p, mid, hm, h⟩ := applyAll_cons_eq_ok_iff.1 h
    rw [ih h, indices_apply hm, List.append_assoc]
    rfl

def Replayed (g : Grammar) (s : Session) : Prop :=
  applyAll g s.indices (start g) = .ok s

theorem replayed_of_applyAll (h : applyAll g picks (start g) = .ok s) :
    s.Replayed g := by
  rw [Replayed, indices_applyAll h]
  exact h

theorem replayed_start (g : Grammar) : (start g).Replayed g := rfl

theorem Replayed.apply (hs : s.Replayed g) (h : s.apply g index = .ok (p, next)) :
    next.Replayed g := by
  rw [Replayed, indices_apply h]
  exact applyAll_append_eq_ok_iff.2 ⟨s, hs, applyAll_cons_eq_ok_iff.2 ⟨p, next, h, rfl⟩⟩

theorem Replayed.undo (hs : s.Replayed g) :
    ∃ next, s.undo g = .ok (s.derivation.pop.1, next) ∧ next.Replayed g := by
  obtain ⟨last, hl⟩ := List.dropLast_prefix s.indices
  rw [Replayed, ← hl] at hs
  obtain ⟨mid, hm, _⟩ := applyAll_append_eq_ok_iff.1 hs
  refine ⟨mid, ?_, replayed_of_applyAll hm⟩
  rw [indices, ← List.map_dropLast] at hm
  exact congrArg (Except.map (s.derivation.pop.1, ·)) hm

theorem Replayed.after (hs : s.Replayed g) (r : Request) : (s.after g r).Replayed g := by
  cases r with
  | apply index =>
    rw [Session.after]
    split
    next p next h => exact hs.apply h
    next => exact hs
  | undo =>
    obtain ⟨next, h, hn⟩ := hs.undo
    rw [Session.after, h]
    exact hn
  | reset => exact replayed_start g

theorem replayed_afterAll (g : Grammar) (requests : List Request) :
    (afterAll g requests).Replayed g :=
  List.foldlRecOn requests (Session.after g) (replayed_start g) fun _ hs r _ => hs.after r

/-- The form is that of the choices, and the visited names are the leftmost non-terminals of
the forms that the choices went through. -/
structure Consistent (g : Grammar) (s : Session) : Prop where
  form : s.derivation.form g = .ok s.form
  visited : ∃ forms, s.derivation.Through g forms ∧
    s.visited = (forms.filterMap Form.current?).eraseDups

theorem consistent_start (g : Grammar) : (start g).Consistent g where
  form := rfl
  visited := ⟨[g.startForm], rfl, rfl⟩

theorem visit_eraseDups (name : Option String) (names : List String) :
    visit name names.eraseDups = (names ++ name.toList).eraseDups := by
  cases name with
  | none => simp [visit]
  | some name =>
    rw [Option.toList_some, Grammar.eraseDups_concat]
    by_cases h : name ∈ names <;> simp [visit, h]

theorem Consistent.apply (hs : s.Consistent g) (h : s.apply g index = .ok (p, next)) :
    next.Consistent g := by
  obtain ⟨name, form, _, hc, rfl⟩ := apply_eq_ok_iff.1 h
  have hf : (s.derivation.push ⟨name, index⟩).form g = .ok form := by
    rw [Derivation.form_push, hs.form]
    exact congrArg (Except.map (·.2)) hc
  obtain ⟨forms, ht, hv⟩ := hs.visited
  refine ⟨hf, forms ++ [form], Derivation.through_push ht hf, ?_⟩
  dsimp only
  rw [hv, visit_eraseDups, List.filterMap_append]
  cases h : form.current? <;> simp [h]

theorem Replayed.consistent (hs : s.Replayed g) : s.Consistent g :=
  applyAll_induction Consistent.apply (consistent_start g) hs

/-- After any requests, granted or refused, a session is the replay of its choices: its form
is the form of its derivation, and it has visited the leftmost non-terminals that the
derivation went through, each at its first turn. -/
theorem afterAll_replays (g : Grammar) (requests : List Request) :
    let s := afterAll g requests
    s.derivation.form g = .ok s.form ∧
      (∃ forms, s.derivation.Through g forms ∧
        s.visited = (forms.filterMap Form.current?).eraseDups) ∧
      applyAll g (s.derivation.choices.map (·.index)) (start g) = .ok s := by
  have h := replayed_afterAll g requests
  exact ⟨h.consistent.form, h.consistent.visited, h⟩

end Session

end Predictive
