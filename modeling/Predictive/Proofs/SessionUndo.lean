import Mathlib.Data.List.Induction
import Predictive.Grammar.Rules
import Predictive.Proofs.SessionReplay

/-! Undoing. A session is edited in place, so an edit that was made before a failure would
stay; here the operations are written with such edits. Applying fails before its first
edit, and undoing, which starts afresh and applies the choices again, does not fail. -/
namespace Predictive.Session

namespace InPlace

def expand (g : Grammar) (c : Choice) : EStateM Fault Session Production := do
  if (← get).form.current? = some c.name then
    let p ← MonadExcept.ofExcept (g.chosen c)
    modify fun s => { s with form := s.form.expand p.rhs }
    return p
  else throw (.notLeftmost c.name)

def apply (g : Grammar) (index : Nat) : EStateM Fault Session Production := do
  match (← get).current? with
  | none => throw .alreadyComplete
  | some name =>
    let p ← expand g ⟨name, index⟩
    modify fun s => { s with derivation := s.derivation.push ⟨name, index⟩ }
    modify fun s => { s with visited := visit s.current? s.visited }
    return p

def applyAll (g : Grammar) : List Nat → EStateM Fault Session Unit
  | [] => return
  | index :: rest => do
    let _ ← apply g index
    applyAll g rest

def undo (g : Grammar) : EStateM Fault Session (Option Choice) := do
  let (undone, kept) := (← get).derivation.pop
  set (start g)
  applyAll g (kept.choices.map (·.index))
  return undone

theorem run_expand (g : Grammar) (c : Choice) (s : Session) :
    (expand g c).run s =
      match g.choose c s.form with
      | .ok (p, form) => .ok p { s with form := form }
      | .error fault => .error fault s := by
  unfold expand Grammar.choose
  rw [EStateM.run_bind, EStateM.run_get]
  by_cases h : s.form.current? = some c.name
  · simp only [h, if_true]
    rw [EStateM.run_bind]
    cases g.chosen c <;> rfl
  · simp only [h, if_false]
    rfl

theorem run_apply (g : Grammar) (index : Nat) (s : Session) :
    (apply g index).run s =
      match s.apply g index with
      | .ok (p, next) => .ok p next
      | .error fault => .error fault s := by
  unfold apply Session.apply
  rw [EStateM.run_bind, EStateM.run_get]
  cases hc : s.current? with
  | none => simp only [hc]; rfl
  | some name =>
    simp only [hc]
    rw [EStateM.run_bind, run_expand]
    cases g.choose ⟨name, index⟩ s.form <;> rfl

theorem run_applyAll (g : Grammar) (picks : List Nat) (s : Session) :
    (applyAll g picks).run s =
      match Session.applyAll g picks s with
      | .ok next => .ok () next
      | .error fault => .error fault (replay g picks s) := by
  induction picks generalizing s with
  | nil => rfl
  | cons index rest ih =>
    rw [applyAll, Session.applyAll, replay, EStateM.run_bind, run_apply]
    cases s.apply g index with
    | ok r => exact ih r.2
    | error fault => rfl

theorem run_undo (g : Grammar) (s : Session) :
    (undo g).run s =
      match s.undo g with
      | .ok (undone, next) => .ok undone next
      | .error fault => .error fault (s.after g .undo) := by
  rw [undo, EStateM.run_bind, EStateM.run_get]
  dsimp only
  rw [EStateM.run_bind, EStateM.run_set]
  dsimp only
  rw [EStateM.run_bind, run_applyAll, after, Session.undo]
  dsimp only
  cases Session.applyAll g (s.derivation.pop.2.choices.map (·.index)) (start g) with
  | ok next => rfl
  | error fault => rfl

end InPlace

def undoTimes (g : Grammar) : Nat → Session → Except Fault Session
  | 0, s => .ok s
  | n + 1, s =>
    match s.undo g with
    | .ok (_, next) => undoTimes g n next
    | .error fault => .error fault

variable {g : Grammar} {s next : Session} {index : Nat} {p : Production} {picks : List Nat}

theorem Replayed.undo_apply (hs : s.Replayed g) (h : s.apply g index = .ok (p, next)) :
    ∃ name, s.current? = some name ∧ next.derivation = s.derivation.push ⟨name, index⟩ ∧
      next.undo g = .ok (some ⟨name, index⟩, s) := by
  obtain ⟨name, form, hn, _, rfl⟩ := apply_eq_ok_iff.1 h
  refine ⟨name, hn, rfl, ?_⟩
  rw [Session.undo, Derivation.pop_push]
  exact map_eq_ok_iff.2 ⟨s, hs, rfl⟩

theorem Replayed.eq_start (hs : s.Replayed g) (h : s.derivation.choices = []) : s = start g := by
  rw [Replayed, indices, h] at hs
  cases hs
  rfl

theorem Replayed.undo_eq_none_iff (hs : s.Replayed g) :
    s.undo g = .ok (none, next) ↔ s.derivation.choices = [] ∧ next = s := by
  obtain ⟨kept, hu, _⟩ := hs.undo
  constructor
  · intro h
    have hl : s.derivation.choices = [] := by
      rw [hu] at h
      cases hp : s.derivation.choices.getLast? with
      | none => exact List.getLast?_eq_none_iff.1 hp
      | some c => simp [Derivation.pop, hp] at h
    rw [hs.eq_start hl] at h ⊢
    cases h
    exact ⟨rfl, rfl⟩
  · rintro ⟨hl, rfl⟩
    rw [hs.eq_start hl]
    rfl

theorem Replayed.undoTimes (hs : s.Replayed g) (h : applyAll g picks s = .ok next) :
    next.undoTimes g picks.length = .ok s := by
  induction picks using List.reverseRecOn generalizing next with
  | nil =>
    cases h
    rfl
  | append_singleton picks index ih =>
    obtain ⟨mid, hm, h⟩ := applyAll_append_eq_ok_iff.1 h
    obtain ⟨p, last, hl, h⟩ := applyAll_cons_eq_ok_iff.1 h
    cases h
    have hr : mid.Replayed g := applyAll_induction Replayed.apply hs hm
    obtain ⟨name, _, _, hu⟩ := hr.undo_apply hl
    rw [List.length_append, List.length_singleton, Session.undoTimes, hu]
    exact ih hm

/-- Undoing is the inverse of applying. After any requests a session takes back the choice that
was just made, and as many choices as were made, to what it was; undoing fails for no
session, and does nothing only where there is nothing to undo. A choice that is refused leaves
all parts of the session as they were, although they are edited one after the other. -/
theorem undo_inverts_apply (g : Grammar) (requests : List Request) :
    let s := afterAll g requests
    (∀ index p next, s.apply g index = .ok (p, next) →
      ∃ name, s.current? = some name ∧ next.derivation = s.derivation.push ⟨name, index⟩ ∧
        next.undo g = .ok (some ⟨name, index⟩, s)) ∧
    (∃ undone next, s.undo g = .ok (undone, next) ∧ (InPlace.undo g).run s = .ok undone next) ∧
    (∀ next, s.undo g = .ok (none, next) ↔ s.derivation.choices = [] ∧ next = s) ∧
    (∀ picks next, applyAll g picks s = .ok next → next.undoTimes g picks.length = .ok s) ∧
    ∀ index, (InPlace.apply g index).run s =
      match s.apply g index with
      | .ok (p, next) => .ok p next
      | .error fault => .error fault s := by
  have hs := replayed_afterAll g requests
  refine ⟨fun _ _ _ => hs.undo_apply, ?_, fun _ => hs.undo_eq_none_iff,
    fun _ _ => hs.undoTimes, fun index => InPlace.run_apply g index _⟩
  obtain ⟨next, hu, _⟩ := hs.undo
  refine ⟨_, next, hu, ?_⟩
  rw [InPlace.run_undo, hu]

theorem undo_inverts_apply_ab :
    let s := afterAll .standard [.apply 0, .apply 3]
    ∃ next, s.apply .standard 2 = .ok (⟨"C", []⟩, next) ∧ next.text = "ab" ∧
      next.undo .standard = .ok (some ⟨"C", 2⟩, s) := by
  obtain ⟨name, hn, _, hu⟩ :=
    (undo_inverts_apply .standard [.apply 0, .apply 3]).1 2 ⟨"C", []⟩ _ rfl
  cases hn
  exact ⟨_, rfl, by decide, hu⟩

end Predictive.Session
