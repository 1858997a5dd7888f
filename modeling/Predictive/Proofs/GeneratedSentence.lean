import Mathlib.Data.List.Forall2
import Predictive.Grammar.Rules
import Predictive.Proofs.BoundedSearch

/-! Generated sentences. A call of the generator never fails on a closed grammar, it falls back on the
fixed derivation only if the grammar leaves it no other way, and every sentence within the bounds
comes out for some orders. No prefix of a derivation within the bounds is cut off, since its form
has no more letters than the sentence. -/
namespace Predictive

namespace Generator

variable {σ τ : Type} {g : Grammar} {source : Source σ}

/-- A derivation of a sentence, both within the bounds of the settings. -/
def Within (g : Grammar) (bounds : Settings) (d : Derivation) (sentence : String) : Prop :=
  d.Yields g sentence ∧ d.length ≤ bounds.maxDepth ∧ sentence.length ≤ bounds.maxLength

theorem exists_within_iff {bounds : Settings} {d : Derivation} :
    (∃ sentence, Within g bounds d sentence) ↔
      g.Completes bounds.maxLength bounds.maxDepth g.startForm d.choices := by
  constructor
  · rintro ⟨sentence, hy, hd, hl⟩
    rw [← String.length_toList] at hl
    exact ⟨hd, _, hl, Grammar.chooseAll_of_derives (Derivation.yields_iff.1 hy)⟩
  · rintro ⟨hd, word, hl, hc⟩
    rw [← String.toList_ofList (l := word)] at hl hc
    rw [String.length_toList] at hl
    exact ⟨_, Derivation.yields_iff.2 (Grammar.derives_of_chooseAll hc), hd, hl⟩

theorem conclude_eq_ok {gen : Generator σ} {d : Derivation} {form : Form} (h : d.form g = .ok form)
    (fallback : Bool) :
    (conclude g source gen d fallback).1 = .ok ⟨form.projection, d, fallback⟩ := by
  rw [conclude, Derivation.sentence, h]
  rfl

theorem form_fixed (h : g.declares g.start = true) : ∃ form, (fixed g).form g = .ok form := by
  cases ha : g.alternatives g.start with
  | nil =>
    rw [Grammar.alternatives_eq_nil_iff, h] at ha
    contradiction
  | cons p rest =>
    have hc : g.chosen ⟨g.start, 0⟩ = .ok p := Grammar.chosen_eq_ok_iff.2 (by rw [ha]; rfl)
    exact ⟨_, Grammar.chooseAll_cons_eq_ok_iff.2 ⟨rfl, p, hc, rfl⟩⟩

theorem exists_generated (hv : g.validate = .ok ()) (hs : source.Lawful) (gen : Generator σ) :
    ∃ r, (generate g source gen).1 = .ok r ∧
      (r.fallback = false ↔ ∃ d sentence, Within g gen.settings d sentence) := by
  have hg := Grammar.validate_eq_ok_iff.1 hv
  have hd := Grammar.declaresAll_startForm hg
  have ha := Search.answers_run g hs gen.settings gen.settings.maxDepth g.startForm gen.state
  obtain ⟨o, ho⟩ := Search.run_ok hg source gen.settings gen.settings.maxDepth hd gen.state
  unfold generate
  split
  next hr =>
    rw [hr] at ho
    contradiction
  next choices t hr =>
    rw [hr] at ha
    obtain ⟨sentence, hw⟩ := exists_within_iff.2 ha
    obtain ⟨form, hf, _⟩ := hw.1
    exact ⟨_, conclude_eq_ok hf false, fun _ => ⟨⟨choices⟩, sentence, hw⟩, fun _ => rfl⟩
  next t hr =>
    rw [hr] at ha
    obtain ⟨form, hf⟩ := form_fixed hg.start
    refine ⟨_, conclude_eq_ok hf true, fun h => by contradiction, ?_⟩
    rintro ⟨d, hw⟩
    exact absurd (exists_within_iff.1 hw) (ha d.choices)

end Generator

/-! A search that is given its orders by a list goes where the list leads it: along the choices of any
derivation within the bounds, if each order begins with the next of them. -/

namespace Source

/-- Takes its orders from a list, one by one. What does not order the alternatives is passed
over, and they are tried as they are numbered; so they are when the list is used up. -/
def scripted : Source (List (List Nat)) where
  order := fun n script =>
    match script with
    | [] => (List.range n, [])
    | order :: rest => (if order.Perm (List.range n) then order else List.range n, rest)
  note := fun _ script => script

theorem order_scripted {n : Nat} {order : List Nat} (h : order.Perm (List.range n))
    (rest : List (List Nat)) : scripted.order n (order :: rest) = (order, rest) := by
  rw [scripted]
  dsimp only
  rw [if_pos h]

theorem lawful_scripted : scripted.Lawful := by
  intro n script
  cases script with
  | nil => exact .refl _
  | cons order rest =>
    rw [scripted]
    dsimp only
    split
    next h => exact h
    next => exact .refl _

end Source

namespace Search

variable {σ : Type} {g : Grammar} {source : Source σ} {bounds : Settings} {left : Nat}
  {form : Form} {c : Choice} {cs : List Choice} {p : Production} {script : List (List Nat)}

theorem run_of_head {others : List Nat} {s t u : σ} (hn : form.current? = some c.name)
    (hp : g.chosen c = .ok p) (hl : (form.expand p.rhs).terminalCount ≤ bounds.maxLength)
    (ho : source.order (g.alternatives c.name).length s = (c.index :: others, t))
    (hr : run g source bounds left (form.expand p.rhs)
      (source.note (.tried (bounds.maxDepth - (left + 1)) p) t) = (.ok (some cs), u)) :
    run g source bounds (left + 1) form s = (.ok (some (c :: cs)), u) := by
  have hd : g.declares c.name = true :=
    Grammar.declares_iff.2 ⟨p, Grammar.mem_rules_of_chosen hp⟩
  rw [run]
  simp only [hn, Grammar.productionsOf_of_declares hd, ho]
  rw [first, Grammar.chosen_eq_ok_iff.1 hp]
  dsimp only
  rw [if_neg (Nat.not_lt.2 hl), hr]

structure Prefers (g : Grammar) (order : List Nat) (c : Choice) : Prop where
  perm : order.Perm (List.range (g.alternatives c.name).length)
  head? : order.head? = some c.index

theorem exists_prefers (h : g.chosen c = .ok p) : ∃ order, Prefers g order c := by
  have hi := (List.getElem?_eq_some_iff.1 (Grammar.chosen_eq_ok_iff.1 h)).1
  exact ⟨_, (List.perm_cons_erase (List.mem_range.2 hi)).symm, rfl⟩

theorem exists_forall₂_prefers (h : g.Completes bounds.maxLength left form cs) :
    ∃ script, List.Forall₂ (Prefers g) script cs := by
  induction cs generalizing left form with
  | nil => exact ⟨[], .nil⟩
  | cons c cs ih =>
    cases left with
    | zero => exact absurd h.1 (Nat.not_succ_le_zero _)
    | succ left =>
      obtain ⟨_, p, hp, h⟩ := Grammar.completes_cons_iff.1 h
      obtain ⟨order, ho⟩ := exists_prefers hp
      obtain ⟨script, hs⟩ := ih h
      exact ⟨order :: script, .cons ho hs⟩

/-- Where each order begins with the choice to be made, the search makes these choices, and
leaves the rest of the list alone. -/
theorem run_scripted (h : g.Completes bounds.maxLength left form cs)
    (hs : List.Forall₂ (Prefers g) script cs) (rest : List (List Nat)) :
    run g .scripted bounds left form (script ++ rest) = (.ok (some cs), rest) := by
  induction hs generalizing left form with
  | nil =>
    rw [run]
    split
    next => rw [if_pos h.terminalCount_le, List.nil_append]
    next name hn => exact absurd h (Grammar.not_completes_nil hn)
  | cons ho _ ih =>
    cases left with
    | zero => exact absurd h.1 (Nat.not_succ_le_zero _)
    | succ left =>
      obtain ⟨hn, p, hp, hr⟩ := Grammar.completes_cons_iff.1 h
      obtain ⟨others, rfl⟩ := List.head?_eq_some_iff.1 ho.head?
      exact run_of_head hn hp hr.terminalCount_le (Source.order_scripted ho.perm _) (ih hr)

end Search

namespace Generator

variable {g : Grammar} {settings : Settings} {d : Derivation} {sentence : String}

/-- Every derivation within the bounds can come out of a call: some orders of the alternatives,
one for each choice, lead the search to it. -/
theorem exists_script_of_within (h : Within g settings d sentence) :
    Source.scripted.Lawful ∧ ∃ script,
      List.Forall₂ (fun order c => order.Perm (List.range (g.alternatives c.name).length))
        script d.choices ∧
      ∀ rest fallbacks, generate g .scripted ⟨settings, script ++ rest, fallbacks⟩ =
        (.ok ⟨sentence, d, false⟩, ⟨settings, rest, fallbacks⟩) := by
  have hc := exists_within_iff.1 ⟨sentence, h⟩
  obtain ⟨script, hs⟩ := Search.exists_forall₂_prefers hc
  refine ⟨Source.lawful_scripted, script, hs.imp fun _ _ ho => ho.perm, fun rest fallbacks => ?_⟩
  obtain ⟨form, hf, _, rfl⟩ := h.1
  have hd : d.sentence g = .ok form.projection := map_eq_ok_iff.2 ⟨form, hf, rfl⟩
  rw [generate, Search.run_scripted hc hs rest]
  dsimp only
  rw [conclude, hd]
  rfl

theorem exists_script_of_within_aadb :
    let d : Derivation := ⟨[⟨"S", 0⟩, ⟨"C", 0⟩, ⟨"D", 2⟩, ⟨"A", 1⟩]⟩
    Within .standard ⟨4, 4, none⟩ d "aadb" ∧ ∃ script,
      generate .standard .scripted ⟨⟨4, 4, none⟩, script, 0⟩ =
        (.ok ⟨"aadb", d, false⟩, ⟨⟨4, 4, none⟩, [], 0⟩) := by
  intro d
  have hw : Within .standard ⟨4, 4, none⟩ d "aadb" :=
    ⟨⟨_, rfl, rfl, rfl⟩, Nat.le_refl _, Nat.le_refl _⟩
  obtain ⟨_, script, _, hg⟩ := exists_script_of_within hw
  exact ⟨hw, script ++ [], hg [] 0⟩

end Generator

end Predictive
