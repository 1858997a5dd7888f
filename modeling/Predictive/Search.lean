import Predictive.Derivation
import Predictive.Random
import Predictive.Settings

/-! Bounded search for a sentence. Branches are tried in an order that comes from outside, so that what
a search can find is a matter of the grammar and the bounds and not of chance. When no sentence fits
the bounds, the first production of the start symbol is used instead, and the result says so. -/
namespace Predictive

inductive Event where
  | tooDeep
  | tooLong (production : Production)
  | tried (depth : Nat) (production : Production)
  | exhausted (maxLength : Nat) (start : String)
  | generated (sentence : String) (choices : Nat)
deriving DecidableEq, Repr

/-- Where a search takes its orders from, and where it reports what happens. -/
structure Source (σ : Type) where
  order : Nat → σ → List Nat × σ
  note : Event → σ → σ

namespace Source

def random : Source Random.Stream where
  order := Random.order
  note := fun _ s => s

def noting (source : Source σ) : Source (σ × List Event) where
  order := fun n s =>
    let (order, t) := source.order n s.1
    (order, t, s.2)
  note := fun event s => (source.note event s.1, event :: s.2)

/-- Every order lists each number below `n` once. -/
def Lawful (source : Source σ) : Prop :=
  ∀ n s, (source.order n s).1.Perm (List.range n)

theorem lawful_random : random.Lawful :=
  Random.perm_order

end Source

namespace Search

def first (attempt : Nat → σ → Except Fault (Option α) × σ) :
    List Nat → σ → Except Fault (Option α) × σ
  | [], s => (.ok none, s)
  | i :: rest, s =>
    match attempt i s with
    | (.ok none, s) => first attempt rest s
    | (.ok (some a), s) => (.ok (some a), s)
    | (.error fault, s) => (.error fault, s)

/-- Choices that make a sentence within the bounds out of a form, `left` of them at
most; `none` when the branches are exhausted. -/
def run (g : Grammar) (source : Source σ) (bounds : Settings) :
    Nat → Form → σ → Except Fault (Option (List Choice)) × σ
  | left, form, s =>
    match form.current? with
    | none => (.ok (if form.terminalCount ≤ bounds.maxLength then some [] else none), s)
    | some name =>
      match left with
      | 0 => (.ok none, source.note .tooDeep s)
      | left + 1 =>
        match g.productionsOf name with
        | .error fault => (.error fault, s)
        | .ok ps =>
          let (order, s) := source.order ps.length s
          first
            (fun i s =>
              match ps[i]? with
              | none => (.ok none, s)
              | some p =>
                let next := form.expand p.rhs
                if next.terminalCount > bounds.maxLength then
                  (.ok none, source.note (.tooLong p) s)
                else
                  match run g source bounds left next
                      (source.note (.tried (bounds.maxDepth - (left + 1)) p) s) with
                  | (.ok (some rest), s) => (.ok (some (⟨name, i⟩ :: rest)), s)
                  | (.ok none, s) => (.ok none, s)
                  | (.error fault, s) => (.error fault, s))
            order s

end Search

structure Generated where
  sentence : String
  derivation : Derivation
  fallback : Bool
deriving DecidableEq, Repr

structure Generator (σ : Type) where
  settings : Settings
  state : σ
  fallbacks : Nat

namespace Generator

def ofState (settings : Settings) (state : σ) : Generator σ :=
  ⟨settings, state, 0⟩

/-- The derivation to use when the search has found none. -/
def fixed (g : Grammar) : Derivation :=
  ⟨[⟨g.start, 0⟩]⟩

def conclude (g : Grammar) (source : Source σ) (gen : Generator σ) (d : Derivation)
    (fallback : Bool) : Except Fault Generated × Generator σ :=
  match d.sentence g with
  | .error fault => (.error fault, gen)
  | .ok sentence =>
    (.ok ⟨sentence, d, fallback⟩,
      { gen with state := source.note (.generated sentence d.length) gen.state })

def generate (g : Grammar) (source : Source σ) (gen : Generator σ) :
    Except Fault Generated × Generator σ :=
  match Search.run g source gen.settings gen.settings.maxDepth g.startForm gen.state with
  | (.error fault, s) => (.error fault, { gen with state := s })
  | (.ok (some choices), s) => conclude g source { gen with state := s } ⟨choices⟩ false
  | (.ok none, s) =>
    conclude g source
      { gen with
        state := source.note (.exhausted gen.settings.maxLength g.start) s
        fallbacks := gen.fallbacks + 1 }
      (fixed g) true

end Generator

end Predictive
