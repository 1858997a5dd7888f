import Predictive.Proofs.GeneratedSentence
import Predictive.Proofs.SessionReplay

/-! What a generated result is worth. Every result carries its derivation: one that a session can
repeat choice by choice, and within the bounds, unless the result says that it is the fixed one.
Calls do not disturb each other, since none changes the settings. -/
namespace Predictive

theorem Derivation.mem_terminals_of_sentence {g : Grammar} {d : Derivation} {s : String}
    (h : d.sentence g = .ok s) : ∀ c ∈ s.toList, c ∈ g.terminals := by
  obtain ⟨form, hf, rfl⟩ := map_eq_ok_iff.1 h
  intro c hc
  rw [Form.projection, String.toList_ofList] at hc
  exact (Grammar.mem_terminals_of_chooseAll hf c hc).resolve_left (by simp [Grammar.startForm])

theorem Session.applyAll_of_yields {g : Grammar} {d : Derivation} {sentence : String}
    (h : d.Yields g sentence) : ∃ s, applyAll g (d.choices.map (·.index)) (start g) = .ok s ∧
      s.isComplete = true ∧ s.sentence? = some sentence := by
  obtain ⟨form, hf, hc, rfl⟩ := h
  obtain ⟨s, hs, rfl⟩ := applyAll_of_chooseAll (s := start g) hf
  exact ⟨s, hs, hc, if_pos hc⟩

namespace Generator

variable {σ : Type} {g : Grammar} {source : Source σ} {gen gen' : Generator σ} {r : Generated}
  {d : Derivation} {fallback : Bool}

@[simp] theorem settings_conclude :
    (conclude g source gen d fallback).2.settings = gen.settings := by
  unfold conclude
  split <;> rfl

@[simp] theorem settings_generate (g : Grammar) (source : Source σ) (gen : Generator σ) :
    (generate g source gen).2.settings = gen.settings := by
  unfold generate
  split <;> simp

theorem conclude_eq (h : conclude g source gen d fallback = (.ok r, gen')) :
    d.sentence g = .ok r.sentence ∧ r = ⟨r.sentence, d, fallback⟩ ∧
      gen'.fallbacks = gen.fallbacks := by
  unfold conclude at h
  split at h
  next => cases h
  next sentence hs =>
    cases h
    exact ⟨hs, rfl, rfl⟩

/-- The two ways to a result: what the search has found, or the fixed derivation, which is
counted. Either way the sentence is read off the derivation. -/
theorem generate_cases (hs : source.Lawful) (h : generate g source gen = (.ok r, gen')) :
    r.derivation.sentence g = .ok r.sentence ∧
      (r.fallback = false ∧ gen'.fallbacks = gen.fallbacks ∧
        g.Completes gen.settings.maxLength gen.settings.maxDepth g.startForm r.derivation.choices ∨
      r.fallback = true ∧ gen'.fallbacks = gen.fallbacks + 1 ∧ r.derivation = fixed g) := by
  have ha := Search.answers_run g hs gen.settings gen.settings.maxDepth g.startForm gen.state
  unfold generate at h
  split at h
  next => cases h
  next choices s hr =>
    obtain ⟨hd, hr', hf⟩ := conclude_eq h
    rw [hr] at ha
    rw [hr']
    exact ⟨hd, .inl ⟨rfl, hf, ha⟩⟩
  next s hr =>
    obtain ⟨hd, hr', hf⟩ := conclude_eq h
    rw [hr']
    exact ⟨hd, .inr ⟨rfl, hf, rfl⟩⟩

theorem within_of_found (hs : source.Lawful) (h : (generate g source gen).1 = .ok r)
    (hr : r.fallback = false) : Within g gen.settings r.derivation r.sentence := by
  obtain ⟨hd, hc | hc⟩ := generate_cases hs (Prod.ext h rfl)
  · obtain ⟨sentence, hw⟩ := exists_within_iff.2 hc.2.2
    obtain ⟨form, hf, _, rfl⟩ := hw.1
    obtain ⟨_, hf', hp⟩ := map_eq_ok_iff.1 hd
    cases hf.symm.trans hf'
    rwa [hp] at hw
  · rw [hr] at hc
    cases hc.1

theorem fixed_of_exhausted (hs : source.Lawful) (h : (generate g source gen).1 = .ok r)
    (hr : r.fallback = true) : r.derivation = fixed g ∧
      ∃ p rest, g.productionsOf g.start = .ok (p :: rest) ∧ r.sentence = p.rhs.projection := by
  obtain ⟨hd, hc | hc⟩ := generate_cases hs (Prod.ext h rfl)
  · rw [hr] at hc
    cases hc.1
  · obtain ⟨_, _, he⟩ := hc
    rw [he] at hd
    obtain ⟨form, hf, hp⟩ := map_eq_ok_iff.1 hd
    obtain ⟨_, p, hc, hf⟩ := Grammar.chooseAll_cons_eq_ok_iff.1 hf
    obtain ⟨rest, hr⟩ := Grammar.productionsOf_of_chosen_zero hc
    cases hf
    refine ⟨he, p, rest, hr, ?_⟩
    rw [← hp, Grammar.startForm, Form.expand_nonterminal, List.append_nil]

def next (g : Grammar) (source : Source σ) (gen : Generator σ) : Generator σ :=
  (generate g source gen).2

theorem settings_iterate_next (g : Grammar) (source : Source σ) (gen : Generator σ) (n : Nat) :
    ((next g source)^[n] gen).settings = gen.settings := by
  induction n with
  | zero => rfl
  | succ n ih => rw [Function.iterate_succ_apply', next, settings_generate, ih]

/-- Whatever a call in a sequence of calls yields is sound. -/
theorem generate_sound (hs : source.Lawful) (settings : Settings) (state : σ) (n : Nat)
    (h : (generate g source ((next g source)^[n] (ofState settings state))).1 = .ok r) :
    (r.fallback = false →
      Within g settings r.derivation r.sentence ∧
        ∃ s, Session.applyAll g (r.derivation.choices.map (·.index)) (Session.start g) = .ok s ∧
          s.isComplete = true ∧ s.sentence? = some r.sentence) ∧
    (r.fallback = true →
      r.derivation = ⟨[⟨g.start, 0⟩]⟩ ∧
        ∃ p rest, g.productionsOf g.start = .ok (p :: rest) ∧ r.sentence = p.rhs.projection) ∧
    ∀ c ∈ r.sentence.toList, c ∈ g.terminals := by
  refine ⟨fun hr => ?_, fixed_of_exhausted hs h, ?_⟩
  · have hw := within_of_found hs h hr
    rw [settings_iterate_next] at hw
    exact ⟨hw, Session.applyAll_of_yields hw.1⟩
  · exact Derivation.mem_terminals_of_sentence (generate_cases hs (Prod.ext h rfl)).1

theorem generate_sound_b_ab :
    Source.random.Lawful ∧
      (∃ r, (generate .standard .random
          ((next .standard .random)^[1] (ofState ⟨1, 2, none⟩ (.ofSeed 7)))).1 = .ok r ∧
        r.fallback = false ∧ Within .standard ⟨1, 2, none⟩ r.derivation r.sentence ∧
        ∃ s, Session.applyAll .standard [1, 1] (Session.start .standard) = .ok s ∧
          s.isComplete = true ∧ s.sentence? = some "b") ∧
      ∃ r, (generate .standard .random
          ((next .standard .random)^[0] (ofState ⟨0, 64, none⟩ (.ofSeed 7)))).1 = .ok r ∧
        r.fallback = true ∧ r.derivation = ⟨[⟨"S", 0⟩]⟩ ∧ r.sentence = "ab" := by
  have hb : (generate .standard .random
      ((next .standard .random)^[1] (ofState ⟨1, 2, none⟩ (.ofSeed 7)))).1 =
        .ok ⟨"b", ⟨[⟨"S", 1⟩, ⟨"A", 1⟩]⟩, false⟩ := by decide +kernel
  have hab : (generate .standard .random
      ((next .standard .random)^[0] (ofState ⟨0, 64, none⟩ (.ofSeed 7)))).1 =
        .ok ⟨"ab", ⟨[⟨"S", 0⟩]⟩, true⟩ := by decide +kernel
  obtain ⟨hw, s, hs⟩ := (generate_sound Source.lawful_random _ _ _ hb).1 rfl
  have hd := ((generate_sound Source.lawful_random _ _ _ hab).2.1 rfl).1
  exact ⟨Source.lawful_random, ⟨_, hb, rfl, hw, s, hs⟩, _, hab, rfl, hd, rfl⟩

end Generator

/-! The count of fallbacks is raised as soon as a search has found nothing, before the sentence of the
fixed derivation is read; and reading it fails if the start symbol is undeclared. A search that may
expand anything comes upon that symbol itself and fails without counting, so the count goes wrong
only where nothing may be expanded. -/

namespace Generator

def answers (g : Grammar) (source : Source σ) : Nat → Generator σ → List (Except Fault Generated)
  | 0, _ => []
  | n + 1, gen => (generate g source gen).1 :: answers g source n (next g source gen)

def isFallback : Except Fault Generated → Bool
  | .ok r => r.fallback
  | .error _ => false

variable {σ : Type} {g : Grammar} {source : Source σ} {gen : Generator σ}

theorem fallbacks_conclude (d : Derivation) (fallback : Bool) :
    (conclude g source gen d fallback).2.fallbacks = gen.fallbacks := by
  unfold conclude
  split <;> rfl

theorem isFallback_conclude_false (d : Derivation) :
    isFallback (conclude g source gen d false).1 = false := by
  unfold conclude
  split <;> rfl

theorem fallbacks_next_of_declares (h : g.declares g.start = true) (gen : Generator σ) :
    (next g source gen).fallbacks =
      gen.fallbacks + if isFallback (generate g source gen).1 then 1 else 0 := by
  unfold next generate
  split
  next => rfl
  next choices s _ =>
    rw [fallbacks_conclude, isFallback_conclude_false]
    rfl
  next s _ =>
    obtain ⟨form, hf⟩ := form_fixed h
    rw [fallbacks_conclude, conclude_eq_ok hf]
    rfl

theorem sentence_fixed (h : g.declares g.start = false) :
    (fixed g).sentence g = .error (.undeclared g.start) := by
  have hc : g.choose ⟨g.start, 0⟩ g.startForm = .error (.undeclared g.start) := by
    have hn : g.startForm.current? = some g.start := rfl
    rw [Grammar.choose, if_pos hn, Grammar.chosen, Grammar.productionsOf_of_not_declares h]
  rw [Derivation.sentence, Derivation.form, fixed, Grammar.chooseAll, hc]
  rfl

theorem generate_of_undeclared (h : g.declares g.start = false) (source : Source σ)
    (gen : Generator σ) :
    (generate g source gen).1 = .error (.undeclared g.start) ∧
      (next g source gen).fallbacks =
        gen.fallbacks + if gen.settings.maxDepth = 0 then 1 else 0 := by
  unfold next generate
  cases hd : gen.settings.maxDepth with
  | zero =>
    have hr : Search.run g source gen.settings 0 g.startForm gen.state =
        (.ok none, source.note .tooDeep gen.state) := rfl
    rw [hr]
    dsimp only
    rw [conclude, sentence_fixed h]
    exact ⟨rfl, rfl⟩
  | succ depth =>
    have hr : Search.run g source gen.settings (depth + 1) g.startForm gen.state =
        (.error (.undeclared g.start), gen.state) := by
      rw [Search.run, Grammar.startForm, Form.current?]
      dsimp only
      rw [Grammar.productionsOf_of_not_declares h]
    rw [hr]
    exact ⟨rfl, rfl⟩

theorem fallbacks_next (h : g.declares g.start = true ∨ gen.settings.maxDepth ≠ 0) :
    (next g source gen).fallbacks =
      gen.fallbacks + if isFallback (generate g source gen).1 then 1 else 0 := by
  cases hs : g.declares g.start with
  | true => exact fallbacks_next_of_declares hs gen
  | false =>
    have hd : gen.settings.maxDepth ≠ 0 := h.resolve_left (by simp [hs])
    obtain ⟨ha, hf⟩ := generate_of_undeclared hs source gen
    rw [hf, ha, if_neg hd]
    rfl

theorem fallbacks_iterate_next (h : g.declares g.start = true ∨ gen.settings.maxDepth ≠ 0)
    (n : Nat) : ((next g source)^[n] gen).fallbacks =
      gen.fallbacks + (answers g source n gen).countP isFallback := by
  induction n generalizing gen with
  | zero => rfl
  | succ n ih =>
    have hn : g.declares g.start = true ∨ (next g source gen).settings.maxDepth ≠ 0 := by
      rwa [next, settings_generate]
    rw [Function.iterate_succ_apply, ih hn, fallbacks_next h, answers, List.countP_cons]
    omega

theorem fallbacks_iterate_next_of_undeclared (hs : g.declares g.start = false)
    (hd : gen.settings.maxDepth = 0) (n : Nat) :
    ((next g source)^[n] gen).fallbacks = gen.fallbacks + n := by
  induction n with
  | zero => rfl
  | succ n ih =>
    rw [Function.iterate_succ_apply', (generate_of_undeclared hs source _).2, settings_iterate_next,
      if_pos hd, ih]
    rfl

/-- After any number of calls the count is that of the calls that fell back, and a call that
fails leaves it alone, if the start symbol is declared or anything may be expanded. If
neither, every call fails and is counted all the same. -/
theorem fallbacks_count (g : Grammar) (source : Source σ) (settings : Settings) (state : σ)
    (n : Nat) :
    let gen := (next g source)^[n] (ofState settings state)
    (g.declares g.start = true ∨ settings.maxDepth ≠ 0 →
      gen.fallbacks = (answers g source n (ofState settings state)).countP isFallback ∧
        ∀ fault, (generate g source gen).1 = .error fault →
          (next g source gen).fallbacks = gen.fallbacks) ∧
    (g.declares g.start = false → settings.maxDepth = 0 →
      gen.fallbacks = n ∧ (generate g source gen).1 = .error (.undeclared g.start)) := by
  intro gen
  have hg : gen.settings = settings := settings_iterate_next g source _ n
  refine ⟨fun h => ⟨?_, fun fault hf => ?_⟩,
    fun hs hd => ⟨?_, (generate_of_undeclared hs source gen).1⟩⟩
  · rw [fallbacks_iterate_next h, ofState, Nat.zero_add]
  · rw [← hg] at h
    rw [fallbacks_next h, hf]
    rfl
  · rw [fallbacks_iterate_next_of_undeclared hs hd, ofState, Nat.zero_add]

theorem fallbacks_count_two :
    Grammar.standard.declares "S" = true ∧
      ((next .standard .random)^[2] (ofState ⟨0, 64, none⟩ (.ofSeed 7))).fallbacks =
        (answers .standard .random 2 (ofState ⟨0, 64, none⟩ (.ofSeed 7))).countP isFallback ∧
      (generate (.empty "S") .random (ofState ⟨15, 1, none⟩ (.ofSeed 7))).1 =
        .error (.undeclared "S") ∧
      (next (.empty "S") .random (ofState ⟨15, 1, none⟩ (.ofSeed 7))).fallbacks = 0 ∧
      ((next (.empty "S") .random)^[3] (ofState ⟨15, 0, none⟩ (.ofSeed 7))).fallbacks = 3 := by
  have hf : (generate (.empty "S") .random (ofState ⟨15, 1, none⟩ (.ofSeed 7))).1 =
      .error (.undeclared "S") := rfl
  have h := (fallbacks_count (.empty "S") .random ⟨15, 1, none⟩ (.ofSeed 7) 0).1 (.inr (by decide))
  have hb := (fallbacks_count (.empty "S") .random ⟨15, 0, none⟩ (.ofSeed 7) 3).2 rfl rfl
  have hs := (fallbacks_count .standard .random ⟨0, 64, none⟩ (.ofSeed 7) 2).1 (.inl rfl)
  exact ⟨rfl, hs.1, hf, h.2 _ hf, hb.1⟩

theorem fallbacks_ne_count :
    ∃ fault, (generate (.empty "S") .random (ofState ⟨15, 0, some 1⟩ (.ofSeed 1))).1 =
        .error fault ∧
      (next (.empty "S") .random (ofState ⟨15, 0, some 1⟩ (.ofSeed 1))).fallbacks ≠
        (ofState ⟨15, 0, some 1⟩ (Random.Stream.ofSeed 1)).fallbacks ∧
      ((next (.empty "S") .random)^[1] (ofState ⟨15, 0, some 1⟩ (.ofSeed 1))).fallbacks ≠
        (answers (.empty "S") .random 1 (ofState ⟨15, 0, some 1⟩ (.ofSeed 1))).countP
          isFallback := by
  refine ⟨.undeclared "S", rfl, ?_, ?_⟩ <;> decide +kernel

end Generator

end Predictive
