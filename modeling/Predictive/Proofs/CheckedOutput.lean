import Predictive.Command.Run
import Predictive.Proofs.GeneratedDerivation
import Predictive.Proofs.StandardLanguage

/-! What the commands print passes their own check. Whatever is generated or derived has a
derivation in the standard grammar, and that is what the parser decides. The fixed
sentence is used either always or never: no sentence is empty or has a single choice
for its derivation, and b needs no more than a letter and two choices. -/
namespace Predictive

namespace Derivation

variable {d : Derivation} {sentence : String}

theorem two_le_length_of_yields_standard (h : d.Yields Grammar.standard sentence) :
    2 ≤ d.length := by
  have hs : ∀ p ∈ Grammar.standard.rules, p.lhs = "S" → 1 ≤ p.rhs.names.length := by decide
  have hc := Grammar.chooseAll_of_derives (yields_iff.1 h)
  obtain ⟨cs⟩ := d
  cases cs with
  | nil => cases Grammar.length_names_le (yields_iff.1 h)
  | cons c cs =>
    obtain ⟨hn, p, hp, hc⟩ := Grammar.chooseAll_cons_eq_ok_iff.1 hc
    obtain ⟨hm, hl⟩ := Grammar.mem_rules_of_chosen hp
    have hr := hs p hm (hl.trans (Option.some.inj hn).symm)
    have hd := Grammar.length_names_le (Grammar.derives_of_chooseAll hc)
    rw [Grammar.startForm, Form.expand_nonterminal, List.append_nil] at hd
    exact Nat.succ_le_succ (Nat.le_trans hr hd)

theorem length_pos_of_yields_standard (h : d.Yields Grammar.standard sentence) :
    0 < sentence.length := by
  have hc := Parser.check_eq_ok_iff.1 (Parser.follows_standard.check_of_yields h)
  rw [← String.length_toList]
  exact List.length_pos_iff.2 hc.2.1

theorem yields_b : (⟨[⟨"S", 1⟩, ⟨"A", 1⟩]⟩ : Derivation).Yields Grammar.standard "b" :=
  ⟨_, rfl, rfl, rfl⟩

theorem yields_ab : (⟨[⟨"S", 0⟩, ⟨"C", 2⟩]⟩ : Derivation).Yields Grammar.standard "ab" :=
  ⟨_, rfl, rfl, rfl⟩

end Derivation

/-- The bounds have no room for a letter, or none for two choices. -/
def Settings.exclude (bounds : Settings) : Bool :=
  bounds.maxLength = 0 ∨ bounds.maxDepth < 2

namespace Generator

variable {σ : Type} {source : Source σ} {gen : Generator σ} {r : Generated}

theorem exists_within_standard_iff (bounds : Settings) :
    (∃ d sentence, Within Grammar.standard bounds d sentence) ↔ bounds.exclude = false := by
  rw [Settings.exclude, decide_eq_false_iff_not]
  constructor
  · rintro ⟨d, sentence, hy, hd, hl⟩
    have := Derivation.two_le_length_of_yields_standard hy
    have := Derivation.length_pos_of_yields_standard hy
    omega
  · intro h
    have hl : "b".length = 1 := rfl
    refine ⟨_, _, Derivation.yields_b, ?_, ?_⟩
    · rw [Derivation.length, List.length_cons, List.length_singleton]
      omega
    · omega

theorem exists_generated_standard (hs : source.Lawful) (gen : Generator σ) :
    ∃ r, (generate Grammar.standard source gen).1 = .ok r ∧
      r.fallback = gen.settings.exclude := by
  obtain ⟨r, hr, hf⟩ := exists_generated (g := Grammar.standard) rfl hs gen
  rw [exists_within_standard_iff] at hf
  exact ⟨r, hr, Bool.eq_iff_iff.2 (by simpa using not_congr hf)⟩

theorem exists_yields_of_generate (hs : source.Lawful)
    (h : (generate Grammar.standard source gen).1 = .ok r) :
    ∃ d : Derivation, d.Yields Grammar.standard r.sentence := by
  cases hr : r.fallback with
  | false => exact ⟨_, (within_of_found hs h hr).1⟩
  | true =>
    obtain ⟨_, p, rest, hp, he⟩ := fixed_of_exhausted hs h hr
    cases hp
    rw [he]
    exact ⟨_, Derivation.yields_ab⟩

theorem exists_accepted_of_generate (hs : source.Lawful)
    (h : (generate Grammar.standard source gen).1 = .ok r) :
    ∃ a n, Parser.standard.parse r.sentence = .ok a ∧ a.status = .accepted n := by
  obtain ⟨d, hd⟩ := exists_yields_of_generate hs h
  obtain ⟨a, ha, hn, _⟩ := Parser.follows_standard.parse_of_yields hd
  exact ⟨a, _, ha, hn⟩

theorem fallbacks_of_generate (hs : source.Lawful)
    (h : (generate Grammar.standard source gen).1 = .ok r) :
    (generate Grammar.standard source gen).2.fallbacks = gen.fallbacks + r.fallback.toNat := by
  obtain ⟨_, ⟨hf, hc, _⟩ | ⟨hf, hc, _⟩⟩ := generate_cases hs (Prod.ext h rfl)
  · rw [hc, hf]
    rfl
  · rw [hc, hf]
    rfl

end Generator

def GenerateOptions.overrule (options : GenerateOptions) (base : Settings) : Settings :=
  { base with
    maxLength := options.maxLength.getD base.maxLength
    seed := options.seed.or base.seed }

namespace Command

variable {σ : Type} {source : Source σ} {options : GenerateOptions}

/-- The lines of results from number `i` on, each with the number of steps in which it was
accepted. -/
def checkedLines (i : Nat) : List (Generated × Nat) → List String
  | [] => []
  | (r, steps) :: rest =>
    (toString i ++ ". " ++ r.sentence ++ if r.fallback then "  (fallback)" else "") ::
      ("   accepted in " ++ toString steps ++ " steps") :: checkedLines (i + 1) rest

def summaryLines (bounds : Settings) (count : Nat) : List String :=
  if bounds.exclude ∧ 0 < count then
    ["", toString count ++ " of " ++ toString count ++ " used the fallback"]
  else []

theorem checkedLines_cons (i : Nat) (r : Generated) (steps : Nat) (rest : List (Generated × Nat)) :
    checkedLines i ((r, steps) :: rest) =
      sentenceLine i r :: ("   " ++ (Status.accepted steps).text) :: checkedLines (i + 1) rest := by
  rw [Status.text, ← String.append_assoc, ← String.append_assoc]
  rfl

theorem summaryLines_eq (bounds : Settings) (count : Nat) :
    summaryLines bounds count = fallbackLines (if bounds.exclude then count else 0) count := by
  cases h : bounds.exclude <;> simp [summaryLines, fallbackLines, h]

def Checked (bounds : Settings) (e : Generated × Nat) : Prop :=
  e.1.fallback = bounds.exclude ∧
    ∃ a, Parser.standard.parse e.1.sentence = .ok a ∧ a.status = .accepted e.2

theorem sentencesFrom_checked (hs : source.Lawful) (hc : options.check = true) (i left : Nat)
    (gen : Generator σ) :
    ∃ results, results.length = left ∧ (∀ e ∈ results, Checked gen.settings e) ∧
      sentencesFrom source options i left gen =
        { lines := checkedLines i results ++
            fallbackLines (gen.fallbacks + gen.settings.exclude.toNat * left) options.count } := by
  induction left generalizing i gen with
  | zero => exact ⟨[], rfl, by simp, rfl⟩
  | succ left ih =>
    obtain ⟨r, hr, hf⟩ := Generator.exists_generated_standard hs gen
    obtain ⟨a, n, ha, hn⟩ := Generator.exists_accepted_of_generate hs hr
    have hk := Generator.fallbacks_of_generate hs hr
    obtain ⟨results, hl, hd, he⟩ := ih (i + 1) (gen.generate Grammar.standard source).2
    rw [Generator.settings_generate] at hd he
    refine ⟨(r, n) :: results, congrArg (· + 1) hl, ?_, ?_⟩
    · exact List.forall_mem_cons.2 ⟨⟨hf, a, ha, hn⟩, hd⟩
    · rw [sentencesFrom]
      split
      next fault _ hg =>
        rw [hg] at hr
        cases hr
      next r' gen' hg =>
        rw [hg] at hr hk he
        cases hr
        rw [if_pos hc, ha]
        dsimp only at hk he ⊢
        rw [he, hk, hn, hf, checkedLines_cons, Nat.mul_succ, Nat.add_right_comm, Nat.add_assoc]
        rfl

theorem settingsOf_eq_ok {file : Except FileFault ByteArray} {base : Settings}
    (h : (if options.config.isSome then Settings.ofFile file else .ok {}) = .ok base) :
    settingsOf options file = .ok (options.overrule base) := by
  unfold settingsOf
  split at h
  next hc =>
    rw [if_pos hc, h]
    rfl
  next hc =>
    rw [if_neg hc]
    cases h
    rfl

/-- What a run with a check prints if all goes well: each of the sentences is numbered and followed
by the line of its acceptance, and all of them or none are the fixed one. -/
def AllAccepted (options : GenerateOptions) (bounds : Settings) (report : Report) : Prop :=
  report.exitCode = 0 ∧ ∃ results, results.length = options.count ∧
    (∀ e ∈ results, Checked bounds e) ∧
    report.output = String.join
      ((checkedLines 1 results ++ summaryLines bounds options.count).map (· ++ "\n"))

theorem allAccepted_sentencesFrom (hs : source.Lawful) (hc : options.check = true)
    (bounds : Settings) (state : σ) :
    AllAccepted options bounds
      (sentencesFrom source options 1 options.count (.ofState bounds state)) := by
  obtain ⟨results, hl, hr, he⟩ :=
    sentencesFrom_checked hs hc 1 options.count (.ofState bounds state)
  have hf : (Generator.ofState bounds state).fallbacks +
      (Generator.ofState bounds state).settings.exclude.toNat * options.count =
        if bounds.exclude then options.count else 0 := by
    cases h : bounds.exclude <;> simp [Generator.ofState, h]
  rw [he, hf, ← summaryLines_eq]
  exact ⟨rfl, results, hl, hr, rfl⟩

variable {choices : List Nat} {s e : Session} {line word : String}

theorem mem_lines_deriveFrom (h : line ∈ (deriveFrom choices s).lines) :
    (∃ rest, line = "=>  " ++ rest) ∨
      ∃ e, Session.applyAll Grammar.standard choices s = .ok e ∧ line ∈ closingLines e := by
  induction choices generalizing s with
  | nil => exact .inr ⟨s, rfl, h⟩
  | cons i rest ih =>
    rw [deriveFrom] at h
    split at h
    next => cases h
    next p next hn =>
      rcases List.mem_append.1 h with h | h
      · rw [List.mem_singleton.1 h]
        exact .inl ⟨_, by simp only [String.append_assoc]; rfl⟩
      · refine (ih h).imp_right fun ⟨e, he, hl⟩ => ⟨e, ?_, hl⟩
        exact Session.applyAll_cons_eq_ok_iff.2 ⟨p, next, hn, he⟩

theorem complete_ne {initial rest : String} {c : Char} (h : initial.toList.head? = some c)
    (hc : c ≠ 'C') : "Complete: " ++ word ≠ initial ++ rest := by
  intro he
  have hl := congrArg (List.head? ∘ String.toList) he
  simp only [Function.comp_apply, String.toList_append, List.head?_append, h] at hl
  exact hc (Option.some.inj hl).symm

theorem sentence?_of_mem_closingLines (h : "Complete: " ++ word ∈ closingLines e) :
    e.sentence? = some word := by
  unfold closingLines at h
  split at h
  next sentence hs =>
    rcases List.mem_cons.1 h with h | h
    · simp at h
    · rw [hs]
      simpa [eq_comm] using h
  next =>
    rcases List.mem_cons.1 h with h | h
    · simp at h
    · exact absurd (List.mem_singleton.1 h) (complete_ne rfl (by decide))

theorem exists_yields_of_complete (h : "Complete: " ++ word ∈ (deriveReport choices).lines) :
    ∃ d : Derivation, d.Yields Grammar.standard word := by
  rcases List.mem_append.1 h with h | h
  · exact absurd (List.mem_singleton.1 h) (complete_ne rfl (by decide))
  · obtain ⟨rest, h⟩ | ⟨e, he, h⟩ := mem_lines_deriveFrom h
    · exact absurd h (complete_ne rfl (by decide))
    · have hf := (Session.replayed_of_applyAll he).consistent.form
      obtain ⟨hc, hp⟩ := Option.ite_none_right_eq_some.1 (sentence?_of_mem_closingLines h)
      exact ⟨e.derivation, e.form, hf, hc, Option.some.inj hp⟩

theorem exitCode_parseReport {d : Derivation} (h : d.Yields Grammar.standard word) (json : Bool) :
    (parseReport word json).exitCode = 0 := by
  obtain ⟨a, ha, hs, _⟩ := Parser.follows_standard.parse_of_yields h
  rw [parseReport, ha]
  exact if_pos ⟨rfl, congrArg Status.isAccepted hs⟩

/-- What is generated or derived is accepted. Generating with a check ends well for every count
and all settings, whatever the orders of the search, and it uses the fixed sentence for
all results or for none; a sentence that a derivation ends with can be analysed. -/
theorem run_accepts_own_sentences (file : Except FileFault ByteArray) (entropy : UInt64) :
    (∀ (options : GenerateOptions) (base : Settings), options.check = true →
      (if options.config.isSome then Settings.ofFile file else .ok {}) = .ok base →
      AllAccepted options (options.overrule base) (run file entropy (.generate options)) ∧
        ∀ (σ : Type) (source : Source σ) (state : σ), source.Lawful →
          AllAccepted options (options.overrule base)
            (sentencesFrom source options 1 options.count
              (.ofState (options.overrule base) state))) ∧
    ∀ (choices : List Nat) (word : String) (json : Bool),
      "Complete: " ++ word ∈ (run file entropy (.derive choices)).lines →
      (run file entropy (.parse word json)).exitCode = 0 := by
  refine ⟨fun options base hc hb => ⟨?_, ?_⟩, fun choices word json h => ?_⟩
  · rw [run, generateReport, settingsOf_eq_ok hb]
    exact allAccepted_sentencesFrom Source.lawful_random hc _ _
  · intro σ source state hs
    exact allAccepted_sentencesFrom hs hc _ state
  · obtain ⟨d, hd⟩ := exists_yields_of_complete h
    exact exitCode_parseReport hd json

theorem run_accepts_own_sentences_b :
    let file : Except FileFault ByteArray := .ok "[3, 1]".toUTF8
    let options : GenerateOptions := { count := 2, config := some "settings", check := true }
    (if options.config.isSome then Settings.ofFile file else .ok {}) = .ok ⟨3, 1, none⟩ ∧
      AllAccepted options ⟨3, 1, none⟩ (run file 7 (.generate options)) ∧
      "Complete: " ++ "b" ∈ (run file 7 (.derive [1, 1])).lines ∧
      (run file 7 (.parse "b" false)).exitCode = 0 := by
  intro file options
  have hb : (if options.config.isSome then Settings.ofFile file else .ok {}) =
      .ok ⟨3, 1, none⟩ := by decide +kernel
  have hd : "Complete: " ++ "b" ∈ (run file 7 (.derive [1, 1])).lines := by decide +kernel
  have h := run_accepts_own_sentences file 7
  exact ⟨hb, (h.1 options _ rfl hb).1, hd, h.2 [1, 1] "b" false hd⟩

end Command

end Predictive
