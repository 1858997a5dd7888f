import Predictive.Proofs.GuidedDerivation

/-! The language of a parser whose table covers its grammar. Sets that are closed under the
productions bound what can come first in a form and what can come after a name; they are a
certificate that is checked and need not be computed. A table with an entry for every pair they
allow reads every sentence along its derivation, so the parser decides the language, and no sentence
has two derivations. The standard parser is such a parser. -/
namespace Predictive

/-- What is known of the texts of a name. -/
structure Outlook where
  first : List Char
  vanishes : Bool
  follow : List Char

namespace Form

variable {o : String → Outlook} {form : Form} {c : Char} {after wider : List Char}

def vanishes (o : String → Outlook) : Form → Bool
  | [] => true
  | .terminal _ :: _ => false
  | .nonterminal name :: rest => (o name).vanishes && vanishes o rest

/-- The characters that a form can begin with, given those that can come after it. -/
def heads (o : String → Outlook) : Form → List Char → List Char
  | [], after => after
  | .terminal c :: _, _ => [c]
  | .nonterminal name :: rest, after =>
    (o name).first ++ if (o name).vanishes then heads o rest after else []

def Fits (o : String → Outlook) : Form → List Char → Prop
  | [], _ => True
  | .terminal _ :: rest, after => Fits o rest after
  | .nonterminal name :: rest, after =>
    heads o rest after ⊆ (o name).follow ∧ Fits o rest after

instance decidableFits (o : String → Outlook) :
    (form : Form) → (after : List Char) → Decidable (Fits o form after)
  | [], _ => inferInstanceAs (Decidable True)
  | .terminal _ :: rest, after => decidableFits o rest after
  | .nonterminal _ :: rest, after =>
    have := decidableFits o rest after
    inferInstanceAs (Decidable (_ ∧ _))

theorem mem_heads_iff :
    c ∈ heads o form after ↔ c ∈ heads o form [] ∨ vanishes o form = true ∧ c ∈ after := by
  induction form with
  | nil => simp [heads, vanishes]
  | cons s rest ih =>
    cases s with
    | terminal a => simp [heads, vanishes]
    | nonterminal name =>
      cases hv : (o name).vanishes with
      | false => simp [heads, vanishes, hv]
      | true => simp [heads, vanishes, hv, ih, or_assoc]

theorem heads_append (o : String → Outlook) (a b : Form) (after : List Char) :
    heads o (a ++ b) after = heads o a (heads o b after) := by
  induction a with
  | nil => rfl
  | cons s rest ih =>
    cases s with
    | terminal c => rfl
    | nonterminal name => simp only [List.cons_append, heads, ih]

theorem heads_mono (h : after ⊆ wider) : heads o form after ⊆ heads o form wider := by
  intro c hc
  rw [mem_heads_iff] at hc ⊢
  exact hc.imp_right fun hv => ⟨hv.1, h hv.2⟩

theorem fits_append (o : String → Outlook) (a b : Form) (after : List Char) :
    Fits o (a ++ b) after ↔ Fits o a (heads o b after) ∧ Fits o b after := by
  induction a with
  | nil => simp [Fits]
  | cons s rest ih =>
    cases s with
    | terminal c => exact ih
    | nonterminal name =>
      simp only [List.cons_append, Fits, heads_append, ih, and_assoc]

theorem Fits.mono (hf : Fits o form wider) (h : after ⊆ wider) : Fits o form after := by
  induction form with
  | nil => trivial
  | cons s rest ih =>
    cases s with
    | terminal c => exact ih hf
    | nonterminal name => exact ⟨List.Subset.trans (heads_mono h) hf.1, ih hf.2⟩

end Form

/-- The sets are closed under the productions, and each production is the entry of its name
for all that it can begin with there. -/
structure Covers (o : String → Outlook) (g : Grammar) (t : Table) : Prop where
  first : ∀ p ∈ g.rules, p.rhs.heads o [] ⊆ (o p.lhs).first
  vanishes : ∀ p ∈ g.rules, p.rhs.vanishes o = true → (o p.lhs).vanishes = true
  follow : ∀ p ∈ g.rules, p.rhs.Fits o (o p.lhs).follow
  entry : ∀ p ∈ g.rules, ∀ c ∈ p.rhs.heads o (o p.lhs).follow, t.entry p.lhs c = some p
  start : endMarker ∈ (o g.start).follow

namespace Covers

variable {o : String → Outlook} {g : Grammar} {t : Table} {form : Form} {word : List Char}
  {cs : List Choice}

theorem headD_mem_heads (ho : Covers o g t) (h : g.Derives cs form word) :
    word.headD endMarker ∈ form.heads o [endMarker] := by
  induction h with
  | done => exact List.mem_cons_self
  | letter a _ _ => exact List.mem_cons_self
  | @choice c p cs form word hp _ ih =>
    obtain ⟨hm, hl⟩ := Grammar.mem_rules_of_chosen hp
    rw [Form.heads_append, Form.mem_heads_iff] at ih
    rw [Form.heads, List.mem_append, ← hl]
    rcases ih with ih | ⟨hv, ih⟩
    · exact .inl (ho.first p hm ih)
    · rw [ho.vanishes p hm hv]
      exact .inr ih

/-- Every derivation of a word is the reading that the table prescribes for it. -/
theorem reads (ho : Covers o g t) (h : g.Derives cs form word) (hf : form.Fits o [endMarker]) :
    t.Reads ((⟨cs⟩ : Derivation).productions g) form word := by
  induction h with
  | done => exact .done
  | letter a _ ih => exact .letter a (ih hf)
  | @choice c p cs form word hp h ih =>
    obtain ⟨hm, hl⟩ := Grammar.mem_rules_of_chosen hp
    obtain ⟨ha, hf⟩ := hf
    have hd := ho.headD_mem_heads h
    rw [← hl] at ha ⊢
    rw [Form.heads_append] at hd
    rw [Derivation.productions_cons hp]
    refine .entry (ho.entry p hm _ (Form.heads_mono ha hd)) (ih ?_)
    exact (Form.fits_append o p.rhs form [endMarker]).2 ⟨(ho.follow p hm).mono ha, hf⟩

theorem reads_of_yields (ho : Covers o g t) {d : Derivation} {s : String} (h : d.Yields g s) :
    t.Reads (d.productions g) g.startForm s.toList := by
  apply ho.reads (Derivation.yields_iff.1 h)
  exact ⟨List.cons_subset.2 ⟨ho.start, List.nil_subset _⟩, trivial⟩

end Covers

namespace Analysis

theorem two_mul_le_limit (p : Parser) {a : Analysis} (h : a.configuration.stack ≠ []) :
    2 * (a.configuration.input.length + 1) ≤ a.limit p := by
  unfold limit
  rw [Nat.mul_comm]
  apply Nat.mul_le_mul_left
  apply Nat.succ_le_succ
  apply Nat.mul_pos
  · exact Nat.add_pos_left (List.length_pos_iff.2 h) _
  · exact Nat.pow_pos (Nat.succ_pos _)

end Analysis

namespace Parser

variable {p : Parser} {o : String → Outlook} {d d' : Derivation} {s input : String}

theorem exists_yields_of_accepts (hb : p.table.Backed p.grammar) (h : p.accepts input = true) :
    ∃ d : Derivation, d.Yields p.grammar (String.ofList (trim input.toList)) := by
  unfold accepts at h
  split at h
  next a ha =>
    obtain ⟨b, hs, rfl⟩ := map_eq_ok_iff.1 ha
    obtain ⟨word, hw, rfl⟩ := map_eq_ok_iff.1 hs
    rw [Analysis.run_eq_iterate] at h
    obtain ⟨ps, hr⟩ := Analysis.reads_of_isAccepted_ofWord hb (endMarker_notMem_of_check hw) h
    refine ⟨⟨ps.map p.grammar.choiceOf⟩, Derivation.yields_iff.2 ?_⟩
    rw [String.toList_ofList, (check_eq_ok_iff.1 hw).1]
    exact hr.derives hb
  next => contradiction

/-- What makes a parser follow every derivation to its end: the table covers the grammar,
the empty word has no derivation, and no production has more names than letters. -/
structure Follows (o : String → Outlook) (p : Parser) : Prop where
  covers : Covers o p.grammar p.table
  nonempty : endMarker ∉ p.grammar.startForm.heads o [endMarker]
  short : ∀ q ∈ p.grammar.rules, q.rhs.names.length ≤ q.rhs.terminalCount

namespace Follows

theorem check_of_yields (hf : p.Follows o) (h : d.Yields p.grammar s) :
    p.check s = .ok s.toList := by
  rw [Derivation.yields_iff] at h
  refine check_of_letters ?_ fun c hc => ?_
  · rintro rfl
    exact hf.nonempty (hf.covers.headD_mem_heads h)
  · rcases Grammar.mem_terminals_of_derives h c hc with hm | hm
    · contradiction
    · exact hm

theorem length_le_limit (hf : p.Follows o) (h : d.Yields p.grammar s) :
    s.length + d.length ≤ (Analysis.ofWord p.grammar.start s.toList).limit p := by
  have hl := Grammar.length_choices_le hf.short (Derivation.yields_iff.1 h)
  have hm := Analysis.two_mul_le_limit p
    (a := Analysis.ofWord p.grammar.start s.toList) (List.cons_ne_nil _ _)
  have hi : (Analysis.ofWord p.grammar.start s.toList).configuration.input.length =
      s.toList.length + 1 := List.length_append
  have hn : p.grammar.startForm.names.length = 1 := rfl
  rw [hi, String.length_toList] at hm
  rw [hn, String.length_toList] at hl
  rw [Derivation.length]
  omega

theorem parse_of_yields (hf : p.Follows o) (h : d.Yields p.grammar s) :
    ∃ a, p.parse s = .ok a ∧ a.status = .accepted (s.length + d.length) ∧
      a.applied = d.productions p.grammar := by
  have he := Analysis.iterate_of_reads h (hf.covers.reads_of_yields h)
  refine ⟨_, parse_eq_run (hf.check_of_yields h), ?_⟩
  rw [Analysis.run_of_iterate _ (hf.length_le_limit h)]
  · exact he
  · rw [Analysis.isFinished, he.1]
    rfl

theorem accepts_of_yields (hf : p.Follows o)
    (h : d.Yields p.grammar (String.ofList (trim input.toList))) : p.accepts input = true := by
  obtain ⟨a, ha, hs, _⟩ := hf.parse_of_yields h
  have hc := hf.check_of_yields h
  rw [parse_eq_run hc] at ha
  rw [String.toList_ofList] at hc ha
  have hw := check_eq_ok_iff.2 ⟨rfl, (check_eq_ok_iff.1 hc).2⟩
  rw [accepts, parse_eq_run hw, ha]
  dsimp only
  rw [hs]
  rfl

theorem yields_unique (hf : p.Follows o) (hg : p.grammar.rules.Nodup) (h : d.Yields p.grammar s)
    (h' : d'.Yields p.grammar s) : d = d' := by
  have hp := (hf.covers.reads_of_yields h).unique (hf.covers.reads_of_yields h')
  have hc := Derivation.map_chosen (Derivation.yields_iff.1 h')
  rw [← hp] at hc
  obtain ⟨cs⟩ := d
  exact congrArg _ (Derivation.choices_eq_of_map_chosen hg
    (Derivation.map_chosen (Derivation.yields_iff.1 h)) hc)

end Follows

end Parser

def Grammar.standardOutlook : String → Outlook
  | "S" => ⟨['a', 'b', 'c'], false, ['$']⟩
  | "A" => ⟨['a'], true, ['b', 'c', '$']⟩
  | "B" => ⟨['a', 'b'], false, ['b', 'c', '$']⟩
  | "C" => ⟨['a', 'c'], true, ['b']⟩
  | "D" => ⟨['a', 'b', 'd'], false, ['b']⟩
  | _ => ⟨[], false, []⟩

theorem covers_standard :
    Covers Grammar.standardOutlook Grammar.standard Table.standardRows where
  first := by decide
  vanishes := by decide
  follow := by decide
  entry p hp c hc := by
    have h : ∀ p ∈ Grammar.standard.rules,
        ((p.rhs.heads Grammar.standardOutlook (Grammar.standardOutlook p.lhs).follow).all fun c =>
          Table.standardRows.entry p.lhs c == some p) = true := by decide
    exact eq_of_beq (List.all_eq_true.1 (h p hp) c hc)
  start := by decide

namespace Parser

theorem follows_standard : standard.Follows Grammar.standardOutlook where
  covers := covers_standard
  nonempty := by decide
  short := by decide

/-- The standard parser decides the language of the standard grammar. It follows the
derivation of a sentence in a step for each letter and each choice; so no sentence has
two derivations. -/
theorem standard_decides :
    (∀ input : String, standard.accepts input = true ↔
      ∃ d : Derivation, d.Yields Grammar.standard (String.ofList (trim input.toList))) ∧
    (∀ (d : Derivation) (sentence : String), d.Yields Grammar.standard sentence →
      ∃ a, standard.parse sentence = .ok a ∧
        a.status = .accepted (sentence.length + d.length) ∧
        a.applied = d.productions Grammar.standard) ∧
    ∀ (d d' : Derivation) (sentence : String), d.Yields Grammar.standard sentence →
      d'.Yields Grammar.standard sentence → d = d' := by
  refine ⟨fun input => ⟨?_, ?_⟩, fun d sentence h => ?_, fun d d' sentence h h' => ?_⟩
  · exact exists_yields_of_accepts (Table.backed_ofCells Table.standard_standard)
  · rintro ⟨d, h⟩
    exact follows_standard.accepts_of_yields h
  · exact follows_standard.parse_of_yields h
  · exact follows_standard.yields_unique (by decide) h h'

theorem standard_decides_ab :
    (⟨[⟨"S", 0⟩, ⟨"C", 2⟩]⟩ : Derivation).Yields Grammar.standard "ab" ∧
      standard.accepts " ab " = true ∧
      ∃ a, standard.parse "ab" = .ok a ∧ a.status = .accepted 4 ∧
        a.applied = [⟨"S", [.terminal 'a', .nonterminal "C", .terminal 'b']⟩, ⟨"C", []⟩] := by
  have h : (⟨[⟨"S", 0⟩, ⟨"C", 2⟩]⟩ : Derivation).Yields Grammar.standard "ab" :=
    ⟨_, rfl, rfl, rfl⟩
  exact ⟨h, (standard_decides.1 " ab ").2 ⟨_, h⟩, standard_decides.2.1 _ _ h⟩

end Parser

end Predictive
