import Predictive.Proofs.CompleteDerivation
import Predictive.Proofs.PrescribedReading

/-! Derivations guided by a table. Each choice of such a derivation is the entry for the
leftmost non-terminal and for the letter of the sentence that stands at its place. The
parser accepts a sentence exactly when it has one, and then follows it. -/
namespace Predictive

namespace Table

/-- The entry for the leftmost non-terminal of a form, with the letter of the word at its
position as lookahead, is the production that a choice stands for. -/
def Prescribes (g : Grammar) (t : Table) (form : Form) (word : List Char) (c : Choice) : Prop :=
  ∃ k name p, form.leftmost? = some k ∧ form[k]? = some (.nonterminal name) ∧
    g.chosen c = .ok p ∧ t.entry name (word.getD k endMarker) = some p

def Guides (g : Grammar) (t : Table) (form : Form) (word : List Char) (cs : List Choice) : Prop :=
  ∀ before c after, cs = before ++ c :: after →
    ∃ current, g.chooseAll before form = .ok current ∧ t.Prescribes g current word c

variable {g : Grammar} {t : Table} {form : Form} {word : List Char} {c : Choice} {cs : List Choice}
  {p : Production}

theorem prescribes_letter {a : Char} :
    t.Prescribes g (.terminal a :: form) (a :: word) c ↔ t.Prescribes g form word c := by
  constructor
  · rintro ⟨k, name, p, hk, hn, hp, he⟩
    rw [Form.leftmost?_terminal] at hk
    obtain ⟨j, hj, rfl⟩ := Option.map_eq_some_iff.1 hk
    exact ⟨j, name, p, hj, hn, hp, he⟩
  · rintro ⟨k, name, p, hk, hn, hp, he⟩
    refine ⟨k + 1, name, p, ?_, hn, hp, he⟩
    rw [Form.leftmost?_terminal, hk]
    rfl

theorem prescribes_nonterminal {name : String} (hp : g.chosen c = .ok p) :
    t.Prescribes g (.nonterminal name :: form) word c ↔
      t.entry name (word.headD endMarker) = some p := by
  have hd : word.getD 0 endMarker = word.headD endMarker := by cases word <;> rfl
  constructor
  · rintro ⟨k, n, q, hk, hn, hq, he⟩
    rw [Form.leftmost?_nonterminal] at hk
    cases hk
    cases hn
    cases hp.symm.trans hq
    rwa [hd] at he
  · intro he
    exact ⟨0, name, p, Form.leftmost?_nonterminal name form, rfl, hp, hd ▸ he⟩

theorem guides_letter {a : Char} :
    t.Guides g (.terminal a :: form) (a :: word) cs ↔ t.Guides g form word cs := by
  constructor
  · intro h before c after hcs
    obtain ⟨current, hc, hp⟩ := h before c after hcs
    rw [Grammar.chooseAll_terminal] at hc
    obtain ⟨rest, hr, rfl⟩ := map_eq_ok_iff.1 hc
    exact ⟨rest, hr, prescribes_letter.1 hp⟩
  · intro h before c after hcs
    obtain ⟨current, hc, hp⟩ := h before c after hcs
    refine ⟨.terminal a :: current, ?_, prescribes_letter.2 hp⟩
    rw [Grammar.chooseAll_terminal, hc]
    rfl

theorem guides_choice (hp : g.chosen c = .ok p) :
    t.Guides g (.nonterminal c.name :: form) word (c :: cs) ↔
      t.entry c.name (word.headD endMarker) = some p ∧ t.Guides g (p.rhs ++ form) word cs := by
  constructor
  · intro h
    refine ⟨?_, fun before c' after hcs => ?_⟩
    · obtain ⟨current, hc, he⟩ := h [] c cs rfl
      cases hc
      exact (prescribes_nonterminal hp).1 he
    · obtain ⟨current, hc, he⟩ := h (c :: before) c' after (hcs ▸ rfl)
      obtain ⟨_, q, hq, hr⟩ := Grammar.chooseAll_cons_eq_ok_iff.1 hc
      cases hp.symm.trans hq
      exact ⟨current, hr, he⟩
  · rintro ⟨he, h⟩ before c' after hcs
    cases before with
    | nil =>
      cases hcs
      exact ⟨_, rfl, (prescribes_nonterminal hp).2 he⟩
    | cons b before =>
      cases hcs
      obtain ⟨current, hc, hn⟩ := h before c' after rfl
      exact ⟨current, Grammar.chooseAll_cons_eq_ok_iff.2 ⟨rfl, p, hp, hc⟩, hn⟩

theorem guides_iff_reads (h : g.Derives cs form word) :
    t.Guides g form word cs ↔ t.Reads ((⟨cs⟩ : Derivation).productions g) form word := by
  induction h with
  | done => exact ⟨fun _ => .done, fun _ before c after h => by simp at h⟩
  | letter a _ ih => rw [guides_letter, ih, reads_letter_iff]
  | choice hp _ ih => rw [guides_choice hp, ih, Derivation.productions_cons hp, reads_entry_iff]

theorem Reads.mem_rules {ps : List Production} (ht : t.Backed g) (h : t.Reads ps form word) :
    ∀ p ∈ ps, p ∈ g.rules := by
  induction h with
  | done => simp
  | letter _ _ ih => exact ih
  | entry he _ ih => exact List.forall_mem_cons.2 ⟨ht.mem_rules_of_entry he, ih⟩

theorem Reads.derives {ps : List Production} (ht : t.Backed g) (h : t.Reads ps form word) :
    g.Derives (ps.map g.choiceOf) form word := by
  induction h with
  | done => exact .done
  | letter c _ ih => exact .letter c ih
  | entry he _ ih =>
    cases lhs_of_entry he
    exact .choice (c := g.choiceOf _) (Grammar.chosen_choiceOf (ht.mem_rules_of_entry he)) ih

end Table

/-- The table prescribes every choice that the derivation makes for the sentence. -/
def Derivation.Guided (g : Grammar) (t : Table) (d : Derivation) (sentence : String) : Prop :=
  t.Guides g g.startForm sentence.toList d.choices

namespace Analysis

variable {g : Grammar} {t : Table} {cells : List Cell} {sentence : String}

theorem reads_of_guided {d : Derivation} (hy : d.Yields g sentence) (hd : d.Guided g t sentence) :
    t.Reads (d.productions g) g.startForm sentence.toList :=
  (Table.guides_iff_reads (Derivation.yields_iff.1 hy)).1 hd

theorem exists_guided_of_reads {ps : List Production} (ht : t.Backed g)
    (h : t.Reads ps g.startForm sentence.toList) :
    ∃ d : Derivation, d.Yields g sentence ∧ d.Guided g t sentence := by
  have hd := h.derives ht
  refine ⟨⟨ps.map g.choiceOf⟩, Derivation.yields_iff.2 hd, (Table.guides_iff_reads hd).2 ?_⟩
  rwa [Derivation.productions_map_choiceOf (h.mem_rules ht)]

theorem iterate_of_reads {d : Derivation} (hy : d.Yields g sentence)
    (h : t.Reads (d.productions g) g.startForm sentence.toList) :
    let e := (step ⟨g, t⟩)^[sentence.length + d.length] (ofWord g.start sentence.toList)
    e.status = .accepted (sentence.length + d.length) ∧ e.applied = d.productions g := by
  have hn : sentence.toList.length + (d.productions g).length = sentence.length + d.length := by
    rw [String.length_toList, Derivation.length_productions (Derivation.yields_iff.1 hy)]
    rfl
  exact hn ▸ ⟨status_iterate_ofWord h, applied_iterate_ofWord h⟩

/-- The parser accepts a sentence exactly when a derivation of it is guided by the table. It
then applies that derivation's productions, in a step for each of them and for each
letter; so all guided derivations of the sentence have the same productions. -/
theorem accepts_iff_exists_guided (ht : Table.ofCells g cells = .ok t) (hne : sentence ≠ "")
    (hs : ∀ c ∈ sentence.toList, c ∈ g.terminals) :
    ∃ a, start ⟨g, t⟩ sentence = .ok a ∧
      ((∃ n, ((step ⟨g, t⟩)^[n] a).status.isAccepted = true) ↔
        ∃ d : Derivation, d.Yields g sentence ∧ d.Guided g t sentence) ∧
      (∀ d : Derivation, d.Yields g sentence → d.Guided g t sentence →
        let e := (step ⟨g, t⟩)^[sentence.length + d.length] a
        e.status = .accepted (sentence.length + d.length) ∧ e.applied = d.productions g ∧
          ∀ n, ((step ⟨g, t⟩)^[n] a).status.isAccepted = true → (step ⟨g, t⟩)^[n] a = e) ∧
      ∀ d d' : Derivation, d.Yields g sentence → d.Guided g t sentence → d'.Yields g sentence →
        d'.Guided g t sentence → d.productions g = d'.productions g := by
  have hb := Table.backed_ofCells ht
  have hc : Parser.check ⟨g, t⟩ sentence = .ok sentence.toList := Parser.check_of_letters hne hs
  have hm := Parser.endMarker_notMem_of_check hc
  refine ⟨ofWord g.start sentence.toList, ?_, ⟨?_, ?_⟩, ?_, ?_⟩
  · rw [start, hc]
    rfl
  · rintro ⟨n, hn⟩
    obtain ⟨ps, h⟩ := reads_of_isAccepted_ofWord hb hm hn
    exact exists_guided_of_reads hb h
  · rintro ⟨d, hy, hd⟩
    have he := (iterate_of_reads hy (reads_of_guided hy hd)).1
    refine ⟨sentence.length + d.length, ?_⟩
    rw [he]
    rfl
  · intro d hy hd
    have he := iterate_of_reads hy (reads_of_guided hy hd)
    refine ⟨he.1, he.2, fun n hn => ?_⟩
    apply iterate_eq_of_isFinished
    · exact isFinished_of_isAccepted hn
    · rw [isFinished, he.1]
      rfl
  · intro d d' hy hd hy' hd'
    exact (reads_of_guided hy hd).unique (reads_of_guided hy' hd')

theorem accepts_iff_exists_guided_ab :
    (⟨[⟨"S", 0⟩, ⟨"C", 2⟩]⟩ : Derivation).Guided .standard Table.standardRows "ab" ∧
      ∃ a, start ⟨.standard, Table.standardRows⟩ "ab" = .ok a ∧
        ((step ⟨.standard, Table.standardRows⟩)^[4] a).status = .accepted 4 := by
  have hy : (⟨[⟨"S", 0⟩, ⟨"C", 2⟩]⟩ : Derivation).Yields .standard "ab" := ⟨_, rfl, rfl, rfl⟩
  have hd : (⟨[⟨"S", 0⟩, ⟨"C", 2⟩]⟩ : Derivation).Guided .standard Table.standardRows "ab" :=
    (Table.guides_iff_reads (Derivation.yields_iff.1 hy)).2
      (.entry rfl (.letter 'a' (.entry rfl (.letter 'b' .done))))
  have hs : "ab".toList ⊆ Grammar.standard.terminals := by decide
  obtain ⟨a, ha, _, h, _⟩ := accepts_iff_exists_guided Table.standard_standard (by decide)
    fun c hc => hs hc
  exact ⟨hd, a, ha, (h _ hy hd).1⟩

end Analysis

end Predictive
