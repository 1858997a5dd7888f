import Mathlib.Data.List.Basic
import Predictive.Proofs.BoundedSearch
import Predictive.Proofs.StandardLanguage
import Predictive.Proofs.TraceDerivation

/-! Rejections come as early as they can. What a parser has consumed can still be completed
while every name has a text; and all texts that agree with the input up to the lookahead
are read through the same configuration, so where that is blocked none is a sentence.
Entries for ε may be applied in between, but they consume nothing. -/
namespace Predictive

namespace Grammar

variable {g : Grammar} {form : Form}

def Productive (g : Grammar) : Prop :=
  ∀ name, g.declares name = true → ∃ cs word, g.Derives cs [.nonterminal name] word

theorem Productive.exists_derives (hg : g.Productive) (hd : g.DeclaresAll form) :
    ∃ cs word, g.Derives cs form word := by
  induction form with
  | nil => exact ⟨[], [], .done⟩
  | cons s rest ih =>
    cases s with
    | terminal c =>
      obtain ⟨cs, word, h⟩ := ih hd
      exact ⟨cs, c :: word, .letter c h⟩
    | nonterminal name =>
      obtain ⟨bs, u, hu⟩ := hg name (hd name List.mem_cons_self)
      obtain ⟨cs, v, hv⟩ := ih fun n hn => hd n (List.mem_cons_of_mem name hn)
      exact ⟨bs ++ cs, u ++ v, hu.append hv⟩

theorem exists_yields_of_form {d : Derivation} {read : List Char} {pending : Form}
    (hg : g.Closed) (hp : g.Productive) (h : d.form g = .ok (Form.ofWord read ++ pending)) :
    ∃ (e : Derivation) (rest : List Char), e.Yields g (String.ofList (read ++ rest)) := by
  have hs : g.DeclaresAll g.startForm := fun name hn => List.mem_singleton.1 hn ▸ hg.start
  have hd : g.DeclaresAll pending := fun name hn => hs.chooseAll hg h name (by simp [hn])
  obtain ⟨cs, rest, hc⟩ := hp.exists_derives hd
  refine ⟨⟨d.choices ++ cs⟩, rest, Derivation.yields_iff.2 (derives_of_chooseAll ?_)⟩
  rw [Derivation.form] at h
  rw [chooseAll_append, h, String.toList_ofList]
  exact chooseAll_of_derives (hc.append_left read)

end Grammar

namespace Derivation

variable {g : Grammar} {d : Derivation} {sentence : String} {read : List Char} {c : Char}

theorem not_isPrefix_of_not_yields
    (h : ∀ (d : Derivation) (rest : List Char), rest.head? = some c →
      ¬d.Yields g (String.ofList (read ++ rest)))
    (hy : d.Yields g sentence) : ¬read ++ [c] <+: sentence.toList := by
  rintro ⟨tail, ht⟩
  rw [List.append_assoc] at ht
  apply h d (c :: tail) rfl
  rwa [← List.singleton_append, ht, String.ofList_toList]

end Derivation

namespace Table

variable {g : Grammar} {t : Table} {read ahead : List Char} {pending form : Form} {name : String}
  {c : Char}

/-- The readings of all texts that agree with the input up to the lookahead go through here:
`read` is consumed, and `pending` is still to be read off what comes then. -/
def Binds (g : Grammar) (t : Table) (read ahead : List Char) (pending : Form) : Prop :=
  ∀ rest ps, rest.head? = ahead.head? → t.Reads ps g.startForm (read ++ rest) →
    ∃ qs, t.Reads qs pending rest

/-- No text with this lookahead can be read as the form. -/
def Blocked (t : Table) (pending : Form) (ahead : List Char) : Prop :=
  ∀ rest ps, rest.head? = ahead.head? → ¬t.Reads ps pending rest

theorem headD_eq_of_head? {a b : List Char} (h : a.head? = b.head?) :
    a.headD endMarker = b.headD endMarker := by
  rw [List.headD_eq_head?_getD, List.headD_eq_head?_getD, h]

theorem binds_start (g : Grammar) (t : Table) (word : List Char) :
    t.Binds g [] word g.startForm :=
  fun _ ps _ h => ⟨ps, h⟩

theorem Binds.letter (h : t.Binds g read (c :: ahead) (.terminal c :: form)) :
    t.Binds g (read ++ [c]) ahead form := by
  intro rest ps _ hr
  rw [List.append_assoc] at hr
  obtain ⟨qs, hq⟩ := h (c :: rest) ps rfl hr
  exact ⟨qs, reads_letter_iff.1 hq⟩

theorem Binds.entry {q : Production} (h : t.Binds g read ahead (.nonterminal name :: form))
    (he : t.entry name (ahead.headD endMarker) = some q) :
    t.Binds g read ahead (q.rhs ++ form) := by
  intro rest ps hh hr
  obtain ⟨qs, hq⟩ := h rest ps hh hr
  cases hq with
  | @entry qs _ _ _ q' he' hq =>
    rw [headD_eq_of_head? hh, he] at he'
    cases he'
    exact ⟨qs, hq⟩

theorem blocked_mismatch (h : pending.headD (.terminal endMarker) = .terminal c)
    (hc : c ≠ ahead.headD endMarker) : t.Blocked pending ahead := by
  intro rest ps hh hr
  rw [← headD_eq_of_head? hh] at hc
  cases hr with
  | done =>
    cases h
    exact hc rfl
  | letter d _ =>
    cases h
    exact hc rfl
  | entry _ _ => cases h

theorem blocked_noEntry (h : t.entry name (ahead.headD endMarker) = none) :
    t.Blocked (.nonterminal name :: form) ahead := by
  intro rest ps hh hr
  cases hr with
  | entry he _ =>
    rw [headD_eq_of_head? hh, h] at he
    contradiction

theorem Binds.not_yields {o : String → Outlook} (h : t.Binds g read ahead pending)
    (hc : Covers o g t) (hb : t.Blocked pending ahead) {rest : List Char}
    (hh : rest.head? = ahead.head?) (d : Derivation) :
    ¬d.Yields g (String.ofList (read ++ rest)) := by
  intro hy
  have hr := hc.reads_of_yields hy
  rw [String.toList_ofList] at hr
  obtain ⟨qs, hq⟩ := h rest _ hh hr
  exact hb rest qs hh hq

end Table

namespace Status

def RejectsAt (c : Char) (status : Status) : Prop :=
  (∃ expected, status = .mismatch expected c) ∨ ∃ name, status = .noEntry name c

@[simp] theorem rejectsAt_mismatch {c d e : Char} : (mismatch e d).RejectsAt c ↔ d = c := by
  simp [RejectsAt]

@[simp] theorem rejectsAt_noEntry {name : String} {c d : Char} :
    (noEntry name d).RejectsAt c ↔ d = c := by
  simp [RejectsAt]

end Status

namespace Analysis

variable {g : Grammar} {t : Table} {read ahead word : List Char} {pending form : Form}
  {a : Analysis} {c : Char}

theorem not_rejectsAt_settle (h : a.status = .running) : ¬a.settle.status.RejectsAt c := by
  rw [status_settle_of_running h]
  split <;> simp [Status.RejectsAt]

/-- No other way to read the input is left open, and a rejection means that this one is
blocked. -/
structure Commits (g : Grammar) (t : Table) (read ahead : List Char) (pending : Form)
    (a : Analysis) : Prop where
  binds : t.Binds g read ahead pending
  blocked : ∀ c, a.status.RejectsAt c → c = ahead.headD endMarker ∧ t.Blocked pending ahead

theorem Tracks.commits_step (ht : t.Backed g) (h : a.Tracks g read ahead pending)
    (hc : a.Commits g t read ahead pending) :
    ∃ read' ahead' pending', read' ++ ahead' = read ++ ahead ∧
      (a.step ⟨g, t⟩).Tracks g read' ahead' pending' ∧
      (a.step ⟨g, t⟩).Commits g t read' ahead' pending' := by
  by_cases hr : a.status = .running
  · obtain ⟨c, word, form, rfl, rfl, he, hs⟩ | ⟨form, q, rfl, hq, he, hs⟩ |
      ⟨c, hd, hne, he, hs⟩ | ⟨name, form, rfl, hn, he, hs⟩ := h.step_cases ht hr
    · refine ⟨read ++ [c], word, form, by simp, hs, hc.binds.letter, fun d hd => ?_⟩
      rw [he] at hd
      exact absurd hd (not_rejectsAt_settle rfl)
    · refine ⟨read, ahead, q.rhs ++ form, rfl, hs, hc.binds.entry hq, fun d hd => ?_⟩
      rw [he] at hd
      exact absurd hd (not_rejectsAt_settle rfl)
    · refine ⟨read, ahead, pending, rfl, hs, hc.binds, fun d ha => ?_⟩
      rw [he] at ha
      exact ⟨(Status.rejectsAt_mismatch.1 ha).symm, Table.blocked_mismatch hd hne⟩
    · refine ⟨read, ahead, _, rfl, hs, hc.binds, fun d ha => ?_⟩
      rw [he] at ha
      exact ⟨(Status.rejectsAt_noEntry.1 ha).symm, Table.blocked_noEntry hn⟩
  · refine ⟨read, ahead, pending, rfl, ?_⟩
    rw [step_of_isFinished _ (isFinished_of_ne_running hr)]
    exact ⟨h, hc⟩

theorem commits_iterate (ht : t.Backed g) (hw : endMarker ∉ word) (n : Nat) :
    ∃ read ahead pending, read ++ ahead = word ∧
      ((Analysis.step ⟨g, t⟩)^[n] (ofWord g.start word)).Tracks g read ahead pending ∧
      ((Analysis.step ⟨g, t⟩)^[n] (ofWord g.start word)).Commits g t read ahead pending := by
  induction n with
  | zero =>
    refine ⟨[], word, g.startForm, rfl, tracks_ofWord g hw, Table.binds_start g t word, ?_⟩
    simp [ofWord, Status.RejectsAt]
  | succ n ih =>
    obtain ⟨read, ahead, pending, rfl, h, hc⟩ := ih
    rw [Function.iterate_succ_apply']
    exact h.commits_step ht hc

theorem exists_of_rejectsAt {o : String → Outlook} {n : Nat} (ht : t.Backed g)
    (ho : Covers o g t) (hg : g.Closed) (hp : g.Productive) (hw : endMarker ∉ word)
    (h : ((step ⟨g, t⟩)^[n] (ofWord g.start word)).status.RejectsAt c) :
    ∃ read ahead, read ++ ahead = word ∧ c = ahead.headD endMarker ∧
      ((step ⟨g, t⟩)^[n] (ofWord g.start word)).configuration.input = ahead ++ [endMarker] ∧
      (∃ (d : Derivation) (rest : List Char), d.Yields g (String.ofList (read ++ rest))) ∧
      ∀ (d : Derivation) (rest : List Char), rest.head? = ahead.head? →
        ¬d.Yields g (String.ofList (read ++ rest)) := by
  obtain ⟨read, ahead, pending, hr, ha, hc⟩ := commits_iterate ht hw n
  obtain ⟨hl, hb⟩ := hc.blocked c h
  refine ⟨read, ahead, hr, hl, ?_, Grammar.exists_yields_of_form hg hp ha.form, ?_⟩
  · rw [ha.configuration]
    rfl
  · exact fun d rest hh => hc.binds.not_yields ho hb hh d

end Analysis

namespace Parser

def standardChoices : String → List Choice
  | "S" => [⟨"S", 1⟩, ⟨"A", 1⟩]
  | "A" => [⟨"A", 1⟩]
  | "B" => [⟨"B", 0⟩, ⟨"A", 1⟩]
  | "C" => [⟨"C", 2⟩]
  | "D" => [⟨"D", 1⟩, ⟨"A", 1⟩]
  | _ => []

theorem productive_standard : Grammar.standard.Productive := by
  have h : ∀ p ∈ Grammar.standard.rules,
      (Grammar.standard.chooseAll (standardChoices p.lhs) [.nonterminal p.lhs]).map
        Form.isComplete = .ok true := by decide
  intro name hn
  obtain ⟨p, hp, rfl⟩ := Grammar.declares_iff.1 hn
  obtain ⟨form, hf, hc⟩ := map_eq_ok_iff.1 (h p hp)
  rw [Form.isComplete_iff.1 hc] at hf
  exact ⟨_, _, Grammar.derives_of_chooseAll hf⟩

/-- The standard parser rejects at the first character that no sentence has there. -/
theorem standard_rejects_earliest {input : String} (hne : input ≠ "")
    (hs : ∀ c ∈ input.toList, c ∈ ['a', 'b', 'c', 'd']) :
    ∃ a, standard.parse input = .ok a ∧ ∀ c, a.status.RejectsAt c →
      ∃ read ahead, read ++ ahead = input.toList ∧
        a.configuration.input = ahead ++ [endMarker] ∧ c = a.configuration.lookahead ∧
        (∃ (d : Derivation) (sentence : String),
          d.Yields Grammar.standard sentence ∧ read <+: sentence.toList) ∧
        (c ≠ endMarker → ∀ (d : Derivation) (sentence : String),
          d.Yields Grammar.standard sentence → ¬read ++ [c] <+: sentence.toList) ∧
        (c = endMarker → ∀ d : Derivation, ¬d.Yields Grammar.standard (String.ofList read)) := by
  have hc : standard.check input = .ok input.toList := check_of_letters hne hs
  have hm := endMarker_notMem_of_check hc
  refine ⟨_, parse_eq_run hc, fun c h => ?_⟩
  rw [Analysis.run, Analysis.runWithin_eq_iterate] at h ⊢
  obtain ⟨read, ahead, hr, hl, hi, ⟨d, rest, hy⟩, hn⟩ :=
    Analysis.exists_of_rejectsAt (Table.backed_ofCells Table.standard_standard) covers_standard
      (Grammar.validate_eq_ok_iff.1 rfl) productive_standard hm h
  have hla : c = (ahead ++ [endMarker]).headD endMarker := by
    rw [hl]
    cases ahead <;> rfl
  rw [← hi] at hla
  refine ⟨read, ahead, hr, hi, hla, ⟨d, _, hy, ?_⟩, fun hc d sentence hy => ?_, fun hc d hy => ?_⟩
  · rw [String.toList_ofList]
    exact List.prefix_append read rest
  · cases ahead with
    | nil => exact absurd hl hc
    | cons e ahead =>
      rw [List.headD_cons] at hl
      subst hl
      exact Derivation.not_isPrefix_of_not_yields hn hy
  · cases ahead with
    | nil => exact hn d [] rfl (by rwa [List.append_nil])
    | cons e ahead =>
      rw [hc, List.headD_cons] at hl
      exact hm (by rw [← hr, hl]; simp)

theorem standard_rejects_earliest_bb :
    "bb" ≠ "" ∧ (∀ c ∈ "bb".toList, c ∈ ['a', 'b', 'c', 'd']) ∧
      ∃ a, standard.parse "bb" = .ok a ∧ a.status.RejectsAt 'b' ∧
        a.configuration.input = ['b', endMarker] ∧
        (∃ (d : Derivation) (sentence : String),
          d.Yields Grammar.standard sentence ∧ ['b'] <+: sentence.toList) ∧
        ∀ (d : Derivation) (sentence : String), d.Yields Grammar.standard sentence →
          ¬['b', 'b'] <+: sentence.toList := by
  have hs : "bb".toList ⊆ ['a', 'b', 'c', 'd'] := by decide
  have he : (standard.parse "bb").map (fun a => (a.status, a.configuration.input)) =
      .ok (.mismatch endMarker 'b', ['b', endMarker]) := by decide +kernel
  obtain ⟨a, ha, h⟩ := standard_rejects_earliest (by decide) fun c hc => hs hc
  obtain ⟨_, ha', hi⟩ := map_eq_ok_iff.1 he
  cases ha.symm.trans ha'
  obtain ⟨hm, hi⟩ := Prod.mk.inj hi
  have hr : a.status.RejectsAt 'b' := by rw [hm, Status.rejectsAt_mismatch]
  obtain ⟨read, ahead, hw, hi', _, hy, hn, _⟩ := h 'b' hr
  rw [hi] at hi'
  obtain rfl : ['b'] = ahead :=
    List.append_cancel_right (show ['b'] ++ [endMarker] = ahead ++ [endMarker] from hi')
  obtain rfl : read = ['b'] := List.append_cancel_right (hw.trans (by decide))
  exact ⟨by decide, fun c hc => hs hc, a, ha, hr, hi, hy, hn (by decide)⟩

end Parser

end Predictive
