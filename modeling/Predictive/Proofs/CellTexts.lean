import Predictive.Proofs.WrittenCells

/-! Cells and their texts. A cell tells its production by the text alone, and texts are written
without quotes or gaps. An entry is stored for being the first production of its name with the text
of its cell; so the listing of a table consists of the very cells that the table was made of. -/
namespace Predictive

namespace Cell

def ofEntry (e : Char × Production) : Cell :=
  ⟨e.2.lhs, e.1, e.2.rhsText⟩

variable {g : Grammar} {cell : Cell} {cells : List Cell} {p : Production}

theorem rhsText_of_meaning? (h : cell.meaning? g = some p) : p.rhsText = cell.rhs := by
  have hb := List.find?_some h
  exact beq_iff_eq.1 hb

theorem ofEntry_of_meaning? (h : cell.meaning? g = some p) :
    ofEntry (cell.lookahead, p) = cell := by
  rw [ofEntry, (meaning?_eq_some h).2, rhsText_of_meaning? h]

theorem map_ofEntry_stored? (h : ∀ cell ∈ cells, ∃ p, cell.meaning? g = some p) :
    (cells.filterMap (stored? g)).map ofEntry = cells := by
  have hs : ∀ cell ∈ cells, (cell.stored? g).map ofEntry = some cell := by
    intro cell hm
    obtain ⟨p, hp⟩ := h cell hm
    rw [stored?, hp]
    exact congrArg some (ofEntry_of_meaning? hp)
  rw [List.map_filterMap, List.filterMap_congr hs, List.filterMap_some]

end Cell

namespace Table

/-- The entries of a table as cells, row by row. -/
def listing (t : Table) : List Cell :=
  t.entries.map Cell.ofEntry

variable {g : Grammar} {t : Table} {cells listed : List Cell} {e : Char × Production}

namespace Records

theorem perm_listing (h : Records g cells t) : t.listing.Perm cells := by
  have hm : ∀ cell ∈ cells, ∃ p, cell.meaning? g = some p :=
    fun cell hc => Cell.exists_meaning (h.acceptable.1 cell hc).matched
  have hp := h.entries.map Cell.ofEntry
  rwa [Cell.map_ofEntry_stored? hm] at hp

theorem meaning?_ofEntry (h : Records g cells t) (he : e ∈ t.entries) :
    (Cell.ofEntry e).meaning? g = some e.2 := by
  obtain ⟨c, p⟩ := e
  obtain ⟨cell, _, hp, rfl⟩ := Cell.mem_filterMap_stored?.1 (h.entries.mem_iff.1 he)
  rw [Cell.ofEntry_of_meaning? hp]
  exact hp

end Records

/-- Reading the listing of a table back, in any order, gives the table again; but for the order
there is no other way to write the table. Every entry is what its own cell means, also where
several productions of a name have one text. -/
theorem ofCells_listing (h : ofCells g cells = .ok t) :
    (∀ e ∈ t.entries, (Cell.ofEntry e).meaning? g = some e.2) ∧
      ∀ listed, ofCells g listed = .ok t ↔ listed.Perm t.listing := by
  have hr := records_of_ofCells h
  refine ⟨fun e he => hr.meaning?_ofEntry he, fun listed => ⟨fun hl => ?_, fun ho => ?_⟩⟩
  · exact (records_of_ofCells hl).perm_listing.symm
  · exact ofCells_perm h (ho.trans hr.perm_listing)

theorem ofCells_listing_lookalikes :
    let g : Grammar := ⟨"S", [⟨"S", [.terminal 'a']⟩, ⟨"S", [.nonterminal "a"]⟩,
      ⟨"S", [.terminal 'ε']⟩, ⟨"S", []⟩, ⟨"a", [.terminal 'x']⟩], by decide⟩
    ∃ t, ofCells g [⟨"a", 'x', "x"⟩, ⟨"S", 'x', "a"⟩, ⟨"S", 'a', "ε"⟩] = .ok t ∧
      t.listing = [⟨"S", 'a', "ε"⟩, ⟨"S", 'x', "a"⟩, ⟨"a", 'x', "x"⟩] ∧
      ofCells g t.listing.reverse = .ok t ∧
      (Cell.mk "S" 'a' "ε").meaning? g = some ⟨"S", [.terminal 'ε']⟩ := by
  intro g
  have ht : ofCells g [⟨"a", 'x', "x"⟩, ⟨"S", 'x', "a"⟩, ⟨"S", 'a', "ε"⟩] =
      .ok ⟨[⟨"S", [('a', [.terminal 'ε']), ('x', [.terminal 'a'])]⟩,
        ⟨"a", [('x', [.terminal 'x'])]⟩]⟩ := rfl
  obtain ⟨he, hl⟩ := ofCells_listing ht
  exact ⟨_, ht, rfl, (hl _).2 (List.reverse_perm _), he ('a', _) List.mem_cons_self⟩

end Table

/-! A table that is written for an assignment of productions to places stores the first production of
the name with the text of the assigned one. It is the assigned one for certain where no text of a
symbol begins another. -/

namespace Form

theorem eq_of_flatMap_text_eq {a b : Form} (ha : ∀ s ∈ a, s.text ≠ "")
    (hb : ∀ s ∈ b, s.text ≠ "")
    (hp : ∀ s ∈ a, ∀ r ∈ b, s.text.toList <+: r.text.toList ∨ r.text.toList <+: s.text.toList →
      s = r)
    (he : (a.flatMap fun s => s.text.toList) = b.flatMap fun s => s.text.toList) : a = b := by
  induction a generalizing b with
  | nil =>
    cases b with
    | nil => rfl
    | cons r b =>
      obtain ⟨hr, _⟩ := List.append_eq_nil_iff.1 he.symm
      exact absurd (String.toList_eq_nil_iff.1 hr) (hb r List.mem_cons_self)
  | cons s a ih =>
    cases b with
    | nil =>
      obtain ⟨hs, _⟩ := List.append_eq_nil_iff.1 he
      exact absurd (String.toList_eq_nil_iff.1 hs) (ha s List.mem_cons_self)
    | cons r b =>
      rw [List.flatMap_cons, List.flatMap_cons] at he
      -- both texts begin the same list, so the shorter one begins the longer one
      have hs : s = r := hp s List.mem_cons_self r List.mem_cons_self
        (List.prefix_or_prefix_of_prefix (List.prefix_append _ _)
          (he.symm ▸ List.prefix_append _ _))
      subst hs
      rw [ih (fun r hr => ha r (List.mem_cons_of_mem _ hr))
        (fun r hr => hb r (List.mem_cons_of_mem _ hr))
        (fun r hr q hq => hp r (List.mem_cons_of_mem _ hr) q (List.mem_cons_of_mem _ hq))
        (List.append_cancel_left he)]

theorem toList_text_of_ne_nil {form : Form} (h : form ≠ []) :
    form.text.toList = form.flatMap fun s => s.text.toList := by
  rw [text, if_neg (by simpa using h), String.toList_join, List.flatMap_map]

end Form

namespace Grammar

variable {g : Grammar} {p q : Production}

/-- No symbol on a right-hand side has a text that begins the text of another, and none is
written as the empty right-hand side is. -/
structure Legible (g : Grammar) : Prop where
  distinct : ∀ p ∈ g.rules, ∀ q ∈ g.rules, ∀ s ∈ p.rhs, ∀ r ∈ q.rhs,
    s.text.toList <+: r.text.toList → s = r
  marked : ∀ p ∈ g.rules, ∀ s ∈ p.rhs, s.text ≠ "ε"

theorem text_ne_empty {s : Symbol} (hp : p ∈ g.rules) (hs : s ∈ p.rhs) : s.text ≠ "" := by
  have h := g.spellable p hp s hs
  cases s with
  | terminal c => exact String.singleton_ne_empty
  | nonterminal name => exact h.1

theorem Legible.rhsText_eq_epsilon_iff (h : g.Legible) (hp : p ∈ g.rules) :
    p.rhsText = "ε" ↔ p.rhs = [] := by
  refine ⟨fun he => by_contra fun hr => ?_, fun hr => by rw [Production.rhsText, hr]; rfl⟩
  obtain ⟨s, rest, hf⟩ := List.exists_cons_of_ne_nil hr
  have hs : s ∈ p.rhs := hf ▸ List.mem_cons_self
  have hl : s.text.toList <+: "ε".toList := by
    rw [← he, Production.rhsText, Form.toList_text_of_ne_nil hr, hf]
    exact List.prefix_append _ _
  have hn := List.length_pos_iff.2 (mt String.toList_eq_nil_iff.1 (text_ne_empty hp hs))
  have hle : s.text.toList.length ≤ 1 := hl.length_le
  exact h.marked p hp s hs (String.toList_inj.1 (hl.eq_of_length (Nat.le_antisymm hle hn)))

theorem Legible.rhs_eq_of_rhsText_eq (h : g.Legible) (hp : p ∈ g.rules) (hq : q ∈ g.rules)
    (he : p.rhsText = q.rhsText) : p.rhs = q.rhs := by
  have hn : p.rhs = [] ↔ q.rhs = [] := by
    rw [← h.rhsText_eq_epsilon_iff hp, ← h.rhsText_eq_epsilon_iff hq, he]
  by_cases hpn : p.rhs = []
  · rw [hpn, hn.1 hpn]
  · refine Form.eq_of_flatMap_text_eq (fun s hs => text_ne_empty hp hs)
      (fun r hr => text_ne_empty hq hr) (fun s hs r hr hpre => ?_) ?_
    · rcases hpre with hpre | hpre
      · exact h.distinct p hp q hq s hs r hr hpre
      · exact (h.distinct q hq p hp r hr s hs hpre).symm
    · rw [← Form.toList_text_of_ne_nil hpn, ← Form.toList_text_of_ne_nil (mt hn.2 hpn)]
      exact congrArg String.toList he

theorem Legible.eq_of_rhsText_eq {name : String} (h : g.Legible) (hp : p ∈ g.alternatives name)
    (hq : q ∈ g.alternatives name) (he : p.rhsText = q.rhsText) : p = q := by
  obtain ⟨hp, hpl⟩ := mem_alternatives.1 hp
  obtain ⟨hq, hql⟩ := mem_alternatives.1 hq
  cases p
  cases q
  rw [Production.mk.injEq]
  exact ⟨hpl.trans hql.symm, h.rhs_eq_of_rhsText_eq hp hq he⟩

end Grammar

structure Assignment where
  name : String
  lookahead : Char
  production : Production
deriving DecidableEq, Repr

namespace Assignment

def cell (a : Assignment) : Cell :=
  ⟨a.name, a.lookahead, a.production.rhsText⟩

/-- A production of the name with the text of the assigned one, and none of them before it. -/
def Leads (g : Grammar) (a : Assignment) (p : Production) : Prop :=
  ∃ before after, g.productionsOf a.name = .ok (before ++ p :: after) ∧
    p.rhsText = a.production.rhsText ∧ ∀ q ∈ before, q.rhsText ≠ a.production.rhsText

end Assignment

namespace Grammar

structure Assignable (g : Grammar) (assigned : List Assignment) : Prop where
  lookaheads : ∀ a ∈ assigned, a.lookahead = endMarker ∨ a.lookahead ∈ g.terminals
  productions : ∀ a ∈ assigned, ∃ ps, g.productionsOf a.name = .ok ps ∧ a.production ∈ ps
  places : (assigned.map fun a => (a.name, a.lookahead)).Nodup

variable {g : Grammar} {assigned : List Assignment} {a : Assignment} {p : Production}

theorem Assignable.mem_alternatives (h : g.Assignable assigned) (ha : a ∈ assigned) :
    a.production ∈ g.alternatives a.name := by
  obtain ⟨ps, hps, hm⟩ := h.productions a ha
  rw [(productionsOf_eq_ok_iff.1 hps).2]
  exact hm

theorem Assignable.acceptable (h : g.Assignable assigned) :
    Table.Acceptable g (assigned.map (·.cell)) := by
  constructor
  · intro cell hc
    obtain ⟨a, ha, rfl⟩ := List.mem_map.1 hc
    obtain ⟨ps, hps, _⟩ := h.productions a ha
    exact ⟨h.lookaheads a ha, (productionsOf_eq_ok_iff.1 hps).1,
      _, h.mem_alternatives ha, rfl⟩
  · rw [List.map_map]
    exact h.places

end Grammar

namespace Table

variable {g : Grammar} {assigned : List Assignment} {a : Assignment} {t : Table} {p : Production}

theorem meaning?_cell_eq_some_iff : a.cell.meaning? g = some p ↔ a.Leads g p := by
  rw [Cell.meaning?, List.find?_eq_some_iff_append, Assignment.Leads]
  constructor
  · rintro ⟨ht, before, after, hs, hb⟩
    have hd : g.declares a.name = true :=
      Grammar.declares_iff.2 ⟨p, Grammar.mem_alternatives.1 (hs ▸ List.mem_append_cons_self)⟩
    exact ⟨before, after, Grammar.productionsOf_eq_ok_iff.2 ⟨hd, hs⟩, beq_iff_eq.1 ht,
      fun q hq => by simpa [Assignment.cell] using hb q hq⟩
  · rintro ⟨before, after, hs, ht, hb⟩
    exact ⟨beq_iff_eq.2 ht, before, after, (Grammar.productionsOf_eq_ok_iff.1 hs).2,
      fun q hq => by simpa [Assignment.cell] using hb q hq⟩

theorem Records.entry_assigned_iff (h : Records g (assigned.map (·.cell)) t) (ha : a ∈ assigned) :
    t.entry a.name a.lookahead = some p ↔ a.Leads g p := by
  rw [h.entry_eq_some_iff, ← meaning?_cell_eq_some_iff]
  constructor
  · rintro ⟨cell, hc, hm, he⟩
    obtain ⟨b, hb, rfl⟩ := List.mem_map.1 hc
    rwa [List.inj_on_of_nodup_map h.acceptable.2 (List.mem_map_of_mem ha) hc he.symm]
  · exact fun hm => ⟨a.cell, List.mem_map_of_mem ha, hm, rfl⟩

theorem Records.exists_entry_assigned (h : Records g (assigned.map (·.cell)) t)
    (ha : a ∈ assigned) :
    ∃ p, t.entry a.name a.lookahead = some p ∧ p ∈ g.alternatives a.name ∧
      p.rhsText = a.production.rhsText := by
  obtain ⟨p, hp⟩ := Cell.exists_meaning
    (h.acceptable.1 a.cell (List.mem_map_of_mem ha)).matched
  obtain ⟨ht, before, after, hs, _⟩ := List.find?_eq_some_iff_append.1 hp
  exact ⟨p, (h.entry_assigned_iff ha).2 (meaning?_cell_eq_some_iff.1 hp),
    hs ▸ List.mem_append_cons_self, beq_iff_eq.1 ht⟩

/-- Cells written for assigned productions make a table, and its entry is the first production
of the name with the text that was written. That is the assigned one if no other production of
the name has its text, as in a legible grammar. -/
theorem ofCells_assigned (h : g.Assignable assigned) :
    ∃ t, ofCells g (assigned.map (·.cell)) = .ok t ∧ ∀ a ∈ assigned,
      (∃ p, t.entry a.name a.lookahead = some p) ∧
      (∀ p, t.entry a.name a.lookahead = some p ↔ a.Leads g p) ∧
      ((∀ p ∈ g.alternatives a.name, p.rhsText = a.production.rhsText → p = a.production) →
        t.entry a.name a.lookahead = some a.production) ∧
      (g.Legible → t.entry a.name a.lookahead = some a.production) := by
  obtain ⟨t, ht, hr⟩ := exists_records h.acceptable
  refine ⟨t, ht, fun a ha => ?_⟩
  obtain ⟨p, hp, hm, he⟩ := hr.exists_entry_assigned ha
  have hu (hu : ∀ p ∈ g.alternatives a.name, p.rhsText = a.production.rhsText →
      p = a.production) : t.entry a.name a.lookahead = some a.production := by
    rw [hp, hu p hm he]
  exact ⟨⟨p, hp⟩, fun p => hr.entry_assigned_iff ha, hu,
    fun hg => hu fun q hq hq' => hg.eq_of_rhsText_eq hq (h.mem_alternatives ha) hq'⟩

theorem ofCells_assigned_standard :
    ∃ t, ofCells .standard [⟨"C", 'b', "ε"⟩, ⟨"S", '$', "bA"⟩] = .ok t ∧
      t.entry "S" '$' = some ⟨"S", [.terminal 'b', .nonterminal "A"]⟩ ∧
      t.entry "C" 'b' = some ⟨"C", []⟩ := by
  have ha : Grammar.standard.Assignable [⟨"C", 'b', ⟨"C", []⟩⟩,
      ⟨"S", '$', ⟨"S", [.terminal 'b', .nonterminal "A"]⟩⟩] := by
    refine ⟨by decide, ?_, by decide⟩
    simp only [List.forall_mem_cons]
    exact ⟨⟨_, rfl, by decide⟩, ⟨_, rfl, by decide⟩, by simp⟩
  have hg : Grammar.standard.Legible := ⟨by decide, by decide⟩
  obtain ⟨t, ht, he⟩ := ofCells_assigned ha
  simp only [List.forall_mem_cons] at he
  obtain ⟨⟨_, _, _, hc⟩, ⟨_, _, _, hs⟩, _⟩ := he
  exact ⟨t, ht, hs hg, hc hg⟩

/-- A grammar in which S has two productions that are both written `a`. -/
def lookalikes : Grammar where
  start := "S"
  rules := [⟨"S", [.terminal 'a']⟩, ⟨"S", [.nonterminal "a"]⟩, ⟨"a", [.terminal 'x']⟩]
  spellable := by decide

/-- The later one of two productions with one text cannot be written. -/
theorem exists_entry_ne_assigned :
    Grammar.build "S" [⟨"S", ["a"]⟩, ⟨"S", ["<a>"]⟩, ⟨"a", ["x"]⟩] = .ok lookalikes ∧
      lookalikes.Assignable [⟨"S", 'x', ⟨"S", [.nonterminal "a"]⟩⟩] ∧
      ∃ t, ofCells lookalikes [⟨"S", 'x', "a"⟩] = .ok t ∧
        t.entry "S" 'x' = some ⟨"S", [.terminal 'a']⟩ ∧
        t.entry "S" 'x' ≠ some ⟨"S", [.nonterminal "a"]⟩ := by
  refine ⟨rfl, ⟨by decide, ?_, by decide⟩, _, rfl, by decide, by decide⟩
  simp only [List.forall_mem_cons]
  exact ⟨⟨_, rfl, by decide⟩, by simp⟩

end Table

end Predictive
