import Mathlib.Data.List.Nodup
import Predictive.Table
import Predictive.Proofs.Productions

/-! Entries of checked tables. Cells are given by texts that several productions may share; still,
every entry of a table that was checked against a grammar is one of its productions. The rows have
different names and their cells different lookaheads, both in a fixed order; so the entries, listed
row by row, tell the whole table, and what matters of filling a cell is that it adds one entry. -/
namespace Predictive

theorem Row.perm_insert (lookahead : Char) (rhs : Form) (cells : List (Char × Form)) :
    (Row.insert lookahead rhs cells).Perm ((lookahead, rhs) :: cells) := by
  induction cells with
  | nil => exact .refl _
  | cons first rest ih =>
    rw [Row.insert]
    split
    · exact .refl _
    · exact (ih.cons first).trans (.swap _ _ _)

theorem Row.mem_insert {lookahead : Char} {rhs : Form} {cells : List (Char × Form)}
    {cell : Char × Form} :
    cell ∈ Row.insert lookahead rhs cells ↔ cell = (lookahead, rhs) ∨ cell ∈ cells :=
  (Row.perm_insert lookahead rhs cells).mem_iff.trans List.mem_cons

namespace Table

variable {g : Grammar} {t t' : Table} {name : String} {c : Char} {p : Production} {cell : Cell}
  {cells : List Cell}

/-- Every stored right-hand side is one of the alternatives of its row's name. -/
def Backed (g : Grammar) (t : Table) : Prop :=
  ∀ row ∈ t.rows, ∀ e ∈ row.entries, e.2 ∈ g.rules

theorem backed_empty (g : Grammar) : (empty g).Backed g := by
  intro row hr e he
  obtain ⟨n, _, rfl⟩ := List.mem_map.1 hr
  contradiction

theorem backed_fill (ht : t.Backed g) (hp : p ∈ g.rules) : (t.fill c p).Backed g := by
  intro row hr e he
  obtain ⟨old, ho, rfl⟩ := List.mem_map.1 hr
  split at he
  next hn =>
    obtain ⟨cell, hc, rfl⟩ := List.mem_map.1 he
    rcases Row.mem_insert.1 hc with rfl | hc
    · rw [hn]
      exact hp
    · exact ht old ho _ (List.mem_map_of_mem hc)
  next => exact ht old ho e he

theorem find?_of_resolve (h : resolve g cell = .ok p) : g.declares cell.name = true ∧
    (g.alternatives cell.name).find? (·.rhsText == cell.rhs) = some p := by
  unfold resolve at h
  split at h
  · contradiction
  · split at h
    · contradiction
    next ps hps =>
      obtain ⟨hd, rfl⟩ := Grammar.productionsOf_eq_ok_iff.1 hps
      split at h
      next q hq =>
        cases h
        exact ⟨hd, hq⟩
      · contradiction

theorem mem_rules_of_resolve (h : resolve g cell = .ok p) : p ∈ g.rules :=
  (Grammar.mem_alternatives.1 (List.mem_of_find?_eq_some (find?_of_resolve h).2)).1

theorem backed_add (ht : t.Backed g) (h : add g t cell = .ok t') : t'.Backed g := by
  unfold add at h
  split at h
  · contradiction
  next q hq =>
    split at h
    · contradiction
    · cases h
      exact backed_fill ht (mem_rules_of_resolve hq)

theorem backed_addAll (ht : t.Backed g) (h : addAll g cells t = .ok t') : t'.Backed g := by
  induction cells generalizing t with
  | nil =>
    cases h
    exact ht
  | cons cell rest ih =>
    rw [addAll] at h
    split at h
    next next hn => exact ih (backed_add ht hn) h
    · contradiction

theorem exists_row_of_entry (h : t.entry name c = some p) :
    ∃ row ∈ t.rows, row.name = name ∧ (c, p) ∈ row.entries := by
  obtain ⟨row, hr, h⟩ := Option.bind_eq_some_iff.1 h
  obtain ⟨rhs, hl, rfl⟩ := Option.map_eq_some_iff.1 h
  have hn : row.name = name := by simpa using List.find?_some hr
  obtain ⟨before, after, hc, _⟩ := List.lookup_eq_some_iff.1 hl
  have hm : (c, rhs) ∈ row.cells := by simp [hc]
  refine ⟨row, List.mem_of_find?_eq_some hr, hn, ?_⟩
  rw [← hn]
  exact List.mem_map_of_mem hm

theorem mem_of_entry (h : t.entry name c = some p) :
    name ∈ t.rows.map (·.name) ∧ (c, p) ∈ t.entries := by
  obtain ⟨row, hr, rfl, he⟩ := exists_row_of_entry h
  exact ⟨List.mem_map_of_mem hr, List.mem_flatMap.2 ⟨row, hr, he⟩⟩

theorem Backed.mem_rules_of_entry (ht : t.Backed g) (h : t.entry name c = some p) :
    p ∈ g.rules := by
  obtain ⟨row, hr, _, he⟩ := exists_row_of_entry h
  exact ht row hr _ he

theorem backed_ofCells (h : ofCells g cells = .ok t) : t.Backed g :=
  backed_addAll (backed_empty g) h

end Table

namespace Row

variable {lookahead : Char} {rhs : Form} {cells : List (Char × Form)} {row : Row} {rows : List Row}

theorem pairwise_insert (hc : ∀ cell ∈ cells, cell.1 ≠ lookahead)
    (h : cells.Pairwise (·.1 < ·.1)) : (insert lookahead rhs cells).Pairwise (·.1 < ·.1) := by
  induction cells with
  | nil => exact List.pairwise_singleton _ _
  | cons first rest ih =>
    obtain ⟨hf, hr⟩ := List.pairwise_cons.1 h
    rw [insert]
    split
    next hlt =>
      refine List.pairwise_cons.2 ⟨fun cell hm => ?_, h⟩
      rcases List.mem_cons.1 hm with rfl | hm
      · exact hlt
      · exact Char.lt_trans hlt (hf cell hm)
    next hlt =>
      refine List.pairwise_cons.2 ⟨fun cell hm => ?_,
        ih (fun cell hm => hc cell (List.mem_cons_of_mem _ hm)) hr⟩
      rcases mem_insert.1 hm with rfl | hm
      · exact Char.not_le.1 fun hle =>
          hc first List.mem_cons_self (Char.le_antisymm (Char.not_lt.1 hlt) hle)
      · exact hf cell hm

theorem lookup_eq_some_iff (h : cells.Pairwise (·.1 < ·.1)) :
    cells.lookup lookahead = some rhs ↔ (lookahead, rhs) ∈ cells := by
  induction cells with
  | nil => simp
  | cons first rest ih =>
    obtain ⟨hf, hr⟩ := List.pairwise_cons.1 h
    rw [List.lookup_cons, List.mem_cons]
    by_cases hc : lookahead = first.1
    · have hn : (lookahead, rhs) ∉ rest := fun hm => Char.lt_irrefl _ (hc ▸ hf _ hm)
      simp [hc ▸ hn, hc, Prod.ext_iff, eq_comm]
    · have hb : (lookahead == first.1) = false := beq_false_of_ne hc
      simp [hb, ih hr, Prod.ext_iff, hc]

theorem lhs_of_mem_entries {e : Char × Production} (h : e ∈ row.entries) :
    e.2.lhs = row.name := by
  obtain ⟨cell, _, rfl⟩ := List.mem_map.1 h
  rfl

theorem perm_entries_insert (lookahead : Char) (rhs : Form) (row : Row) :
    (entries ⟨row.name, insert lookahead rhs row.cells⟩).Perm
      ((lookahead, ⟨row.name, rhs⟩) :: row.entries) :=
  (perm_insert lookahead rhs row.cells).map _

theorem filter_entries (hn : (rows.map (·.name)).Nodup) (hr : row ∈ rows) :
    (rows.flatMap entries).filter (·.2.lhs == row.name) = row.entries :=
  Grammar.filter_flatMap_of_nodup Row.name (fun e : Char × Production => e.2.lhs) hn
    (fun _ _ _ => lhs_of_mem_entries) hr

theorem cells_eq_map_entries (row : Row) : row.cells = row.entries.map fun e => (e.1, e.2.rhs) := by
  rw [entries, List.map_map]
  exact (List.map_id _).symm

end Row

namespace Table

variable {g : Grammar} {t t' : Table} {name : String} {c : Char} {p : Production}

/-- One row for each declared name, in the order of declaration, and the cells of a row in the
order of their lookaheads. -/
structure Ordered (g : Grammar) (t : Table) : Prop where
  names : t.rows.map (·.name) = g.nonterminals
  increasing : ∀ row ∈ t.rows, row.cells.Pairwise (·.1 < ·.1)

/-- One entry stands before another: in an earlier row, or in the same row with a smaller
lookahead. -/
def Precedes (g : Grammar) (d e : Char × Production) : Prop :=
  g.nonterminals.idxOf d.2.lhs < g.nonterminals.idxOf e.2.lhs ∨
    d.2.lhs = e.2.lhs ∧ d.1 < e.1

theorem Precedes.asymm {d e : Char × Production} (h : Precedes g d e) : ¬Precedes g e d := by
  rintro (hp | ⟨hp, hl⟩) <;> rcases h with h | ⟨h, hl'⟩
  · omega
  · rw [h] at hp
    omega
  · rw [hp] at h
    omega
  · exact Char.lt_irrefl _ (Char.lt_trans hl hl')

/-- What is printed of a name: the name filled up to three places, then each of its entries with
its lookahead in front. -/
def printedRow (t : Table) (name : String) : String :=
  name ++ String.ofList (.replicate (3 - name.length) ' ') ++
    "  ".intercalate ((t.entries.filter (·.2.lhs == name)).map fun e =>
      String.singleton e.1 ++ ": " ++ e.2.rhsText)

theorem ordered_empty (g : Grammar) : (empty g).Ordered g where
  names := by
    rw [empty, List.map_map]
    exact List.map_id _
  increasing := by
    intro row hr
    obtain ⟨n, _, rfl⟩ := List.mem_map.1 hr
    exact .nil

theorem names_fill (t : Table) (c : Char) (p : Production) :
    (t.fill c p).rows.map (·.name) = t.rows.map (·.name) := by
  rw [fill, List.map_map]
  refine List.map_congr_left fun row _ => ?_
  rw [Function.comp_apply]
  split <;> rfl

namespace Ordered

theorem nodup_names (ht : t.Ordered g) : (t.rows.map (·.name)).Nodup :=
  ht.names ▸ g.nodup_nonterminals

theorem find?_row {row : Row} (ht : t.Ordered g) (hr : row ∈ t.rows) :
    t.rows.find? (·.name == row.name) = some row := by
  obtain ⟨found, hf⟩ := Option.isSome_iff_exists.1
    (List.find?_isSome (p := (·.name == row.name)).2 ⟨row, hr, beq_self_eq_true _⟩)
  have hn : found.name = row.name := by simpa using List.find?_some hf
  rw [hf, List.inj_on_of_nodup_map ht.nodup_names (List.mem_of_find?_eq_some hf) hr hn]

theorem entry_eq_some_iff (ht : t.Ordered g) :
    t.entry name c = some p ↔ p.lhs = name ∧ (c, p) ∈ t.entries := by
  constructor
  · intro h
    obtain ⟨row, hr, _, hm⟩ := exists_row_of_entry h
    exact ⟨lhs_of_entry h, List.mem_flatMap.2 ⟨row, hr, hm⟩⟩
  · rintro ⟨rfl, hm⟩
    obtain ⟨row, hr, hm⟩ := List.mem_flatMap.1 hm
    obtain ⟨cell, hc, he⟩ := List.mem_map.1 hm
    cases he
    dsimp only
    rw [entry, ht.find?_row hr, Option.bind_some,
      (Row.lookup_eq_some_iff (ht.increasing row hr)).2 hc]
    rfl

theorem fill (ht : t.Ordered g) (hc : t.entry p.lhs c = none) : (t.fill c p).Ordered g where
  names := (names_fill t c p).trans ht.names
  increasing := by
    intro row hr
    obtain ⟨old, ho, rfl⟩ := List.mem_map.1 hr
    split
    next hn =>
      refine Row.pairwise_insert (fun cell hm he => ?_) (ht.increasing old ho)
      have hs : t.entry p.lhs c = some ⟨old.name, cell.2⟩ :=
        ht.entry_eq_some_iff.2 ⟨hn, List.mem_flatMap.2 ⟨old, ho, he ▸ List.mem_map_of_mem hm⟩⟩
      rw [hc] at hs
      contradiction
    next => exact ht.increasing old ho

theorem rows_eq (ht : t.Ordered g) : t.rows = g.nonterminals.map fun name =>
    ⟨name, (t.entries.filter (·.2.lhs == name)).map fun e => (e.1, e.2.rhs)⟩ := by
  rw [← ht.names, List.map_map]
  refine (List.map_id _).symm.trans (List.map_congr_left fun row hr => ?_)
  rw [Function.comp_apply, entries, Row.filter_entries ht.nodup_names hr,
    ← Row.cells_eq_map_entries]
  rfl

theorem lines_eq (ht : t.Ordered g) : t.lines = g.nonterminals.map t.printedRow := by
  rw [lines, ht.rows_eq, List.map_map]
  refine List.map_congr_left fun name _ => ?_
  rw [Function.comp_apply, Row.text, Column.left_eq, List.map_map]
  rfl

theorem text_eq (ht : t.Ordered g) :
    t.text = String.join (g.nonterminals.map (t.printedRow · ++ "\n")) := by
  rw [text, ht.lines_eq, List.map_map]
  rfl

theorem entries_eq (ht : t.Ordered g) : t.entries = g.nonterminals.flatMap fun name =>
    t.entries.filter (·.2.lhs == name) := by
  have hr : ∀ row ∈ t.rows, row.entries = t.entries.filter (·.2.lhs == row.name) :=
    fun row hm => (Row.filter_entries ht.nodup_names hm).symm
  rw [← ht.names, List.flatMap_map]
  exact List.flatMap_congr hr

theorem pairwise_entries (ht : t.Ordered g) : t.entries.Pairwise (Precedes g) := by
  refine List.pairwise_flatMap.2 ⟨fun row hr => ?_, ?_⟩
  · rw [Row.entries, List.pairwise_map]
    exact (ht.increasing row hr).imp fun h => .inr ⟨rfl, h⟩
  · have hp : (t.rows.map (·.name)).Pairwise
        fun a b => g.nonterminals.idxOf a < g.nonterminals.idxOf b := by
      rw [ht.names, List.pairwise_iff_getElem]
      intro i j hi hj hij
      rwa [g.nodup_nonterminals.idxOf_getElem i hi, g.nodup_nonterminals.idxOf_getElem j hj]
    refine (List.pairwise_map.1 hp).imp fun h d hd e he => .inl ?_
    rwa [Row.lhs_of_mem_entries hd, Row.lhs_of_mem_entries he]

theorem eq_of_perm (ht : t.Ordered g) (ht' : t'.Ordered g) (h : t.entries.Perm t'.entries) :
    t = t' := by
  have he : t.entries = t'.entries :=
    h.eq_of_pairwise (fun _ _ _ _ hd he => absurd he hd.asymm) ht.pairwise_entries
      ht'.pairwise_entries
  cases t
  cases t'
  exact congrArg _ (ht.rows_eq.trans (he ▸ ht'.rows_eq.symm))

end Ordered

theorem fill_of_notMem (h : p.lhs ∉ t.rows.map (·.name)) : t.fill c p = t := by
  have hr : ∀ row ∈ t.rows, row.name ≠ p.lhs :=
    fun row hm he => h (List.mem_map.2 ⟨row, hm, he⟩)
  rw [fill]
  exact congrArg Table.mk ((List.map_congr_left fun row hm => if_neg (hr row hm)).trans
    (List.map_id _))

theorem perm_entries_fill (hn : (t.rows.map (·.name)).Nodup)
    (hp : p.lhs ∈ t.rows.map (·.name)) : (t.fill c p).entries.Perm ((c, p) :: t.entries) := by
  obtain ⟨rows⟩ := t
  induction rows with
  | nil => contradiction
  | cons row rest ih =>
    obtain ⟨hr, hn⟩ := List.nodup_cons.1 hn
    have hf : (fill ⟨row :: rest⟩ c p).entries =
        (if row.name = p.lhs then (⟨row.name, Row.insert c p.rhs row.cells⟩ : Row)
          else row).entries ++ (fill ⟨rest⟩ c p).entries := rfl
    rw [hf]
    by_cases he : row.name = p.lhs
    · rw [if_pos he, fill_of_notMem (he ▸ hr)]
      have hq : (⟨row.name, p.rhs⟩ : Production) = p := by rw [he]
      have hi := Row.perm_entries_insert c p.rhs row
      rw [hq] at hi
      exact hi.append_right _
    · rw [if_neg he]
      have hm := (List.mem_cons.1 hp).resolve_left fun h => he h.symm
      exact ((ih hn hm).append_left row.entries).trans List.perm_middle

end Table

end Predictive
