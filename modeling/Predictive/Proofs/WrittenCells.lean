import Predictive.Proofs.TableEntries

/-! Written cells and the table they make. Cells are checked one after the other against the
grammar and against those before; the checks on a whole list say no more than that each cell
fits the grammar and none is written twice, so on success the order is of no account. -/
namespace Predictive

namespace Cell

def place (cell : Cell) : String × Char :=
  (cell.name, cell.lookahead)

def meaning? (g : Grammar) (cell : Cell) : Option Production :=
  (g.alternatives cell.name).find? (·.rhsText == cell.rhs)

def stored? (g : Grammar) (cell : Cell) : Option (Char × Production) :=
  (cell.meaning? g).map (cell.lookahead, ·)

/-- The lookahead can come up, the name is declared, and a production of it has the text. -/
structure Fits (g : Grammar) (cell : Cell) : Prop where
  lookahead : cell.lookahead = endMarker ∨ cell.lookahead ∈ g.terminals
  declared : g.declares cell.name = true
  matched : ∃ p ∈ g.alternatives cell.name, p.rhsText = cell.rhs

/-- What is wrong with a cell that comes after others. -/
def fault? (g : Grammar) (earlier : List Cell) (cell : Cell) : Option Fault :=
  if ¬(cell.lookahead = endMarker ∨ cell.lookahead ∈ g.terminals) then
    some (.foreignLookahead cell.name cell.lookahead)
  else if ¬g.declares cell.name = true then some (.undeclared cell.name)
  else if ¬∃ p ∈ g.alternatives cell.name, p.rhsText = cell.rhs then
    some (.unmatchedCell cell.name cell.rhs)
  else if cell.place ∈ earlier.map place then some (.occupiedCell cell.name cell.lookahead)
  else none

variable {g : Grammar} {cell : Cell} {earlier : List Cell} {p : Production} {fault : Fault}

theorem fault?_eq_none_iff :
    cell.fault? g earlier = none ↔ cell.Fits g ∧ cell.place ∉ earlier.map place := by
  unfold fault?
  constructor
  · intro h
    split at h
    next => contradiction
    next hl =>
      split at h
      next => contradiction
      next hd =>
        split at h
        next => contradiction
        next hm =>
          split at h
          next => contradiction
          next hp => exact ⟨⟨not_not.1 hl, not_not.1 hd, not_not.1 hm⟩, hp⟩
  · rintro ⟨⟨hl, hd, hm⟩, hp⟩
    rw [if_neg (not_not.2 hl), if_neg (not_not.2 hd), if_neg (not_not.2 hm), if_neg hp]

theorem meaning?_eq_some (h : cell.meaning? g = some p) : p ∈ g.rules ∧ p.lhs = cell.name :=
  Grammar.mem_alternatives.1 (List.mem_of_find?_eq_some h)

theorem exists_meaning (h : ∃ p ∈ g.alternatives cell.name, p.rhsText = cell.rhs) :
    ∃ p, cell.meaning? g = some p := by
  obtain ⟨p, hp, he⟩ := h
  exact Option.isSome_iff_exists.1 (List.find?_isSome.2 ⟨p, hp, beq_iff_eq.2 he⟩)

theorem meaning?_eq_none (h : ¬∃ p ∈ g.alternatives cell.name, p.rhsText = cell.rhs) :
    cell.meaning? g = none :=
  List.find?_eq_none.2 fun p hp he => h ⟨p, hp, beq_iff_eq.1 he⟩

theorem mem_filterMap_stored? {cells : List Cell} {c : Char} :
    (c, p) ∈ cells.filterMap (stored? g) ↔
      ∃ cell ∈ cells, cell.meaning? g = some p ∧ cell.lookahead = c := by
  simp [stored?, and_comm]

end Cell

namespace Table

variable {g : Grammar} {t : Table} {cell : Cell} {earlier cells other before after : List Cell}
  {name : String} {c : Char} {p : Production} {fault : Fault}

theorem resolve_of_foreign (h : ¬(cell.lookahead = endMarker ∨ cell.lookahead ∈ g.terminals)) :
    resolve g cell = .error (.foreignLookahead cell.name cell.lookahead) :=
  if_pos (not_or.1 h)

theorem resolve_of_undeclared (hl : cell.lookahead = endMarker ∨ cell.lookahead ∈ g.terminals)
    (hd : g.declares cell.name = false) : resolve g cell = .error (.undeclared cell.name) := by
  rw [resolve, if_neg fun hn => not_or.2 hn hl, Grammar.productionsOf_of_not_declares hd]

theorem resolve_of_declared (hl : cell.lookahead = endMarker ∨ cell.lookahead ∈ g.terminals)
    (hd : g.declares cell.name = true) :
    resolve g cell = match cell.meaning? g with
      | some p => .ok p
      | none => .error (.unmatchedCell cell.name cell.rhs) := by
  rw [resolve, if_neg fun hn => not_or.2 hn hl, Grammar.productionsOf_of_declares hd]
  rfl

def Acceptable (g : Grammar) (cells : List Cell) : Prop :=
  (∀ cell ∈ cells, cell.Fits g) ∧ (cells.map Cell.place).Nodup

theorem acceptable_snoc :
    Acceptable g (earlier ++ [cell]) ↔ Acceptable g earlier ∧ cell.fault? g earlier = none := by
  rw [Cell.fault?_eq_none_iff, Acceptable, Acceptable, List.map_append, List.nodup_append]
  simp only [List.mem_append, List.mem_singleton, or_imp, forall_and, forall_eq, List.map_cons,
    List.map_nil]
  constructor
  · rintro ⟨⟨hf, hc⟩, hn, _, hp⟩
    exact ⟨⟨hf, hn⟩, hc, fun hm => hp _ hm rfl⟩
  · rintro ⟨⟨hf, hn⟩, hc, hp⟩
    exact ⟨⟨hf, hc⟩, hn, List.pairwise_singleton _ _, fun a ha he => hp (he ▸ ha)⟩

theorem Acceptable.perm (h : Acceptable g cells) (ho : other.Perm cells) : Acceptable g other :=
  ⟨fun cell hm => h.1 cell (ho.mem_iff.1 hm), (ho.map Cell.place).nodup_iff.2 h.2⟩

/-- The table that acceptable cells make: its entries are what the cells mean. -/
structure Records (g : Grammar) (cells : List Cell) (t : Table) : Prop where
  acceptable : Acceptable g cells
  ordered : t.Ordered g
  entries : t.entries.Perm (cells.filterMap (Cell.stored? g))

theorem records_empty (g : Grammar) : Records g [] (empty g) where
  acceptable := ⟨by simp, .nil⟩
  ordered := ordered_empty g
  entries := by
    have he : (empty g).entries = [] := List.flatMap_eq_nil_iff.2 fun row hr => by
      obtain ⟨n, _, rfl⟩ := List.mem_map.1 hr
      rfl
    rw [he]
    exact .refl _

namespace Records

theorem entry_eq_some_iff (h : Records g cells t) : t.entry name c = some p ↔
    ∃ cell ∈ cells, cell.meaning? g = some p ∧ cell.place = (name, c) := by
  rw [h.ordered.entry_eq_some_iff, h.entries.mem_iff, Cell.mem_filterMap_stored?]
  constructor
  · rintro ⟨rfl, cell, hm, hp, rfl⟩
    exact ⟨cell, hm, hp, by rw [Cell.place, (Cell.meaning?_eq_some hp).2]⟩
  · rintro ⟨cell, hm, hp, he⟩
    cases he
    exact ⟨(Cell.meaning?_eq_some hp).2, cell, hm, hp, rfl⟩

theorem isSome_entry_iff (h : Records g cells t) :
    (t.entry name c).isSome = true ↔ (name, c) ∈ cells.map Cell.place := by
  rw [Option.isSome_iff_exists, List.mem_map]
  constructor
  · rintro ⟨p, hp⟩
    obtain ⟨cell, hm, _, he⟩ := h.entry_eq_some_iff.1 hp
    exact ⟨cell, hm, he⟩
  · rintro ⟨cell, hm, he⟩
    obtain ⟨p, hp⟩ := Cell.exists_meaning (h.acceptable.1 cell hm).matched
    exact ⟨p, h.entry_eq_some_iff.2 ⟨cell, hm, hp, he⟩⟩

theorem size_eq (h : Records g cells t) : t.size = cells.length := by
  have hl : (cells.filterMap (Cell.stored? g)).length = cells.length :=
    List.filterMap_length_eq_length.2 fun cell hm => by
      obtain ⟨p, hp⟩ := Cell.exists_meaning (h.acceptable.1 cell hm).matched
      rw [Cell.stored?, hp]
      rfl
  rw [size, h.entries.length_eq, hl]

theorem eq_of_perm {t' : Table} (h : Records g cells t) (h' : Records g other t')
    (ho : other.Perm cells) : t' = t :=
  h'.ordered.eq_of_perm h.ordered
    (h'.entries.trans ((ho.filterMap _).trans h.entries.symm))

theorem add_eq_error (h : Records g earlier t) (hf : cell.fault? g earlier = some fault) :
    add g t cell = .error fault := by
  unfold Cell.fault? at hf
  rw [add]
  split at hf
  next hl =>
    cases hf
    rw [resolve_of_foreign hl]
  next hl =>
    split at hf
    next hd =>
      cases hf
      rw [resolve_of_undeclared (not_not.1 hl) (Bool.eq_false_iff.2 hd)]
    next hd =>
      rw [resolve_of_declared (not_not.1 hl) (not_not.1 hd)]
      split at hf
      next hm =>
        cases hf
        rw [Cell.meaning?_eq_none hm]
      next hm =>
        obtain ⟨p, hq⟩ := Cell.exists_meaning (not_not.1 hm)
        rw [hq]
        split at hf
        next hp =>
          cases hf
          exact if_pos (h.isSome_entry_iff.2 hp)
        next => contradiction

theorem add_eq_ok (h : Records g earlier t) (hf : cell.fault? g earlier = none) :
    ∃ t', add g t cell = .ok t' ∧ Records g (earlier ++ [cell]) t' := by
  obtain ⟨hc, hp⟩ := Cell.fault?_eq_none_iff.1 hf
  obtain ⟨p, hq⟩ := Cell.exists_meaning hc.matched
  have hl := (Cell.meaning?_eq_some hq).2
  have hn : t.entry cell.name cell.lookahead = none :=
    Option.not_isSome_iff_eq_none.1 fun hs => hp (h.isSome_entry_iff.1 hs)
  have hr : resolve g cell = .ok p := by rw [resolve_of_declared hc.lookahead hc.declared, hq]
  refine ⟨t.fill cell.lookahead p, ?_, acceptable_snoc.2 ⟨h.acceptable, hf⟩, ?_, ?_⟩
  · rw [add, hr]
    dsimp only
    rw [hn]
    rfl
  · exact h.ordered.fill (hl ▸ hn)
  · have hd : p.lhs ∈ t.rows.map (·.name) := by
      rw [h.ordered.names, hl]
      exact Grammar.mem_nonterminals.2 hc.declared
    rw [List.filterMap_append]
    have hs : [cell].filterMap (Cell.stored? g) = [(cell.lookahead, p)] := by
      simp [Cell.stored?, hq]
    rw [hs]
    exact (perm_entries_fill h.ordered.nodup_names hd).trans
      ((h.entries.cons _).trans (List.perm_append_singleton _ _).symm)

end Records

theorem addAll_append (g : Grammar) (before after : List Cell) (t : Table) :
    addAll g (before ++ after) t = (addAll g before t).bind (addAll g after) := by
  induction before generalizing t with
  | nil => rfl
  | cons cell rest ih =>
    rw [List.cons_append, addAll, addAll]
    cases add g t cell with
    | ok t' => exact ih t'
    | error fault => rfl

theorem exists_records (h : Acceptable g cells) :
    ∃ t, ofCells g cells = .ok t ∧ Records g cells t := by
  -- from the end, since a cell is checked against those before it
  induction cells using List.reverseRecOn with
  | nil => exact ⟨_, rfl, records_empty g⟩
  | append_singleton earlier cell ih =>
    obtain ⟨ha, hf⟩ := acceptable_snoc.1 h
    obtain ⟨t, ht, hr⟩ := ih ha
    obtain ⟨t', ht', hr'⟩ := hr.add_eq_ok hf
    refine ⟨t', ?_, hr'⟩
    rw [ofCells] at ht
    rw [ofCells, addAll_append, ht]
    simp [Except.bind, addAll, ht']

theorem ofCells_of_fault? (ha : Acceptable g before) (hf : cell.fault? g before = some fault) :
    ofCells g (before ++ cell :: after) = .error fault := by
  obtain ⟨t, ht, hr⟩ := exists_records ha
  rw [ofCells] at ht
  rw [ofCells, addAll_append, ht]
  simp [Except.bind, addAll, hr.add_eq_error hf]

theorem exists_first_fault (h : ¬Acceptable g cells) : ∃ before cell after fault,
    cells = before ++ cell :: after ∧ Acceptable g before ∧ cell.fault? g before = some fault := by
  induction cells using List.reverseRecOn with
  | nil => exact absurd (records_empty g).acceptable h
  | append_singleton earlier cell ih =>
    by_cases ha : Acceptable g earlier
    · cases hf : cell.fault? g earlier with
      | none => exact absurd (acceptable_snoc.2 ⟨ha, hf⟩) h
      | some fault => exact ⟨earlier, cell, [], fault, rfl, ha, hf⟩
    · obtain ⟨before, first, after, fault, rfl, hb, hf⟩ := ih ha
      exact ⟨before, first, after ++ [cell], fault, by simp, hb, hf⟩

theorem records_of_ofCells (h : ofCells g cells = .ok t) : Records g cells t := by
  by_cases ha : Acceptable g cells
  · obtain ⟨t', ht, hr⟩ := exists_records ha
    cases h.symm.trans ht
    exact hr
  · obtain ⟨before, cell, after, fault, rfl, hb, hf⟩ := exists_first_fault ha
    rw [ofCells_of_fault? hb hf] at h
    contradiction

theorem ofCells_eq_error_iff : ofCells g cells = .error fault ↔ ∃ before cell after,
    cells = before ++ cell :: after ∧ Acceptable g before ∧ cell.fault? g before = some fault := by
  constructor
  · intro h
    by_cases ha : Acceptable g cells
    · obtain ⟨t, ht, _⟩ := exists_records ha
      rw [ht] at h
      contradiction
    · obtain ⟨before, cell, after, other, rfl, hb, hf⟩ := exists_first_fault ha
      rw [ofCells_of_fault? hb hf] at h
      cases h
      exact ⟨before, cell, after, rfl, hb, hf⟩
  · rintro ⟨before, cell, after, rfl, hb, hf⟩
    exact ofCells_of_fault? hb hf

/-- Why a table that looks up the row of a production refuses to be filled. -/
inductive Refusal where
  | fault (fault : Fault)
  | noRow (name : String)
deriving DecidableEq, Repr

/-! The same checks where filling a cell starts by looking up its row, and so may find none. -/
namespace ByRow

def insert (t : Table) (c : Char) (p : Production) : Except Refusal Table :=
  match t.rows.find? (·.name == p.lhs) with
  | none => .error (.noRow p.lhs)
  | some row =>
    if (row.cells.lookup c).isSome then .error (.fault (.occupiedCell p.lhs c))
    else .ok (t.fill c p)

def add (g : Grammar) (t : Table) (cell : Cell) : Except Refusal Table :=
  match resolve g cell with
  | .error fault => .error (.fault fault)
  | .ok p => insert t cell.lookahead p

def addAll (g : Grammar) : List Cell → Table → Except Refusal Table
  | [], t => .ok t
  | cell :: rest, t =>
    match add g t cell with
    | .ok t' => addAll g rest t'
    | .error refusal => .error refusal

def ofCells (g : Grammar) (cells : List Cell) : Except Refusal Table :=
  addAll g cells (empty g)

theorem insert_eq (ht : t.rows.map (·.name) = g.nonterminals) (hp : g.declares p.lhs = true) :
    insert t c p = if (t.entry p.lhs c).isSome then .error (.fault (.occupiedCell p.lhs c))
      else .ok (t.fill c p) := by
  obtain ⟨row, hr, hn⟩ := List.mem_map.1 (ht ▸ Grammar.mem_nonterminals.2 hp)
  obtain ⟨found, hf⟩ := Option.isSome_iff_exists.1
    (List.find?_isSome (p := (·.name == p.lhs)).2 ⟨row, hr, beq_iff_eq.2 hn⟩)
  rw [insert, entry, hf]
  dsimp only
  rw [Option.bind_some, Option.isSome_map]

theorem add_eq (ht : t.rows.map (·.name) = g.nonterminals) (cell : Cell) :
    add g t cell = (Table.add g t cell).mapError .fault := by
  rw [add, Table.add]
  cases hr : resolve g cell with
  | error fault => rfl
  | ok p =>
    obtain ⟨hd, hm⟩ := find?_of_resolve hr
    have hl := (Cell.meaning?_eq_some hm).2
    dsimp only
    rw [insert_eq ht (hl.symm ▸ hd), hl]
    split <;> rfl

theorem names_add {t' : Table} (h : Table.add g t cell = .ok t') :
    t'.rows.map (·.name) = t.rows.map (·.name) := by
  rw [Table.add] at h
  split at h
  next => contradiction
  next p _ =>
    split at h
    next => contradiction
    next =>
      cases h
      exact names_fill t _ p

theorem addAll_eq (ht : t.rows.map (·.name) = g.nonterminals) (cells : List Cell) :
    addAll g cells t = (Table.addAll g cells t).mapError .fault := by
  induction cells generalizing t with
  | nil => rfl
  | cons cell rest ih =>
    rw [addAll, Table.addAll, add_eq ht]
    cases hn : Table.add g t cell with
    | error fault => rfl
    | ok t' => exact ih ((names_add hn).trans ht)

theorem ofCells_eq (g : Grammar) (cells : List Cell) :
    ofCells g cells = (Table.ofCells g cells).mapError .fault :=
  addAll_eq (ordered_empty g).names cells

end ByRow

/-- The table holds what the cells say and nothing else, each entry in the row of its name and
at its place in the row. -/
structure Tabulates (g : Grammar) (cells : List Cell) (t : Table) : Prop where
  listed : ∀ cell ∈ cells,
    ∃ p, cell.meaning? g = some p ∧ t.entry cell.name cell.lookahead = some p
  others : ∀ name c, (name, c) ∉ cells.map Cell.place → t.entry name c = none
  size : t.size = cells.length
  entries : t.entries.Perm (cells.filterMap (Cell.stored? g))
  increasing : t.entries.Pairwise (Precedes g)
  rowwise : t.entries = g.nonterminals.flatMap fun name => t.entries.filter (·.2.lhs == name)
  lines : t.lines = g.nonterminals.map t.printedRow
  text : t.text = String.join (g.nonterminals.map (t.printedRow · ++ "\n"))

theorem Records.tabulates (h : Records g cells t) : Tabulates g cells t where
  listed cell hm := by
    obtain ⟨p, hp⟩ := Cell.exists_meaning (h.acceptable.1 cell hm).matched
    exact ⟨p, hp, h.entry_eq_some_iff.2 ⟨cell, hm, hp, rfl⟩⟩
  others _ _ hn := Option.not_isSome_iff_eq_none.1 fun hs => hn (h.isSome_entry_iff.1 hs)
  size := h.size_eq
  entries := h.entries
  increasing := h.ordered.pairwise_entries
  rowwise := h.ordered.entries_eq
  lines := h.ordered.lines_eq
  text := h.ordered.text_eq

theorem ofCells_perm (h : ofCells g cells = .ok t) (ho : other.Perm cells) :
    ofCells g other = .ok t := by
  have hr := records_of_ofCells h
  obtain ⟨t', ht', hr'⟩ := exists_records (hr.acceptable.perm ho)
  rw [ht', hr.eq_of_perm hr' ho]

/-- Cells make a table just if each fits the grammar and no place is written twice. The table
then tells the cells but for their order, and otherwise the first cell that is refused gives
the fault. No cell is refused for want of a row. -/
theorem ofCells_exact (g : Grammar) (cells : List Cell) :
    ((∃ t, ofCells g cells = .ok t) ↔ Acceptable g cells) ∧
      (∀ t, ofCells g cells = .ok t →
        Tabulates g cells t ∧ ∀ other, other.Perm cells → ofCells g other = .ok t) ∧
      (∀ fault, ofCells g cells = .error fault ↔ ∃ before cell after,
        cells = before ++ cell :: after ∧ Acceptable g before ∧
          cell.fault? g before = some fault) ∧
      ByRow.ofCells g cells = (ofCells g cells).mapError .fault := by
  refine ⟨⟨fun ⟨t, ht⟩ => (records_of_ofCells ht).acceptable, fun ha => ?_⟩,
    fun t ht => ⟨(records_of_ofCells ht).tabulates, fun other ho => ofCells_perm ht ho⟩,
    fun fault => ofCells_eq_error_iff, ByRow.ofCells_eq g cells⟩
  obtain ⟨t, ht, _⟩ := exists_records ha
  exact ⟨t, ht⟩

theorem ofCells_exact_standard :
    Tabulates .standard standardCells standardRows ∧
      ofCells .standard standardCells.reverse = .ok standardRows ∧
      ofCells .standard (standardCells ++ [⟨"S", 'a', "bA"⟩]) = .error (.occupiedCell "S" 'a') := by
  obtain ⟨ha, ht, _⟩ := ofCells_exact .standard standardCells
  obtain ⟨_, _, hf, _⟩ := ofCells_exact .standard (standardCells ++ [⟨"S", 'a', "bA"⟩])
  obtain ⟨hc, ho⟩ := ht standardRows standard_standard
  exact ⟨hc, ho _ (List.reverse_perm _),
    (hf _).2 ⟨standardCells, _, [], rfl, ha.1 ⟨_, standard_standard⟩, by decide +kernel⟩⟩

end Table

end Predictive
