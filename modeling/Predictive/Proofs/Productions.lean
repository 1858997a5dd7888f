import Mathlib.Data.List.Induction
import Predictive.Derivation
import Predictive.Proofs.FinishedText

/-! What is known of the productions of a grammar: which ones choices stand for, that
the characters in them can be spelled, and which names they refer to. -/
namespace Predictive.Grammar

variable {g : Grammar} {name : String} {c : Choice} {cs : List Choice} {p : Production}
  {form next : Form}

theorem eraseDups_concat (names : List String) (name : String) : (names ++ [name]).eraseDups =
    if name ∈ names then names.eraseDups else names.eraseDups ++ [name] := by
  rw [List.eraseDups_append]
  split
  next h => simp [List.removeAll, h]
  next h => simp [List.removeAll, h, List.eraseDups_cons]

theorem pairwise_idxOf_eraseDups (names : List String) :
    names.eraseDups.Pairwise fun a b => names.idxOf a < names.idxOf b := by
  induction names using List.reverseRecOn with
  | nil => exact .nil
  | append_singleton names name ih =>
    have hi : names.eraseDups.Pairwise fun a b =>
        (names ++ [name]).idxOf a < (names ++ [name]).idxOf b :=
      ih.imp_of_mem fun ha hb h => by
        rwa [List.idxOf_append, List.idxOf_append, if_pos (List.mem_eraseDups.1 ha),
          if_pos (List.mem_eraseDups.1 hb)]
    rw [eraseDups_concat]
    split
    next => exact hi
    next h =>
      refine List.pairwise_append.2 ⟨hi, List.pairwise_singleton _ _, fun a ha b hb => ?_⟩
      have hm := List.mem_eraseDups.1 ha
      rw [List.mem_singleton.1 hb, List.idxOf_append, List.idxOf_append, if_pos hm, if_neg h]
      exact Nat.lt_of_lt_of_le (List.idxOf_lt_length_of_mem hm) (Nat.le_add_left _ _)

theorem filter_flatMap_of_nodup {α β : Type} {groups : List α} {group : α}
    {members : α → List β} (name : α → String) (key : β → String) (hn : (groups.map name).Nodup)
    (hk : ∀ a ∈ groups, ∀ b ∈ members a, key b = name a) (hg : group ∈ groups) :
    (groups.flatMap members).filter (key · == name group) = members group := by
  rw [List.filter_flatMap]
  induction groups with
  | nil => contradiction
  | cons first rest ih =>
    obtain ⟨hf, hn⟩ := List.nodup_cons.1 hn
    obtain ⟨hkf, hkr⟩ := List.forall_mem_cons.1 hk
    have hne {a : α} (ha : a ∈ rest) : name a ≠ name first :=
      fun he => hf (List.mem_map.2 ⟨a, ha, he⟩)
    rw [List.flatMap_cons]
    rcases List.mem_cons.1 hg with rfl | hg
    · have hr : (rest.flatMap fun a => (members a).filter (key · == name group)) = [] :=
        List.flatMap_eq_nil_iff.2 fun a ha => List.filter_eq_nil_iff.2 fun b hb he =>
          hne ha ((hkr a ha b hb).symm.trans (beq_iff_eq.1 he))
      rw [hr, List.append_nil, List.filter_eq_self.2 fun b hb => beq_iff_eq.2 (hkf b hb)]
    · have hf : (members first).filter (key · == name group) = [] :=
        List.filter_eq_nil_iff.2 fun b hb he =>
          hne hg ((beq_iff_eq.1 he).symm.trans (hkf b hb))
      rw [hf, List.nil_append]
      exact ih hn hkr hg

theorem nodup_nonterminals (g : Grammar) : g.nonterminals.Nodup :=
  (pairwise_idxOf_eraseDups _).imp fun h he => absurd (he ▸ h) (Nat.lt_irrefl _)

theorem alternatives_eq_nil_iff : g.alternatives name = [] ↔ g.declares name = false := by
  rw [List.eq_nil_iff_forall_not_mem, Bool.eq_false_iff, ne_eq, declares_iff]
  simp

theorem productionsOf_of_declares (h : g.declares name = true) :
    g.productionsOf name = .ok (g.alternatives name) :=
  if_pos h

theorem productionsOf_of_not_declares (h : g.declares name = false) :
    g.productionsOf name = .error (.undeclared name) := by
  rw [productionsOf, h]
  rfl

theorem productionsOf_eq_ok_iff {ps : List Production} :
    g.productionsOf name = .ok ps ↔ g.declares name = true ∧ g.alternatives name = ps := by
  unfold productionsOf
  split
  next h => simp [h]
  next h => simp [h]

theorem chosen_eq_ok_iff : g.chosen c = .ok p ↔ (g.alternatives c.name)[c.index]? = some p := by
  unfold chosen
  by_cases h : g.declares c.name = true
  · rw [productionsOf_of_declares h]
    cases hp : (g.alternatives c.name)[c.index]? with
    | none => simp [hp]
    | some q => simp [hp]
  · have hn := alternatives_eq_nil_iff.2 (Bool.eq_false_iff.2 h)
    simp [productionsOf, h, hn]

theorem productionsOf_of_chosen_zero (h : g.chosen ⟨name, 0⟩ = .ok p) :
    ∃ rest, g.productionsOf name = .ok (p :: rest) := by
  rw [chosen_eq_ok_iff] at h
  obtain ⟨rest, hr⟩ := List.head?_eq_some_iff.1 (List.head?_eq_getElem?.trans h)
  have hd := declares_iff.2 ⟨p, mem_alternatives.1 (List.mem_of_getElem? h)⟩
  exact ⟨rest, productionsOf_eq_ok_iff.2 ⟨hd, hr⟩⟩

theorem chosen_injective {d : Choice} (hg : g.rules.Nodup) (hc : g.chosen c = .ok p)
    (hd : g.chosen d = .ok p) : c = d := by
  obtain ⟨name, i⟩ := c
  obtain ⟨other, j⟩ := d
  rw [chosen_eq_ok_iff] at hc hd
  have hn : name = other :=
    (mem_alternatives.1 (List.mem_of_getElem? hc)).2.symm.trans
      (mem_alternatives.1 (List.mem_of_getElem? hd)).2
  subst hn
  have hi := (List.getElem?_eq_some_iff.1 hc).1
  have he := (List.getElem?_inj hi (hg.filter _)).1 (hc.trans hd.symm)
  exact congrArg _ he

theorem choose_eq_ok_iff : g.choose c form = .ok (p, next) ↔
    form.current? = some c.name ∧ g.chosen c = .ok p ∧ form.expand p.rhs = next := by
  unfold choose
  split
  next h =>
    cases hp : g.chosen c with
    | error fault => simp
    | ok q =>
      simp only [h, Except.ok.injEq, Prod.mk.injEq, true_and]
      constructor
      · rintro ⟨rfl, rfl⟩
        exact ⟨rfl, rfl⟩
      · rintro ⟨rfl, rfl⟩
        exact ⟨rfl, rfl⟩
  next h => simp [h]

theorem chooseAll_cons_eq_ok_iff : g.chooseAll (c :: cs) form = .ok next ↔
    form.current? = some c.name ∧ ∃ p, g.chosen c = .ok p ∧
      g.chooseAll cs (form.expand p.rhs) = .ok next := by
  rw [chooseAll]
  cases h : g.choose c form with
  | ok r =>
    obtain ⟨hc, hp, he⟩ := choose_eq_ok_iff.1 h
    simp [hc, hp, he]
  | error fault =>
    constructor
    · intro he
      contradiction
    · rintro ⟨hc, p, hp, _⟩
      rw [choose_eq_ok_iff.2 ⟨hc, hp, rfl⟩] at h
      contradiction

theorem mem_rules_of_chosen (h : g.chosen c = .ok p) : p ∈ g.rules ∧ p.lhs = c.name :=
  mem_alternatives.1 (List.mem_of_getElem? (chosen_eq_ok_iff.1 h))

theorem mem_rules_of_mem_productions {d : Derivation} (h : p ∈ d.productions g) : p ∈ g.rules := by
  obtain ⟨c, _, hc⟩ := List.mem_filterMap.1 h
  cases hp : g.chosen c with
  | ok q =>
    rw [hp] at hc
    cases hc
    exact (mem_rules_of_chosen hp).1
  | error fault =>
    rw [hp] at hc
    contradiction

/-- The choice of a production: the first of its name that is equal to it. -/
def choiceOf (g : Grammar) (p : Production) : Choice :=
  ⟨p.lhs, (g.alternatives p.lhs).idxOf p⟩

theorem chosen_choiceOf (h : p ∈ g.rules) : g.chosen (g.choiceOf p) = .ok p := by
  have hm : p ∈ g.alternatives p.lhs := mem_alternatives.2 ⟨h, rfl⟩
  rw [chosen_eq_ok_iff, choiceOf, List.getElem?_eq_getElem (List.idxOf_lt_length_of_mem hm),
    List.getElem_idxOf]

theorem terminal_mem_rhs {ch : Char} (h : p ∈ g.rules) (hc : .terminal ch ∈ p.rhs) :
    ch ≠ endMarker ∧ isBlank ch = false :=
  g.spellable p h _ hc

theorem letter_spellable {ch : Char} (h : ch ∈ g.terminals) :
    ch ≠ endMarker ∧ isBlank ch = false := by
  obtain ⟨p, hp, hc⟩ := mem_terminals.1 h
  exact terminal_mem_rhs hp (Form.mem_terminals_iff.1 hc)

/-- Every name that can come up in a form is declared. -/
structure Closed (g : Grammar) : Prop where
  start : g.declares g.start = true
  references : ∀ p ∈ g.rules, ∀ name ∈ p.references, g.declares name = true

/-- The check of `validate`, with the names visited in an order of its own. -/
def validateIn (g : Grammar) (order : List String) : Except Fault Unit :=
  if g.declares g.start then
    match (order.flatMap g.alternatives).findSome? fun p =>
        (g.undeclaredReference? p).map (p, ·) with
    | some (p, name) => .error (.undeclaredReference p name)
    | none => .ok ()
  else .error (.undeclared g.start)

theorem mem_flatMap_alternatives {order : List String} (ho : order.Perm g.nonterminals) :
    p ∈ order.flatMap g.alternatives ↔ p ∈ g.rules := by
  rw [← mem_productions, productions, (ho.flatMap_right g.alternatives).mem_iff]

theorem validateIn_eq_ok_iff {order : List String} (ho : order.Perm g.nonterminals) :
    g.validateIn order = .ok () ↔ g.Closed := by
  unfold validateIn
  split
  next h =>
    split
    next q name hf =>
      obtain ⟨p, hp, hq⟩ := List.exists_of_findSome?_eq_some hf
      obtain ⟨n, hn, he⟩ := Option.map_eq_some_iff.1 hq
      cases he
      have hm := List.mem_of_find?_eq_some hn
      have hd := List.find?_some hn
      refine ⟨fun h => by contradiction, fun hc => ?_⟩
      simp [hc.references q ((mem_flatMap_alternatives ho).1 hp) name hm] at hd
    next hf =>
      refine ⟨fun _ => ⟨h, fun p hp name hn => ?_⟩, fun _ => rfl⟩
      have hu := List.findSome?_eq_none_iff.1 hf p ((mem_flatMap_alternatives ho).2 hp)
      have hd := List.find?_eq_none.1 (Option.map_eq_none_iff.1 hu) name hn
      simpa using hd
  next h => exact ⟨fun h => by contradiction, fun hc => absurd hc.start h⟩

theorem validate_eq_ok_iff : g.validate = .ok () ↔ g.Closed :=
  validateIn_eq_ok_iff (.refl _)

end Predictive.Grammar
