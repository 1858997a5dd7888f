import Predictive.Proofs.SettingValues

/-! Members of an object, read one after the other. A known key is read if it was not given
before and its value means something, any other key is passed over with its value; and what
follows the members is read as if they had not been there, but for what they have given. -/
namespace Predictive.Settings
open Json

def written (m : String × Content) : Member :=
  ⟨m.1.toList.map some, m.2⟩

variable {ms : List (String × Content)} {m : String × Content} {v : Content} {f g : Found}
  {ks : List Member} {name : String} {isFirst : Bool} {cs mid stop rest r : List Char}

theorem colon_spaced (h : Spaced cs (':' :: rest)) : colon cs = .ok rest := by
  rw [colon, h.skipSpace rfl]
  rfl

theorem readKnown_iff {α : Type} {means : Content → α → Prop} {old : Option α}
    {read : List Char → Except TextFault (α × List Char)} {keep : α → Found}
    (hr : Reads read means) (hc : Spaced mid (':' :: stop)) (hv : Phrase (.value v) stop rest) :
    readKnown old read keep mid = .ok (g, r) ↔
      (old = none ∧ ∃ a, means v a ∧ g = keep a) ∧ r = rest := by
  unfold readKnown
  cases old with
  | some a => simp
  | none =>
    rw [colon_spaced hc]
    simp only [Option.isSome_none, Bool.false_eq_true, if_false, true_and]
    exact hr.map_iff hv keep

theorem readUnknown_iff (hc : Spaced mid (':' :: stop)) (hv : Phrase (.value v) stop rest) :
    readUnknown f mid = .ok (g, r) ↔ g = f ∧ r = rest := by
  rw [readUnknown, colon_spaced hc]
  dsimp only
  rw [skipValue_phrase hv]
  simp [Except.map, eq_comm]

theorem readValue_iff (hc : Spaced mid (':' :: stop)) (hv : Phrase (.value v) stop rest) :
    readValue name.toList f mid = .ok (g, r) ↔ Collects [(name, v)] f g ∧ r = rest := by
  cases g
  unfold readValue Collects
  split
  next h =>
    cases String.toList_inj.1 h
    rw [readKnown_iff reads_count hc hv, given_single_self, given_single_of_ne (by decide),
      given_single_of_ne (by decide)]
    simp only [Takes, Found.mk.injEq]
    grind
  next hl =>
    have hl : name ≠ "max_length" := fun h => hl (congrArg _ h)
    split
    next h =>
      cases String.toList_inj.1 h
      rw [readKnown_iff reads_count hc hv, given_single_self, given_single_of_ne (by decide),
        given_single_of_ne (by decide)]
      simp only [Takes, Found.mk.injEq]
      grind
    next hd =>
      have hd : name ≠ "max_depth" := fun h => hd (congrArg _ h)
      split
      next h =>
        cases String.toList_inj.1 h
        rw [readKnown_iff reads_seed hc hv, given_single_self, given_single_of_ne (by decide),
          given_single_of_ne (by decide)]
        simp only [Takes, Found.mk.injEq]
        grind
      next hs =>
        have hs : name ≠ "seed" := fun h => hs (congrArg _ h)
        rw [readUnknown_iff hc hv, given_single_of_ne hl, given_single_of_ne hd,
          given_single_of_ne hs]
        cases f
        simp only [Takes, Found.mk.injEq]

theorem nextKey_phrase {k : Member}
    (h : Phrase (.members isFirst (k :: ks)) cs rest) :
    ∃ start mid stop next, nextKey isFirst cs = .ok (some start) ∧ Quoted start k.key mid ∧
      Spaced mid (':' :: stop) ∧ Phrase (.value k.content) stop next ∧
      Phrase (.members false ks) next rest := by
  cases h with
  | firstMember hs hk hc hv hm =>
    refine ⟨_, _, _, _, ?_, hk, hc, hv, hm⟩
    rw [nextKey, hs.skipSpace rfl]
    rfl
  | nextMember hs h =>
    cases h with
    | firstMember hs' hk hc hv hm =>
      refine ⟨_, _, _, _, ?_, hk, hc, hv, hm⟩
      rw [nextKey, hs.skipSpace rfl]
      dsimp only
      rw [if_neg (by decide), if_neg (by decide), if_pos rfl, hs'.skipSpace rfl]
      rfl

theorem readMembers_next {start : List Char} {x : Found × List Char}
    (h : nextKey isFirst cs = .ok (some start)) :
    readMembers isFirst f cs = .ok x ↔
      ∃ g r, readMember f start = .ok (g, r) ∧ readMembers false g r = .ok x := by
  rw [readMembers]
  split
  next hn => rw [h] at hn; cases hn
  next hn => rw [h] at hn; cases hn
  next hn =>
    rw [h] at hn
    cases hn
    split
    next hm => simp [hm]
    next hm => simp [hm]

theorem readMembers_cons {x : Found × List Char}
    (h : Phrase (.members isFirst (written m :: ks)) cs rest) :
    ∃ next, Phrase (.members false ks) next rest ∧
      ∀ f, readMembers isFirst f cs = .ok x ↔
        ∃ g, Collects [m] f g ∧ readMembers false g next = .ok x := by
  obtain ⟨start, mid, stop, next, hn, hk, hc, hv, hm⟩ := nextKey_phrase h
  have hr : ∀ f g r, readMember f start = .ok (g, r) ↔ Collects [m] f g ∧ r = next := by
    intro f g r
    rw [readMember, string_quoted hk]
    exact readValue_iff hc hv
  refine ⟨next, hm, fun f => ?_⟩
  simp only [readMembers_next hn, hr]
  constructor
  · rintro ⟨g, _, ⟨hg, rfl⟩, hx⟩
    exact ⟨g, hg, hx⟩
  · rintro ⟨g, hg, hx⟩
    exact ⟨g, next, ⟨hg, rfl⟩, hx⟩

/-- Reading the members is finding what they say and going on behind them, whatever stands
there. -/
theorem readMembers_iff {x : Found × List Char}
    (h : Phrase (.members isFirst (ms.map written)) cs rest) :
    readMembers isFirst f cs = .ok x ↔
      ∃ g, Collects ms f g ∧ readMembers (isFirst && ms.isEmpty) g rest = .ok x := by
  induction ms generalizing isFirst f cs with
  | nil =>
    cases h
    simp [collects_nil]
  | cons m ms ih =>
    obtain ⟨next, hm, hr⟩ := readMembers_cons h
    rw [hr, List.isEmpty_cons, Bool.and_false]
    constructor
    · rintro ⟨g, hg, hx⟩
      obtain ⟨k, hk, hx⟩ := (ih hm).1 hx
      exact ⟨k, collects_cons.2 ⟨g, hg, hk⟩, hx⟩
    · rintro ⟨k, hc, hx⟩
      obtain ⟨g, hg, hk⟩ := collects_cons.1 hc
      exact ⟨g, hg, (ih hm).2 ⟨k, hk, hx⟩⟩

theorem none_mem_or_written (k : Member) : none ∈ k.key ∨ ∃ m, k = written m := by
  obtain ⟨key, v⟩ := k
  refine (none_mem_or_exists_map key).imp_right ?_
  rintro ⟨text, rfl⟩
  exact ⟨(String.ofList text, v), by rw [written, String.toList_ofList]⟩

theorem half_or_written (ks : List Member) :
    (∃ k ∈ ks, none ∈ k.key) ∨ ∃ ms, ks = List.map written ms := by
  induction ks with
  | nil => exact .inr ⟨[], rfl⟩
  | cons k ks ih =>
    rcases none_mem_or_written k with hn | ⟨m, rfl⟩
    · exact .inl ⟨k, List.mem_cons_self, hn⟩
    · rcases ih with ⟨k, hk, hn⟩ | ⟨ms, rfl⟩
      · exact .inl ⟨k, List.mem_cons_of_mem _ hk, hn⟩
      · exact .inr ⟨m :: ms, rfl⟩

theorem readMembers_half (h : Phrase (.members isFirst ks) cs rest)
    (hk : ∃ k ∈ ks, none ∈ k.key) (x : Found × List Char) : readMembers isFirst f cs ≠ .ok x := by
  induction ks generalizing isFirst f cs with
  | nil => simp at hk
  | cons k ks ih =>
    intro hx
    rcases none_mem_or_written k with hn | ⟨m, rfl⟩
    · obtain ⟨start, mid, stop, next, hs, hq, _⟩ := nextKey_phrase h
      obtain ⟨g, r, hg, _⟩ := (readMembers_next hs).1 hx
      obtain ⟨fault, hf⟩ := string_half hq hn
      rw [readMember, hf] at hg
      cases hg
    · obtain ⟨next, hm, hr⟩ := readMembers_cons h
      obtain ⟨g, _, hg⟩ := (hr f).1 hx
      have hw : none ∉ (written m).key := by simp [written]
      have hk : ∃ k ∈ ks, none ∈ k.key := by simpa [hw] using hk
      exact ih hm hk hg

theorem readMembers_close (h : Spaced cs ('\x7d' :: rest)) :
    readMembers isFirst f cs = .ok (f, rest) := by
  have hn : nextKey isFirst cs = .ok none := by
    rw [nextKey, h.skipSpace rfl]
    rfl
  rw [readMembers]
  split
  next hn' => rw [hn] at hn'; cases hn'
  next => rw [h.skipSpace rfl]; rfl
  next hn' => rw [hn] at hn'; cases hn'

end Predictive.Settings
