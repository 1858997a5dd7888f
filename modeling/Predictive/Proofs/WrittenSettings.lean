import Predictive.Proofs.WrittenMembers

/-! Settings as a text writes them: an object of members or an array of items, with any space between
the words and nothing else around them. Items are read by place, and an array that goes on behind
the seed cannot be closed. A text that only begins so is told of too, since the reader stops at the
first fault. -/
namespace Predictive

namespace Settings
open Json

variable {v : Content} {vs : List Content} {s : Settings} {isFirst : Bool}
  {cs stop rest r : List Char}

theorem nextElement_phrase (h : Phrase (.items isFirst (v :: vs)) cs rest) :
    ∃ start next, nextElement isFirst cs = .ok (some start) ∧ Phrase (.value v) start next ∧
      Phrase (.items false vs) next rest := by
  cases h with
  | firstItem hv hm =>
    obtain ⟨c, tail, hs, hc, hv⟩ := hv.begins
    refine ⟨_, _, ?_, hv, hm⟩
    rw [nextElement, hs]
    dsimp only
    rw [if_neg hc.ne_close, if_pos rfl]
  | nextItem hs h =>
    cases h with
    | firstItem hv hm =>
      obtain ⟨c, tail, hs', hc, hv⟩ := hv.begins
      refine ⟨_, _, ?_, hv, hm⟩
      rw [nextElement, hs.skipSpace rfl]
      dsimp only
      rw [if_neg (by decide), if_neg (by decide), if_pos rfl, hs']
      exact if_neg hc.ne_close

theorem element_cons {α : Type} {means : Content → α → Prop}
    {reader : List Char → Except TextFault (α × List Char)} (hr : Reads reader means)
    (h : Phrase (.items isFirst (v :: vs)) cs rest) :
    ∃ next, Phrase (.items false vs) next rest ∧ ∀ o r,
      element isFirst reader cs = .ok (o, r) ↔ (∃ a, means v a ∧ o = some a) ∧ r = next := by
  obtain ⟨start, next, hn, hv, hm⟩ := nextElement_phrase h
  refine ⟨next, hm, fun o r => ?_⟩
  rw [element, hn]
  exact hr.map_iff hv some

theorem element_close {α : Type} (reader : List Char → Except TextFault (α × List Char))
    (h : Spaced cs (']' :: rest)) : element isFirst reader cs = .ok (none, cs) := by
  have hn : nextElement isFirst cs = .ok none := by
    rw [nextElement, h.skipSpace rfl]
    rfl
  rw [element, hn]

theorem closeArray_close (h : Spaced cs (']' :: rest)) : closeArray cs = .ok rest := by
  rw [closeArray, h.skipSpace rfl]
  rfl

theorem closeArray_cons (h : Phrase (.items false (v :: vs)) cs rest) :
    closeArray cs = .error .malformed := by
  cases h with
  | nextItem hs _ =>
    rw [closeArray, hs.skipSpace rfl]
    rfl

theorem readArray_eq_ok_iff :
    readArray cs = .ok (s, r) ↔
      ∃ f : Found, (∃ c₁ c₂ c₃, element true readCount cs = .ok (f.maxLength, c₁) ∧
        element false readCount c₁ = .ok (f.maxDepth, c₂) ∧
        element false readSeed c₂ = .ok (f.seed, c₃) ∧ closeArray c₃ = .ok r) ∧
        f.settings = s := by
  simp only [readArray, bind_eq_ok_iff, pure, Except.pure, Except.ok.injEq, Prod.mk.injEq,
    Prod.exists]
  constructor
  · rintro ⟨l, c₁, hl, d, c₂, hd, e, c₃, he, c₄, hc, hs, rfl⟩
    exact ⟨⟨l, d, e⟩, ⟨c₁, c₂, c₃, hl, hd, he, hc⟩, hs⟩
  · rintro ⟨f, ⟨c₁, c₂, c₃, hl, hd, he, hc⟩, hs⟩
    exact ⟨_, c₁, hl, _, c₂, hd, _, c₃, he, r, hc, hs, rfl⟩

theorem element_iff {α : Type} {means : Content → α → Prop}
    {reader : List Char → Except TextFault (α × List Char)} (hr : Reads reader means) {i : Nat}
    (h : Phrase (.items isFirst (vs.drop i)) cs stop) (hc : Spaced stop (']' :: rest)) :
    ∃ next, Phrase (.items false (vs.drop (i + 1))) next stop ∧ ∀ o r,
      element isFirst reader cs = .ok (o, r) ↔ Takes means none vs[i]?.toList o ∧ r = next := by
  rw [← List.head?_drop, ← List.tail_drop]
  generalize vs.drop i = ws at h
  cases ws with
  | nil =>
    cases h
    refine ⟨cs, .noItems, fun o r => ?_⟩
    rw [element_close reader hc]
    simp [Takes, eq_comm]
  | cons w ws =>
    obtain ⟨next, hm, hn⟩ := element_cons hr h
    refine ⟨next, hm, fun o r => ?_⟩
    rw [hn]
    simp [Takes]

theorem closeArray_iff (h : Phrase (.items false vs) cs stop) (hc : Spaced stop (']' :: rest)) :
    closeArray cs = .ok r ↔ vs = [] ∧ r = rest := by
  cases vs with
  | nil =>
    cases h
    rw [closeArray_close hc]
    simp [eq_comm]
  | cons v vs => simp [closeArray_cons h]

theorem readArray_iff (h : Phrase (.items true vs) cs stop) (hc : Spaced stop (']' :: rest)) :
    readArray cs = .ok (s, r) ↔ Lists vs s ∧ r = rest := by
  obtain ⟨c₁, h₁, hl⟩ := element_iff (i := 0) reads_count h hc
  obtain ⟨c₂, h₂, hd⟩ := element_iff reads_count h₁ hc
  obtain ⟨c₃, h₃, he⟩ := element_iff reads_seed h₂ hc
  rw [readArray_eq_ok_iff, Lists, says_iff]
  constructor
  · rintro ⟨f, ⟨_, _, _, h₁, h₂, h₃', h₄⟩, hs⟩
    obtain ⟨hl', rfl⟩ := (hl _ _).1 h₁
    obtain ⟨hd', rfl⟩ := (hd _ _).1 h₂
    obtain ⟨he', rfl⟩ := (he _ _).1 h₃'
    obtain ⟨hn, rfl⟩ := (closeArray_iff h₃ hc).1 h₄
    exact ⟨⟨List.drop_eq_nil_iff.1 hn, f, ⟨hl', hd', he'⟩, hs⟩, rfl⟩
  · rintro ⟨⟨hn, f, ⟨hl', hd', he'⟩, hs⟩, rfl⟩
    exact ⟨f, ⟨c₁, c₂, c₃, (hl _ _).2 ⟨hl', rfl⟩, (hd _ _).2 ⟨hd', rfl⟩, (he _ _).2 ⟨he', rfl⟩,
      (closeArray_iff h₃ hc).2 ⟨List.drop_eq_nil_iff.2 hn, rfl⟩⟩, hs⟩

theorem element_means {α : Type} {means : Content → α → Prop}
    {reader : List Char → Except TextFault (α × List Char)} {o : Option α}
    (hr : Reads reader means) (h : Phrase (.items isFirst (v :: vs)) cs rest)
    (he : element isFirst reader cs = .ok (o, r)) :
    (∃ a, means v a) ∧ Phrase (.items false vs) r rest := by
  obtain ⟨next, hm, hn⟩ := element_cons hr h
  obtain ⟨⟨a, ha, _⟩, rfl⟩ := (hn o r).1 he
  exact ⟨⟨a, ha⟩, hm⟩

theorem readArray_means (h : Phrase (.items true vs) cs rest) (hr : readArray cs = .ok (s, r))
    (hv : v ∈ vs) : (∃ k, Counts v k) ∨ ∃ seed, Seeds v seed := by
  obtain ⟨f, ⟨_, _, _, h₁, h₂, h₃, h₄⟩, _⟩ := readArray_eq_ok_iff.1 hr
  cases vs with
  | nil => cases hv
  | cons v₁ vs =>
    obtain ⟨hl, h⟩ := element_means reads_count h h₁
    rcases List.mem_cons.1 hv with rfl | hv
    · exact .inl hl
    cases vs with
    | nil => cases hv
    | cons v₂ vs =>
      obtain ⟨hd, h⟩ := element_means reads_count h h₂
      rcases List.mem_cons.1 hv with rfl | hv
      · exact .inl hd
      cases vs with
      | nil => cases hv
      | cons v₃ vs =>
        obtain ⟨he, h⟩ := element_means reads_seed h h₃
        rcases List.mem_cons.1 hv with rfl | hv
        · exact .inr he
        cases vs with
        | nil => cases hv
        | cons v₄ vs =>
          rw [closeArray_cons h] at h₄
          cases h₄

end Settings

namespace Settings
open Json

def BeginsObject (text : String) (ks : List Member) (rest : List Char) : Prop :=
  ∃ start, Spaced text.toList ('\x7b' :: start) ∧ Phrase (.members true ks) start rest

def IsObject (text : String) (ks : List Member) : Prop :=
  ∃ rest last, BeginsObject text ks rest ∧ Spaced rest ('\x7d' :: last) ∧ Spaced last []

def BeginsArray (text : String) (vs : List Content) (rest : List Char) : Prop :=
  ∃ start, Spaced text.toList ('[' :: start) ∧ Phrase (.items true vs) start rest

def IsArray (text : String) (vs : List Content) : Prop :=
  ∃ rest last, BeginsArray text vs rest ∧ Spaced rest (']' :: last) ∧ Spaced last []

variable {text : String} {ms : List (String × Content)} {vs : List Content} {s : Settings}
  {rest : List Char}

theorem read_eq_ok_iff :
    read text = .ok s ↔ ∃ r, readFrom text.toList = .ok (s, r) ∧ skipSpace r = [] := by
  unfold read
  cases readFrom text.toList with
  | error fault => simp
  | ok x => by_cases hr : skipSpace x.2 = [] <;> simp [hr, Prod.ext_iff]

theorem read_object_iff {start : List Char} (h : Spaced text.toList ('\x7b' :: start)) :
    read text = .ok s ↔
      ∃ g r, readMembers true {} start = .ok (g, r) ∧ g.settings = s ∧ skipSpace r = [] := by
  rw [read_eq_ok_iff, readFrom, h.skipSpace rfl]
  dsimp only
  rw [if_neg (by decide), if_pos rfl]
  simp only [map_eq_ok_iff]
  constructor
  · rintro ⟨_, ⟨⟨g, _⟩, hg, he⟩, hr⟩
    cases he
    exact ⟨g, _, hg, rfl, hr⟩
  · rintro ⟨g, r, hg, rfl, hr⟩
    exact ⟨r, ⟨(g, r), hg, rfl⟩, hr⟩

theorem read_array_iff {start : List Char} (h : Spaced text.toList ('[' :: start)) :
    read text = .ok s ↔ ∃ r, readArray start = .ok (s, r) ∧ skipSpace r = [] := by
  rw [read_eq_ok_iff, readFrom, h.skipSpace rfl]
  dsimp only
  rw [if_pos rfl]

theorem read_of_isObject (h : IsObject text (ms.map written)) :
    read text = .ok s ↔ Gives ms s := by
  obtain ⟨rest, last, ⟨start, hs, hm⟩, hr, hl⟩ := h
  rw [read_object_iff hs, gives_iff]
  simp only [readMembers_iff hm, readMembers_close hr, Except.ok.injEq, Prod.mk.injEq]
  constructor
  · rintro ⟨_, _, ⟨g, hg, rfl, rfl⟩, he, _⟩
    exact ⟨g, hg, he⟩
  · rintro ⟨g, hg, he⟩
    exact ⟨g, last, ⟨g, hg, rfl, rfl⟩, he, hl.skipSpace_nil⟩

theorem exists_collects (h : BeginsObject text (ms.map written) rest) (hs : read text = .ok s) :
    ∃ g, Collects ms {} g := by
  obtain ⟨start, hb, hm⟩ := h
  obtain ⟨_, _, hg, _⟩ := (read_object_iff hb).1 hs
  obtain ⟨g, hg, _⟩ := (readMembers_iff hm).1 hg
  exact ⟨g, hg⟩

theorem read_of_isArray (h : IsArray text vs) : read text = .ok s ↔ Lists vs s := by
  obtain ⟨rest, last, ⟨start, hs, hm⟩, hr, hl⟩ := h
  rw [read_array_iff hs]
  simp only [readArray_iff hm hr]
  constructor
  · rintro ⟨_, ⟨h, rfl⟩, _⟩
    exact h
  · intro h
    exact ⟨last, ⟨h, rfl⟩, hl.skipSpace_nil⟩

/-- Settings are read for what their text says, in any order and layout and to the last digit:
an object of any members, and an array of up to three items. A number that is no count is
never read as one, whatever follows it, and every count is written by its digits. Of the keys
only those are refused that denote no text. -/
theorem read_exactly :
    (∀ text ms s, IsObject text (List.map written ms) → (read text = .ok s ↔ Gives ms s)) ∧
      (∀ text vs s, IsArray text vs → (read text = .ok s ↔ Lists vs s)) ∧
      (∀ text ms rest name n s, BeginsObject text (List.map written ms) rest →
        name ∈ ["max_length", "max_depth", "seed"] → (name, .numeral n) ∈ ms → Uncountable n →
        read text ≠ .ok s) ∧
      (∀ text vs rest n s, BeginsArray text vs rest → .numeral n ∈ vs → Uncountable n →
        read text ≠ .ok s) ∧
      (∀ k, ∃ n, NumeralText (toString k).toList n ∧
        (k < UInt64.size → Counts (.numeral n) k) ∧ (UInt64.size ≤ k → Uncountable n)) ∧
      ∀ text ks rest, BeginsObject text ks rest →
        (∃ ms, ks = List.map written ms) ∨ ∀ s, read text ≠ .ok s := by
  refine ⟨fun _ _ _ h => read_of_isObject h, fun _ _ _ h => read_of_isArray h, ?_, ?_, ?_, ?_⟩
  · intro text ms rest name n s h hn hm hu hs
    obtain ⟨g, hg⟩ := exists_collects h hs
    rcases hg.exists_means hm hn with ⟨k, hk⟩ | ⟨seed, hk⟩
    · exact hu.not_counts hk
    · exact hu.not_seeds hk
  · rintro text vs rest n s ⟨start, hb, hm⟩ hv hu hs
    obtain ⟨r, hr, _⟩ := (read_array_iff hb).1 hs
    rcases readArray_means hm hr hv with ⟨k, hk⟩ | ⟨seed, hk⟩
    · exact hu.not_counts hk
    · exact hu.not_seeds hk
  · intro k
    refine ⟨decimal k, decimal_text k, counts_decimal, fun h => ?_⟩
    exact .inr (.inr (.inr (by rwa [value_decimal])))
  · rintro text ks rest ⟨start, hb, hm⟩
    refine (half_or_written ks).symm.imp_right fun hk s hs => ?_
    obtain ⟨g, r, hg, _⟩ := (read_object_iff hb).1 hs
    exact readMembers_half hm hk _ hg

theorem read_exactly_samples :
    read "\x7b\"x\":[\"\\ud800\"],\"\\u0073eed\" :7\x7d" = .ok { seed := some 7 } ∧
      read "[7]" = .ok { maxLength := 7 } ∧
      (∀ s, read "\x7b\"seed\":-7," ≠ .ok s) ∧ (∀ s, read "[7.7" ≠ .ok s) ∧
      ∀ s, read "\x7b\"\\ud800\":7" ≠ .ok s := by
  have ends : ∀ c rest, c.isDigit = false ∧ c ≠ '.' ∧ c ≠ 'e' ∧ c ≠ 'E' → Ends (c :: rest) :=
    fun c rest h d hd => by cases hd; exact h
  have digit : ∀ (c : Char) (d : Nat), "0123456789abcdef".toList[d]? = some c → HexDigit c d :=
    fun c d => .inl
  have plain : ∀ c : Char, c ≠ '"' ∧ c ≠ '\\' ∧ 0x20 ≤ c.toNat → Written [c] c :=
    fun c h => .plain h.1 h.2.1 h.2.2
  have seven : Whole ['7'] := ⟨⟨nofun, List.all_eq_true.1 rfl⟩, by decide⟩
  have hx : ∀ rest, Quoted ('x' :: '"' :: rest) ("x".toList.map some) rest :=
    fun rest => .char (plain 'x' (by decide)) .close
  have heed : ∀ rest, Quoted ('e' :: 'e' :: 'd' :: '"' :: rest) ("eed".toList.map some) rest :=
    fun rest => .char (plain 'e' (by decide)) (.char (plain 'e' (by decide))
      (.char (plain 'd' (by decide)) .close))
  have hs : Written ['\\', 'u', '0', '0', '7', '3'] 's' :=
    @Written.unit ['0', '0', '7', '3'] 's'
      (.mk (digit '0' 0 rfl) (digit '0' 0 rfl) (digit '7' 7 rfl) (digit '3' 3 rfl))
  have hhalf : ∀ rest, Quoted ('\\' :: 'u' :: (['d', '8', '0', '0'] ++ '"' :: rest)) [none] rest :=
    fun rest => .half (.mk (digit 'd' 13 rfl) (digit '8' 8 rfl) (digit '0' 0 rfl) (digit '0' 0 rfl))
      (by decide) (by decide) (fun _ ⟨_, _, _, h, _⟩ => by simp at h) .close
  have hlist : ∀ rest, Phrase (.value .other)
      ('[' :: '"' :: '\\' :: 'u' :: (['d', '8', '0', '0'] ++ '"' :: ']' :: rest)) rest :=
    fun rest => .array (.refl _) (.firstItem (.string (.refl _) (hhalf _)) .noItems) (.refl _)
  have hobject : IsObject "\x7b\"x\":[\"\\ud800\"],\"\\u0073eed\" :7\x7d"
      (List.map written [("x", .other), ("seed", .numeral ⟨false, [7], none, none⟩)]) := by
    refine ⟨['\x7d'], [], ⟨_, ⟨[], nofun, rfl⟩, ?_⟩, Spaced.refl _, Spaced.refl _⟩
    refine .firstMember (.refl _) (hx _) (.refl _) (hlist _) (.nextMember (.refl _) ?_)
    refine .firstMember (.refl _) (.char hs (heed _)) ⟨[' '], by simp, rfl⟩ ?_ .noMembers
    exact .numeral (.refl _) (.mk false seven .none .none) (ends '\x7d' [] (by decide))
  have harray : IsArray "[7]" [.numeral ⟨false, [7], none, none⟩] :=
    ⟨[']'], [], ⟨_, ⟨[], nofun, rfl⟩, .firstItem (.numeral (.refl _) (.mk false seven .none .none)
      (ends ']' [] (by decide))) .noItems⟩, Spaced.refl _, Spaced.refl _⟩
  have hnegative : BeginsObject "\x7b\"seed\":-7,"
      (List.map written [("seed", .numeral ⟨true, [7], none, none⟩)]) [','] :=
    ⟨_, ⟨[], nofun, rfl⟩, .firstMember (.refl _) (.char (plain 's' (by decide)) (heed _)) (.refl _)
      (.numeral (.refl _) (.mk true seven .none .none) (ends ',' [] (by decide))) .noMembers⟩
  have hfraction : BeginsArray "[7.7" [.numeral ⟨false, [7], some [7], none⟩] [] :=
    ⟨_, ⟨[], nofun, rfl⟩, .firstItem (.numeral (.refl _) (.mk false seven (.some seven.1) .none)
      nofun) .noItems⟩
  have hkey : BeginsObject "\x7b\"\\ud800\":7" [⟨[none], .numeral ⟨false, [7], none, none⟩⟩] [] :=
    ⟨_, ⟨[], nofun, rfl⟩, .firstMember (.refl _) (hhalf _) (.refl _)
      (.numeral (.refl _) (.mk false seven .none .none) nofun) .noMembers⟩
  have hcount : Counts (.numeral ⟨false, [7], none, none⟩) 7 :=
    ⟨by decide, _, rfl, rfl, rfl, rfl, rfl⟩
  refine ⟨(read_exactly.1 _ _ _ hobject).2 ⟨.absent, .absent, .given hcount⟩,
    (read_exactly.2.1 _ _ _ harray).2 ⟨by decide, .given hcount, .absent, .absent⟩,
    fun s => read_exactly.2.2.1 _ _ _ _ _ s hnegative (by simp) List.mem_cons_self (.inl rfl),
    fun s => read_exactly.2.2.2.1 _ _ _ _ s hfraction List.mem_cons_self (.inr (.inl nofun)),
    (read_exactly.2.2.2.2.2 _ _ _ hkey).resolve_left fun ⟨ms, h⟩ => ?_⟩
  cases ms with
  | nil => cases h
  | cons m ms =>
    have hk : [none] = m.1.toList.map some := congrArg Member.key (List.cons.inj h).1
    have hn : none ∈ m.1.toList.map some := hk ▸ List.mem_cons_self
    simp at hn

end Settings

end Predictive
