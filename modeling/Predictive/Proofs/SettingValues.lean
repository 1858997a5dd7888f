import Predictive.Settings
import Predictive.Proofs.WrittenValues

/-! What a written value is worth as a setting, and what settings are given by values. A count is a
numeral without sign, point and exponent, and is worth what its digits say; nothing is rounded to a
count. A setting is given at most once, and stands for its default if it is not given. -/
namespace Predictive

namespace Settings
open Json

def Counts (v : Content) (k : Nat) : Prop :=
  k < UInt64.size ∧ ∃ n, v = .numeral n ∧ n.negative = false ∧ n.fraction = none ∧
    n.exponent = none ∧ Numeral.value n.whole = k

def Seeds (v : Content) : Option UInt64 → Prop
  | none => v = .null
  | some seed => Counts v seed.toNat

def Uncountable (n : Numeral) : Prop :=
  n.negative = true ∨ n.fraction ≠ none ∨ n.exponent ≠ none ∨
    UInt64.size ≤ Numeral.value n.whole

/-- The reader takes a value if and only if it means something, and reads it to its end. -/
def Reads {α : Type} (read : List Char → Except TextFault (α × List Char))
    (means : Content → α → Prop) : Prop :=
  ∀ {v cs rest}, Phrase (.value v) cs rest →
    ∀ a r, read cs = .ok (a, r) ↔ means v a ∧ r = rest

variable {v : Content} {n : Numeral} {k : Nat} {c : Char} {cs tail rest : List Char}

theorem Uncountable.not_counts (h : Uncountable n) : ¬Counts (.numeral n) k := by
  rintro ⟨hk, m, hm, hn, hf, he, hv⟩
  cases hm
  rcases h with h | h | h | h
  · rw [hn] at h; cases h
  · exact h hf
  · exact h he
  · omega

theorem Uncountable.not_seeds {seed : Option UInt64} (h : Uncountable n) :
    ¬Seeds (.numeral n) seed := by
  cases seed with
  | none => rintro ⟨⟩
  | some seed => exact h.not_counts

theorem Reads.map_iff {α β : Type} {read : List Char → Except TextFault (α × List Char)}
    {means : Content → α → Prop} (hr : Reads read means) (h : Phrase (.value v) cs rest)
    (keep : α → β) {b : β} {r : List Char} :
    ((read cs).map fun p => (keep p.1, p.2)) = .ok (b, r) ↔
      (∃ a, means v a ∧ b = keep a) ∧ r = rest := by
  rw [map_eq_ok_iff]
  constructor
  · rintro ⟨⟨a, _⟩, ha, he⟩
    cases he
    obtain ⟨ha, rfl⟩ := (hr h a _).1 ha
    exact ⟨⟨a, ha, rfl⟩, rfl⟩
  · rintro ⟨⟨a, ha, rfl⟩, rfl⟩
    exact ⟨(a, r), (hr h a r).2 ⟨ha, rfl⟩, rfl⟩

theorem count?_eq_some_iff : n.count? = some k ↔ Counts (.numeral n) k := by
  unfold Numeral.count?
  constructor
  · intro h
    split at h
    next hc => cases h; exact ⟨hc.2.2.2, n, rfl, hc.1, hc.2.1, hc.2.2.1, rfl⟩
    next => cases h
  · rintro ⟨hk, m, hm, hn, hf, he, hv⟩
    cases hm
    rw [if_pos ⟨hn, hf, he, by omega⟩, hv]

theorem countOf_eq_ok_iff : countOf n = .ok k ↔ Counts (.numeral n) k := by
  rw [← count?_eq_some_iff, countOf]
  cases n.count? <;> simp

theorem readCount_eq_error (hs : skipSpace cs = c :: tail) (hc : startsNumeral c = false) :
    readCount cs = .error (refusal (c :: tail)) := by
  rw [readCount, hs]
  dsimp only
  rw [hc]
  rfl

theorem startsNumeral_eq_false (h : c ∈ ['t', 'f', '"', '[', '\x7b']) :
    startsNumeral c = false ∧ c ≠ 'n' := by
  simp only [List.mem_cons, List.not_mem_nil, or_false] at h
  rcases h with rfl | rfl | rfl | rfl | rfl <;> decide

theorem readCount_numeral (h : Phrase (.value (.numeral n)) cs rest) :
    readCount cs = (countOf n).map (·, rest) := by
  cases h with
  | word hw _ => simp [words] at hw
  | numeral hs hn he =>
    have hr := numeral_text .truncated hn he
    obtain ⟨c, tail, rfl, hc⟩ := hn.starts
    rw [List.cons_append] at hs hr
    have hb : readCount cs = readNumber (c :: (tail ++ rest)) := by
      rw [readCount, hs.skipSpace (isSpace_of_startsNumeral hc)]
      exact if_pos hc
    rw [hb, readNumber, hr]

theorem reads_count : Reads readCount Counts := by
  intro v cs rest h k r
  obtain ⟨c, tail, hs, hc, _⟩ := h.begins
  cases v with
  | numeral n =>
    rw [readCount_numeral h, map_eq_ok_iff]
    constructor
    · rintro ⟨m, hm, he⟩
      cases he
      exact ⟨countOf_eq_ok_iff.1 hm, rfl⟩
    · rintro ⟨hk, rfl⟩
      exact ⟨k, countOf_eq_ok_iff.2 hk, rfl⟩
  | null =>
    rw [readCount_eq_error hs (by rw [hc]; rfl)]
    exact ⟨nofun, by rintro ⟨⟨_, _, ⟨⟩, _⟩, _⟩⟩
  | other =>
    rw [readCount_eq_error hs (startsNumeral_eq_false hc).1]
    exact ⟨nofun, by rintro ⟨⟨_, _, ⟨⟩, _⟩, _⟩⟩

theorem readSeed_of_ne (hs : skipSpace cs = c :: tail) (hc : c ≠ 'n') :
    readSeed cs = (readCount cs).map fun r => (some (.ofNat r.1), r.2) := by
  have ht : skipSpace (c :: tail) = c :: tail := by rw [← hs, skipSpace_skipSpace]
  have he : readCount (c :: tail) = readCount cs := by rw [readCount, ht, readCount, hs]
  unfold readSeed
  split
  next hn => rw [hs] at hn; cases hn; exact absurd rfl hc
  next => rw [hs, he]

theorem readSeed_null (h : Phrase (.value .null) cs rest) : readSeed cs = .ok (none, rest) := by
  cases h with
  | @word w _ _ _ hw hs =>
    have hw : w = "null".toList := by simpa [words] using hw
    subst hw
    rw [readSeed, hs.skipSpace rfl]
    rfl

theorem seeds_iff (hv : v ≠ .null) (seed : Option UInt64) :
    Seeds v seed ↔ ∃ k, Counts v k ∧ seed = some (.ofNat k) := by
  cases seed with
  | none => simp [Seeds, hv]
  | some seed =>
    constructor
    · exact fun h => ⟨seed.toNat, h, by simp⟩
    · rintro ⟨k, hk, he⟩
      cases he
      rwa [Seeds, UInt64.toNat_ofNat_of_lt' hk.1]

theorem readSeed_iff (h : Phrase (.value v) cs rest) (hs : skipSpace cs = c :: tail) (hc : c ≠ 'n')
    (hv : v ≠ .null) (seed : Option UInt64) (r : List Char) :
    readSeed cs = .ok (seed, r) ↔ Seeds v seed ∧ r = rest := by
  rw [readSeed_of_ne hs hc, seeds_iff hv]
  exact reads_count.map_iff h fun k => some (UInt64.ofNat k)

theorem reads_seed : Reads readSeed Seeds := by
  intro v cs rest h seed r
  obtain ⟨c, tail, hs, hc, _⟩ := h.begins
  cases v with
  | numeral n => exact readSeed_iff h hs (ne_of_startsNumeral hc rfl) nofun seed r
  | other => exact readSeed_iff h hs (startsNumeral_eq_false hc).2 nofun seed r
  | null =>
    rw [readSeed_null h]
    constructor
    · intro he
      cases he
      exact ⟨rfl, rfl⟩
    · rintro ⟨hk, rfl⟩
      cases seed with
      | none => rfl
      | some seed =>
        obtain ⟨_, _, he, _⟩ := hk
        cases he

theorem counts_decimal (h : k < UInt64.size) : Counts (.numeral (decimal k)) k :=
  ⟨h, decimal k, rfl, rfl, rfl, rfl, value_decimal k⟩

end Settings

/-! What is said of values in a row comes about value by value, from what was found before to what is
found after, so that a reader can be followed. -/

namespace Settings
open Json

def given (name : String) (ms : List (String × Content)) : List Content :=
  (ms.filter (·.1 = name)).map (·.2)

/-- Nothing is given, which stands for the default, or a single value that means this. -/
inductive Settles {α : Type} (means : Content → α → Prop) (default : α) : List Content → α → Prop
  | absent : Settles means default [] default
  | given {v : Content} {a : α} : means v a → Settles means default [v] a

structure Says (lengths depths seeds : List Content) (s : Settings) : Prop where
  maxLength : Settles Counts 15 lengths s.maxLength
  maxDepth : Settles Counts 64 depths s.maxDepth
  seed : Settles Seeds none seeds s.seed

/-- What the members of an object say, in whatever order they come. -/
def Gives (ms : List (String × Content)) (s : Settings) : Prop :=
  Says (given "max_length" ms) (given "max_depth" ms) (given "seed" ms) s

def Lists (vs : List Content) (s : Settings) : Prop :=
  vs.length ≤ 3 ∧ Says vs[0]?.toList vs[1]?.toList vs[2]?.toList s

/-- What is found of one setting before and after the given values. -/
def Takes {α : Type} (means : Content → α → Prop) : Option α → List Content → Option α → Prop
  | old, [], new => new = old
  | old, v :: vs, new => old = none ∧ ∃ a, means v a ∧ Takes means (some a) vs new

def Collects (ms : List (String × Content)) (f g : Found) : Prop :=
  Takes Counts f.maxLength (given "max_length" ms) g.maxLength ∧
    Takes Counts f.maxDepth (given "max_depth" ms) g.maxDepth ∧
    Takes Seeds f.seed (given "seed" ms) g.seed

section Fields

variable {α : Type} {means : Content → α → Prop} {old new : Option α} {vs ws : List Content}
  {v : Content} {a default : α}

theorem takes_append :
    Takes means old (vs ++ ws) new ↔
      ∃ mid, Takes means old vs mid ∧ Takes means mid ws new := by
  induction vs generalizing old with
  | nil => simp [Takes]
  | cons v vs ih =>
    simp only [List.cons_append, Takes, ih]
    constructor
    · rintro ⟨ho, a, ha, mid, hv, hw⟩
      exact ⟨mid, ⟨ho, a, ha, hv⟩, hw⟩
    · rintro ⟨mid, ⟨ho, a, ha, hv⟩, hw⟩
      exact ⟨ho, a, ha, mid, hv, hw⟩

theorem Takes.exists_means (h : Takes means old vs new) (hv : v ∈ vs) : ∃ a, means v a := by
  induction vs generalizing old with
  | nil => cases hv
  | cons w vs ih =>
    obtain ⟨_, a, ha, h⟩ := h
    rcases List.mem_cons.1 hv with rfl | hv
    · exact ⟨a, ha⟩
    · exact ih h hv

theorem settles_iff :
    Settles means default vs a ↔ ∃ new, Takes means none vs new ∧ new.getD default = a := by
  constructor
  · rintro (_ | ha)
    · exact ⟨none, rfl, rfl⟩
    · exact ⟨some a, ⟨rfl, a, ha, rfl⟩, rfl⟩
  · rintro ⟨new, h, rfl⟩
    match vs, h with
    | [], h => cases h; exact .absent
    | [v], ⟨_, a, ha, h⟩ => cases h; exact .given ha
    | _ :: _ :: _, ⟨_, _, _, h, _⟩ => cases h

end Fields

variable {ms : List (String × Content)} {m : String × Content} {v : Content} {f g : Found}
  {s : Settings} {name : String}

theorem given_cons (name : String) (m : String × Content) (ms : List (String × Content)) :
    given name (m :: ms) = given name [m] ++ given name ms := by
  rw [given, given, given, ← List.map_append, ← List.filter_append]
  rfl

theorem collects_nil : Collects [] f g ↔ g = f := by
  cases f
  cases g
  simp [Collects, given, Takes]

theorem collects_cons {h : Found} :
    Collects (m :: ms) f h ↔ ∃ g, Collects [m] f g ∧ Collects ms g h := by
  simp only [Collects, given_cons _ m ms, takes_append]
  constructor
  · rintro ⟨⟨l, hl, hl'⟩, ⟨d, hd, hd'⟩, ⟨s, hs, hs'⟩⟩
    exact ⟨⟨l, d, s⟩, ⟨hl, hd, hs⟩, ⟨hl', hd', hs'⟩⟩
  · rintro ⟨g, ⟨hl, hd, hs⟩, ⟨hl', hd', hs'⟩⟩
    exact ⟨⟨_, hl, hl'⟩, ⟨_, hd, hd'⟩, ⟨_, hs, hs'⟩⟩

theorem says_iff {ls ds es : List Content} :
    Says ls ds es s ↔
      ∃ f : Found, (Takes Counts none ls f.maxLength ∧ Takes Counts none ds f.maxDepth ∧
        Takes Seeds none es f.seed) ∧ f.settings = s := by
  constructor
  · rintro ⟨hl, hd, he⟩
    obtain ⟨l, hl, hl'⟩ := settles_iff.1 hl
    obtain ⟨d, hd, hd'⟩ := settles_iff.1 hd
    obtain ⟨e, he, he'⟩ := settles_iff.1 he
    refine ⟨⟨l, d, e⟩, ⟨hl, hd, he⟩, ?_⟩
    cases s
    subst hl' hd' he'
    rfl
  · rintro ⟨f, ⟨hl, hd, he⟩, rfl⟩
    exact ⟨settles_iff.2 ⟨_, hl, rfl⟩, settles_iff.2 ⟨_, hd, rfl⟩, settles_iff.2 ⟨_, he, rfl⟩⟩

theorem gives_iff : Gives ms s ↔ ∃ g, Collects ms {} g ∧ g.settings = s :=
  says_iff

theorem given_single_self : given name [(name, v)] = [v] := by
  simp [given]

theorem given_single_of_ne {key : String} (h : key ≠ name) : given name [(key, v)] = [] := by
  simp [given, h]

theorem mem_given {ks : List (String × Content)} (h : (name, v) ∈ ks) : v ∈ given name ks :=
  List.mem_map.2 ⟨(name, v), List.mem_filter.2 ⟨h, decide_eq_true rfl⟩, rfl⟩

theorem Collects.exists_means (h : Collects ms f g) (hm : (name, v) ∈ ms)
    (hn : name ∈ ["max_length", "max_depth", "seed"]) :
    (∃ k, Counts v k) ∨ ∃ seed, Seeds v seed := by
  simp only [List.mem_cons, List.not_mem_nil, or_false] at hn
  rcases hn with rfl | rfl | rfl
  · exact .inl (h.1.exists_means (mem_given hm))
  · exact .inl (h.2.1.exists_means (mem_given hm))
  · exact .inr (h.2.2.exists_means (mem_given hm))

end Settings

end Predictive
