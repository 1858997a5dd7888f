/-! Random orders from a stream of 32-bit words. The words are those of the ChaCha cipher with twelve
rounds: its state is four rows of four words, a round works on the four columns at once, and turning
the rows makes diagonals of columns. -/
namespace Predictive

namespace Random

structure Quad where
  x : UInt32
  y : UInt32
  z : UInt32
  w : UInt32
deriving DecidableEq, Repr

namespace Quad

def map (f : UInt32 → UInt32) (q : Quad) : Quad :=
  ⟨f q.x, f q.y, f q.z, f q.w⟩

def zip (f : UInt32 → UInt32 → UInt32) (p q : Quad) : Quad :=
  ⟨f p.x q.x, f p.y q.y, f p.z q.z, f p.w q.w⟩

def turn (q : Quad) : Quad :=
  ⟨q.y, q.z, q.w, q.x⟩

def words (q : Quad) : List UInt32 :=
  [q.x, q.y, q.z, q.w]

end Quad

def rotateLeft (n : UInt32) (x : UInt32) : UInt32 :=
  (x <<< n) ||| (x >>> (32 - n))

structure Block where
  a : Quad
  b : Quad
  c : Quad
  d : Quad
deriving DecidableEq, Repr

namespace Block

def columnRound (m : Block) : Block :=
  let a := m.a.zip (· + ·) m.b
  let d := (m.d.zip (· ^^^ ·) a).map (rotateLeft 16)
  let c := m.c.zip (· + ·) d
  let b := (m.b.zip (· ^^^ ·) c).map (rotateLeft 12)
  let a := a.zip (· + ·) b
  let d := (d.zip (· ^^^ ·) a).map (rotateLeft 8)
  let c := c.zip (· + ·) d
  let b := (b.zip (· ^^^ ·) c).map (rotateLeft 7)
  ⟨a, b, c, d⟩

def diagonalRound (m : Block) : Block :=
  let r := columnRound ⟨m.a, m.b.turn, m.c.turn.turn, m.d.turn.turn.turn⟩
  ⟨r.a, r.b.turn.turn.turn, r.c.turn.turn, r.d.turn⟩

def doubleRounds : Nat → Block → Block
  | 0, m => m
  | n + 1, m => doubleRounds n m.columnRound.diagonalRound

def add (m n : Block) : Block :=
  ⟨m.a.zip (· + ·) n.a, m.b.zip (· + ·) n.b, m.c.zip (· + ·) n.c, m.d.zip (· + ·) n.d⟩

def scramble (m : Block) : Block :=
  (doubleRounds 6 m).add m

def words (m : Block) : List UInt32 :=
  m.a.words ++ m.b.words ++ m.c.words ++ m.d.words

end Block

/-- The words of one key, block after block. -/
structure Stream where
  low : Quad
  high : Quad
  counter : UInt64
  pending : List UInt32
deriving DecidableEq, Repr

namespace Stream

def constants : Quad :=
  ⟨0x61707865, 0x3320646e, 0x79622d32, 0x6b206574⟩

def block (s : Stream) : Block :=
  Block.scramble ⟨constants, s.low, s.high, ⟨s.counter.toUInt32, (s.counter >>> 32).toUInt32, 0, 0⟩⟩

def next (s : Stream) : UInt32 × Stream :=
  match s.pending with
  | word :: rest => (word, { s with pending := rest })
  | [] =>
    let m := s.block
    (m.a.x, { s with counter := s.counter + 1, pending := m.words.tail })

/-- The state after `state` in the generator that spreads a seed over a key. -/
def spread (state : UInt64) : UInt64 :=
  state * 6364136223846793005 + 11634580027462260723

/-- The key word of a state: its high bits, turned right by its five highest. -/
def keyWord (state : UInt64) : UInt32 :=
  let x := (((state >>> 18) ^^^ state) >>> 27).toUInt32
  let n := (state >>> 59).toUInt32
  (x >>> n) ||| (x <<< ((32 - n) % 32))

def keyQuad (state : UInt64) : Quad × UInt64 :=
  let s₁ := spread state
  let s₂ := spread s₁
  let s₃ := spread s₂
  let s₄ := spread s₃
  (⟨keyWord s₁, keyWord s₂, keyWord s₃, keyWord s₄⟩, s₄)

def ofSeed (seed : UInt64) : Stream :=
  let (low, state) := keyQuad seed
  ⟨low, (keyQuad state).1, 0, []⟩

end Stream

end Random

namespace Random

/-- The largest low half of a product that keeps the numbers below `n` equally likely. -/
def acceptable (n : Nat) : Nat :=
  n <<< (31 - n.log2) - 1

/-- The high half of a word times `n`, from the first word whose low half is acceptable. -/
def drawBelow (n : Nat) : Nat → Stream → Nat × Stream
  | 0, s => (0, s)
  | tries + 1, s =>
    let (word, s) := s.next
    let product := word.toNat * n
    if product % UInt32.size ≤ acceptable n then (product / UInt32.size, s) else drawBelow n tries s

/-- The number of words after which a stream repeats: all blocks that a counter of 64
bits can tell apart, with 16 words each. -/
@[irreducible] def period : Nat :=
  16 * UInt64.size

/-- A random number below `n`. If no word of a whole period is acceptable, none ever is. -/
def below (n : Nat) (s : Stream) : Nat × Stream :=
  drawBelow n period s

/-- Exchanges each of the places `i`, …, `1` with a random one that is not behind it. -/
def shuffle : Nat → Array Nat → Stream → Array Nat × Stream
  | 0, xs, s => (xs, s)
  | i + 1, xs, s =>
    let (j, s) := below (i + 2) s
    shuffle i (xs.swapIfInBounds (i + 1) j) s

def order (n : Nat) (s : Stream) : List Nat × Stream :=
  let (xs, s) := shuffle (n - 1) (Array.range n) s
  (xs.toList, s)

theorem perm_swapIfInBounds (xs : Array Nat) (i j : Nat) :
    (xs.swapIfInBounds i j).Perm xs := by
  unfold Array.swapIfInBounds
  split
  · split
    · exact Array.swap_perm _ _
    · exact .refl xs
  · exact .refl xs

theorem perm_shuffle (i : Nat) (xs : Array Nat) (s : Stream) : (shuffle i xs s).1.Perm xs := by
  induction i generalizing xs s with
  | zero => exact .refl xs
  | succ i ih =>
    rw [shuffle]
    exact (ih _ _).trans (perm_swapIfInBounds _ _ _)

theorem perm_order (n : Nat) (s : Stream) : (order n s).1.Perm (List.range n) := by
  have h := (perm_shuffle (n - 1) (Array.range n) s).toList
  rwa [Array.toList_range] at h

end Random

end Predictive
