/-!
# A keystream of random words

ChaCha with twenty rounds, a 256-bit key and a 64-bit block counter. The words of block `0`, then
block `1`, and so on form one stream. The key is expanded from a 64-bit seed by a multiplicative
generator with permuted output.
-/

namespace TorusRouting.Randomness

/-- The sixteen words of a cipher state. -/
abbrev Block := Vector UInt32 16

/-- Rotate a word towards its high bits. -/
def rotateLeft (w k : UInt32) : UInt32 := (w <<< k) ||| (w >>> (32 - k))

/-- Rotate a word towards its low bits. -/
def rotateRight (w k : UInt32) : UInt32 := (w >>> k) ||| (w <<< (32 - k))

namespace Block

/-- Add word `b` to word `a` and mix the sum into word `d`. -/
def mix (s : Block) (a b d : Fin 16) (k : UInt32) : Block :=
  let s := s.set a (s[a] + s[b])
  s.set d (rotateLeft (s[d] ^^^ s[a]) k)

/-- Four mixing steps on the words of a column or a diagonal. -/
def quarterRound (s : Block) (a b c d : Fin 16) : Block :=
  (((s.mix a b d 16).mix c d b 12).mix a b d 8).mix c d b 7

/-- A round on the columns and one on the diagonals. -/
def doubleRound (s : Block) : Block :=
  let s := s.quarterRound 0 4 8 12
  let s := s.quarterRound 1 5 9 13
  let s := s.quarterRound 2 6 10 14
  let s := s.quarterRound 3 7 11 15
  let s := s.quarterRound 0 5 10 15
  let s := s.quarterRound 1 6 11 12
  let s := s.quarterRound 2 7 8 13
  s.quarterRound 3 4 9 14

/-- The input of a block: constants, key, counter, and zeros. -/
def initial (key : Vector UInt32 8) (counter : UInt64) : Block :=
  (#v[0x61707865, 0x3320646e, 0x79622d32, 0x6b206574] : Vector UInt32 4) ++ key ++
    (#v[counter.toUInt32, (counter >>> 32).toUInt32, 0, 0] : Vector UInt32 4)

/-- Ten double rounds, added to the input. -/
def encrypt (s : Block) : Block := s.zipWith (· + ·) (Nat.repeat doubleRound 10 s)

end Block

/-- A position in the stream of a key. -/
structure Keystream where
  key : Vector UInt32 8
  /-- Number of the next block. -/
  counter : UInt64 := 0
  /-- Words left of the present block. -/
  rest : List UInt32 := []

/-- The next state of the generator that expands a seed. -/
def stepSeed (s : UInt64) : UInt64 := s * 6364136223846793005 + 11634580027462260723

/-- The key word of a state. -/
def seedWord (s : UInt64) : UInt32 :=
  rotateRight (((s >>> 18) ^^^ s) >>> 27).toUInt32 (s >>> 59).toUInt32

namespace Keystream

/-- The stream of a seed. -/
def ofSeed (seed : UInt64) : Keystream where
  key := Vector.ofFn fun i => seedWord (Nat.repeat stepSeed (i + 1) seed)

/-- The next word. -/
def next (k : Keystream) : UInt32 × Keystream :=
  match k.rest with
  | w :: rest => (w, { k with rest })
  | [] =>
    let b := (Block.initial k.key k.counter).encrypt
    (b[0], { k with counter := k.counter + 1, rest := b.toList.tail })

/-- Words until the stream repeats: those left of the present block, and sixteen for every value of
the counter. -/
def lifetime (k : Keystream) : Nat := k.rest.length + 16 * UInt64.size

end Keystream

end TorusRouting.Randomness
