/-! # Random bytes

The stream of bytes that the machine draws random numbers from. It is the key stream of the ChaCha
cipher with twelve rounds, a 64-bit block counter and stream number 0, under a key that a
congruential generator (PCG) expands from a 64-bit seed. Every draw consumes one 32-bit word of the
stream and uses its low eight bits.

A position in the stream is the number of words consumed so far.

This is the generator `StdRng` of the library `rand` in version 0.8.5, seeded by `seed_from_u64`.
The library is not part of the program that is modelled here. Its algorithm is written out after its
documentation, so that machines can be run; what is proved of them holds of every other stream of
bytes as well, since no proof looks into `byte`. -/

namespace Chip8.Random

/-- The seed of every machine. -/
def seed : UInt64 := 0xC8C8C8C8

/-- One step of the congruential generator that expands seeds. -/
def expandStep (state : UInt64) : UInt64 := state * 6364136223846793005 + 11634580027462260723

/-- The output of the generator in a state: some of its high bits, rotated by the highest five. -/
def expandOutput (state : UInt64) : UInt32 :=
  let x := (((state >>> 18) ^^^ state) >>> 27).toUInt32
  let r := (state >>> 59).toUInt32
  (x >>> r) ||| (x <<< ((32 - r) % 32))

/-- The words of a key of `n` words, the generator having reached `state`. -/
def expand : Nat → UInt64 → List UInt32
  | 0, _ => []
  | n + 1, state => expandOutput (expandStep state) :: expand n (expandStep state)

/-- The state that one block of the stream is computed from. -/
abbrev Block := Vector UInt32 16

/-- The sixteen words of block `counter` before the rounds: constants, key, counter, stream. -/
def initial (key : List UInt32) (counter : Nat) : Block :=
  Vector.ofFn fun i =>
    if i.val < 4 then [0x61707865, 0x3320646E, 0x79622D32, 0x6B206574].getD i 0
    else if i.val < 12 then key.getD (i - 4) 0
    else if i.val = 12 then counter.toUInt32
    else if i.val = 13 then (counter / 0x100000000).toUInt32
    else 0

def rotateLeft (x : UInt32) (n : UInt32) : UInt32 := (x <<< n) ||| (x >>> (32 - n))

/-- The quarter round on four words of a block. -/
def quarterRound (b : Block) (p q r s : Fin 16) : Block :=
  let w := b[p] + b[q]
  let z := rotateLeft (b[s] ^^^ w) 16
  let y := b[r] + z
  let x := rotateLeft (b[q] ^^^ y) 12
  let w := w + x
  let z := rotateLeft (z ^^^ w) 8
  let y := y + z
  let x := rotateLeft (x ^^^ y) 7
  (((b.set p w p.isLt).set q x q.isLt).set r y r.isLt).set s z s.isLt

/-- A column round and a diagonal round. -/
def doubleRound (b : Block) : Block :=
  let b := quarterRound b 0 4 8 12
  let b := quarterRound b 1 5 9 13
  let b := quarterRound b 2 6 10 14
  let b := quarterRound b 3 7 11 15
  let b := quarterRound b 0 5 10 15
  let b := quarterRound b 1 6 11 12
  let b := quarterRound b 2 7 8 13
  quarterRound b 3 4 9 14

/-- Block `counter` of the key stream: twelve rounds, then the words from before them added. -/
def block (key : List UInt32) (counter : Nat) : Block :=
  let start := initial key counter
  Vector.zipWith (· + ·) (Nat.repeat doubleRound 6 start) start

/-- The key of every machine. -/
def machineKey : List UInt32 := expand 8 seed

/-- The word at a position of the stream. -/
def word (position : Nat) : UInt32 :=
  (block machineKey (position / 16)).get ⟨position % 16, Nat.mod_lt _ (by decide)⟩

/-- The byte drawn at a position of the stream. -/
def byte (position : Nat) : UInt8 := (word position).toUInt8

end Chip8.Random
