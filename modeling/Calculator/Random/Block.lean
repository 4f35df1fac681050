/-!
The block function of the stream cipher ChaCha with twelve rounds: a key and a block number give
sixteen words.
-/

namespace Calculator.Random

abbrev Block := Vector UInt32 16

abbrev Key := Vector UInt32 8

def rotateLeft (x amount : UInt32) : UInt32 := (x <<< amount) ||| (x >>> (32 - amount))

def mix (v : Block) (a b c : Fin 16) (amount : UInt32) : Block :=
  let v := v.set a (v[a] + v[b])
  v.set c (rotateLeft (v[c] ^^^ v[a]) amount)

def quarterRound (v : Block) (a b c d : Fin 16) : Block :=
  let v := mix v a b d 16
  let v := mix v c d b 12
  let v := mix v a b d 8
  mix v c d b 7

/-- The four columns and then the four diagonals. -/
def doubleRound (v : Block) : Block :=
  let v := quarterRound v 0 4 8 12
  let v := quarterRound v 1 5 9 13
  let v := quarterRound v 2 6 10 14
  let v := quarterRound v 3 7 11 15
  let v := quarterRound v 0 5 10 15
  let v := quarterRound v 1 6 11 12
  let v := quarterRound v 2 7 8 13
  quarterRound v 3 4 9 14

/-- Four constant words, the key, the block number and two words of zero. -/
def initialBlock (key : Key) (number : UInt64) : Block :=
  #v[0x61707865, 0x3320646e, 0x79622d32, 0x6b206574,
    key[0], key[1], key[2], key[3], key[4], key[5], key[6], key[7],
    number.toUInt32, (number >>> 32).toUInt32, 0, 0]

def block (key : Key) (number : UInt64) : Block :=
  let start := initialBlock key number
  Vector.zipWith (· + ·) start (Nat.repeat doubleRound 6 start)

end Calculator.Random
