import Calculator.Number.Binary
import Calculator.Random.Block

/-!
Random numbers. A generator is a key and the number of draws made so far, so that the draw at a
position depends on nothing but the seed and the position.
-/

namespace Calculator.Random

structure Generator where
  key : Key
  drawn : Nat
deriving DecidableEq

namespace Generator

/-- The seed's next state and the key word that this state yields. -/
def expand (state : UInt64) : UInt64 × UInt32 :=
  let state := state * 6364136223846793005 + 11634580027462260723
  let mixed := (((state >>> 18) ^^^ state) >>> 27).toUInt32
  let turn := (state >>> 59).toUInt32
  (state, (mixed >>> turn) ||| (mixed <<< (32 - turn)))

/-- The state after `n` steps from a seed. -/
def seedState (seed : UInt32) : Nat → UInt64
  | 0 => seed.toUInt64
  | n + 1 => (expand (seedState seed n)).1

def seedKey (seed : UInt32) : Key := Vector.ofFn fun i => (expand (seedState seed i)).2

def ofSeed (seed : UInt32) : Generator := ⟨seedKey seed, 0⟩

/-- Word `n` of the stream that the blocks form. -/
def word (key : Key) (n : Nat) : UInt32 :=
  (block key (UInt64.ofNat (n / 16)))[n % 16]

/-- Draw `n`: the upper 53 of 64 bits, as a fraction of 2^53. -/
def draw (key : Key) (n : Nat) : Float :=
  let low := (word key (2 * n)).toUInt64
  let high := (word key (2 * n + 1)).toUInt64
  Number.ofMagnitude (Number.nearest ((low ||| (high <<< 32)) >>> 11).toNat (Nat.pow 2 53))

/-- A number from 0 up to 1, and the generator one draw further. -/
def next (g : Generator) : Float × Generator :=
  (draw g.key g.drawn, { g with drawn := g.drawn + 1 })

end Generator

end Calculator.Random
