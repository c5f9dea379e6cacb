namespace Chess

/-! A seeded stream of random words: the ChaCha20 keystream (twenty rounds, a 64-bit block
counter from zero and a zero nonce) read as little-endian 32-bit words, keyed from a 64-bit
seed by eight steps of the PCG32 generator. Uniform choices below a bound take the high half
of the product of a word and the bound, rejecting the words whose low half lies above the
largest multiple of the bound shifted to the top bit. -/

/-- A ChaCha20 keystream with the words of the current block not yet used. -/
structure ChaCha where
  key : Vector UInt32 8
  counter : UInt64 := 0
  pending : List UInt32 := []
  deriving Inhabited

namespace ChaCha

def quarter (s : Vector UInt32 16) (a b c d : Fin 16) : Vector UInt32 16 :=
  let va := s.get a + s.get b
  let vd := s.get d ^^^ va
  let vd := (vd <<< 16) ||| (vd >>> 16)
  let vc := s.get c + vd
  let vb := s.get b ^^^ vc
  let vb := (vb <<< 12) ||| (vb >>> 20)
  let va := va + vb
  let vd := vd ^^^ va
  let vd := (vd <<< 8) ||| (vd >>> 24)
  let vc := vc + vd
  let vb := vb ^^^ vc
  let vb := (vb <<< 7) ||| (vb >>> 25)
  ((((s.set a va).set b vb).set c vc).set d vd)

def doubleRound (s : Vector UInt32 16) : Vector UInt32 16 :=
  let s := quarter s 0 4 8 12
  let s := quarter s 1 5 9 13
  let s := quarter s 2 6 10 14
  let s := quarter s 3 7 11 15
  let s := quarter s 0 5 10 15
  let s := quarter s 1 6 11 12
  let s := quarter s 2 7 8 13
  quarter s 3 4 9 14

def block (key : Vector UInt32 8) (counter : UInt64) : List UInt32 :=
  let init : Vector UInt32 16 := Vector.ofFn fun i =>
    match i.val with
    | 0 => 0x61707865
    | 1 => 0x3320646e
    | 2 => 0x79622d32
    | 3 => 0x6b206574
    | 12 => counter.toUInt32
    | 13 => (counter >>> 32).toUInt32
    | 14 => 0
    | 15 => 0
    | n => key.getD (n - 4) 0
  let mixed := (List.range 10).foldl (fun s _ => doubleRound s) init
  (List.finRange 16).map fun i => mixed.get i + init.get i

/-- The stream keyed from a seed: eight PCG32 outputs, each after a step of the state. -/
def ofSeed (seed : UInt64) : ChaCha :=
  let step (acc : UInt64 × List UInt32) (_ : Nat) : UInt64 × List UInt32 :=
    let state := acc.1 * 6364136223846793005 + 11634580027462260723
    let xorshifted := (((state >>> 18) ^^^ state) >>> 27).toUInt32
    let rot := (state >>> 59).toUInt32
    let word := (xorshifted >>> rot) ||| (xorshifted <<< ((32 - rot) % 32))
    (state, acc.2 ++ [word])
  let (_, words) := (List.range 8).foldl step (seed, [])
  { key := Vector.ofFn fun i => words.getD i.val 0 }

def next (g : ChaCha) : UInt32 × ChaCha :=
  match g.pending with
  | w :: rest => (w, { g with pending := rest })
  | [] =>
    match block g.key g.counter with
    | w :: rest => (w, { g with counter := g.counter + 1, pending := rest })
    | [] => (0, g)

/-- A uniform choice below a positive bound, drawing words until one is accepted; at most
`fuel` draws. -/
def below (bound : UInt32) (g : ChaCha) : UInt32 × ChaCha :=
  let zone := (bound <<< (31 - bound.toNat.log2).toUInt32) - 1
  go 64 g zone
where
  /-- Draws until a word is accepted. -/
  go : Nat → ChaCha → UInt32 → UInt32 × ChaCha
    | 0, g, _ => (0, g)
    | fuel + 1, g, zone =>
      let (v, g) := g.next
      let product := v.toUInt64 * bound.toUInt64
      if product.toUInt32 ≤ zone then ((product >>> 32).toUInt32, g) else go fuel g zone

def choose {α : Type} (xs : List α) (g : ChaCha) : Option α × ChaCha :=
  if xs.isEmpty then (none, g)
  else
    let (i, g) := below xs.length.toUInt32 g
    (xs[i.toNat]?, g)

end ChaCha

end Chess
