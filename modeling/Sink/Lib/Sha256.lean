import Mathlib.Algebra.Order.Ring.Int

/-!
# SHA-256

The hash of FIPS 180-4 on lists of bytes, with words as natural numbers below
`2 ^ 32`. Of its properties only the length of a digest is proved.
-/

namespace Sha256

open List

def rounds : List Nat :=
  [0x428a2f98, 0x71374491, 0xb5c0fbcf, 0xe9b5dba5, 0x3956c25b, 0x59f111f1, 0x923f82a4, 0xab1c5ed5,
    0xd807aa98, 0x12835b01, 0x243185be, 0x550c7dc3, 0x72be5d74, 0x80deb1fe, 0x9bdc06a7, 0xc19bf174,
    0xe49b69c1, 0xefbe4786, 0x0fc19dc6, 0x240ca1cc, 0x2de92c6f, 0x4a7484aa, 0x5cb0a9dc, 0x76f988da,
    0x983e5152, 0xa831c66d, 0xb00327c8, 0xbf597fc7, 0xc6e00bf3, 0xd5a79147, 0x06ca6351, 0x14292967,
    0x27b70a85, 0x2e1b2138, 0x4d2c6dfc, 0x53380d13, 0x650a7354, 0x766a0abb, 0x81c2c92e, 0x92722c85,
    0xa2bfe8a1, 0xa81a664b, 0xc24b8b70, 0xc76c51a3, 0xd192e819, 0xd6990624, 0xf40e3585, 0x106aa070,
    0x19a4c116, 0x1e376c08, 0x2748774c, 0x34b0bcb5, 0x391c0cb3, 0x4ed8aa4a, 0x5b9cca4f, 0x682e6ff3,
    0x748f82ee, 0x78a5636f, 0x84c87814, 0x8cc70208, 0x90befffa, 0xa4506ceb, 0xbef9a3f7, 0xc67178f2]

def initial : List Nat :=
  [0x6a09e667, 0xbb67ae85, 0x3c6ef372, 0xa54ff53a, 0x510e527f, 0x9b05688c, 0x1f83d9ab, 0x5be0cd19]

def rotate (x n : Nat) : Nat := (x >>> n) ||| (x <<< (32 - n)) % 2 ^ 32

/-- The next word of the schedule, from the last sixteen. -/
def extend : List Nat → List Nat
  | window =>
    let w15 := window.getD 1 0
    let w2 := window.getD 14 0
    let s0 := rotate w15 7 ^^^ rotate w15 18 ^^^ (w15 >>> 3)
    let s1 := rotate w2 17 ^^^ rotate w2 19 ^^^ (w2 >>> 10)
    window.drop 1 ++ [(window.getD 0 0 + s0 + window.getD 9 0 + s1) % 2 ^ 32]

/-- One round; the state is `a` to `h`. -/
def round (k w : Nat) : List Nat → List Nat
  | [a, b, c, d, e, f, g, h] =>
    let s1 := rotate e 6 ^^^ rotate e 11 ^^^ rotate e 25
    let ch := (e &&& f) ^^^ ((2 ^ 32 - 1 - e) &&& g)
    let t1 := h + s1 + ch + k + w
    let s0 := rotate a 2 ^^^ rotate a 13 ^^^ rotate a 22
    let maj := (a &&& b) ^^^ (a &&& c) ^^^ (b &&& c)
    [(t1 + s0 + maj) % 2 ^ 32, a, b, c, (d + t1) % 2 ^ 32, e, f, g]
  | state => state

def compress : List Nat → List Nat → List Nat → List Nat
  | [], _, state => state
  | k :: ks, window, state => compress ks (extend window) (round k (window.headD 0) state)

def word (bytes : List UInt8) : Nat := bytes.foldl (fun n b => n * 256 + b.toNat) 0

/-- The blocks of a padded message. -/
def blocks : Nat → List UInt8 → List Nat → List Nat
  | 0, _, state => state
  | n + 1, bytes, state =>
    let window := (range 16).map fun i => word ((bytes.drop (4 * i)).take 4)
    blocks n (bytes.drop 64) (zipWith (fun x y => (x + y) % 2 ^ 32) state
      (compress rounds window state))

def digest (message : List UInt8) : List UInt8 :=
  let n := message.length
  let zeros := (119 - n % 64) % 64
  let length := (range 8).map fun i => UInt8.ofNat (8 * n / 256 ^ (7 - i))
  let padded := message ++ 0x80 :: (replicate zeros 0 ++ length)
  (range 8).flatMap fun i =>
    let x := (blocks (padded.length / 64) padded initial).getD i 0
    (range 4).map fun j => UInt8.ofNat (x / 256 ^ (3 - j))

theorem length_digest (message : List UInt8) : (digest message).length = 32 := by
  simp only [digest, length_flatMap, length_map, length_range]
  rfl

end Sha256
