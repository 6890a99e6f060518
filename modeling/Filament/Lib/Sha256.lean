import Mathlib.Algebra.Group.Nat.Defs
import Mathlib.Data.Nat.Notation

/-!
# SHA-256

The hash of a byte string, block by block, as FIPS 180-4 defines it.
-/

namespace Filament.Sha256

/-- The constants of the rounds. -/
def constants : List (BitVec 32) :=
  [0x428a2f98, 0x71374491, 0xb5c0fbcf, 0xe9b5dba5, 0x3956c25b, 0x59f111f1, 0x923f82a4, 0xab1c5ed5,
    0xd807aa98, 0x12835b01, 0x243185be, 0x550c7dc3, 0x72be5d74, 0x80deb1fe, 0x9bdc06a7, 0xc19bf174,
    0xe49b69c1, 0xefbe4786, 0x0fc19dc6, 0x240ca1cc, 0x2de92c6f, 0x4a7484aa, 0x5cb0a9dc, 0x76f988da,
    0x983e5152, 0xa831c66d, 0xb00327c8, 0xbf597fc7, 0xc6e00bf3, 0xd5a79147, 0x06ca6351, 0x14292967,
    0x27b70a85, 0x2e1b2138, 0x4d2c6dfc, 0x53380d13, 0x650a7354, 0x766a0abb, 0x81c2c92e, 0x92722c85,
    0xa2bfe8a1, 0xa81a664b, 0xc24b8b70, 0xc76c51a3, 0xd192e819, 0xd6990624, 0xf40e3585, 0x106aa070,
    0x19a4c116, 0x1e376c08, 0x2748774c, 0x34b0bcb5, 0x391c0cb3, 0x4ed8aa4a, 0x5b9cca4f, 0x682e6ff3,
    0x748f82ee, 0x78a5636f, 0x84c87814, 0x8cc70208, 0x90befffa, 0xa4506ceb, 0xbef9a3f7, 0xc67178f2]

/-- The eight words of the state; first the initial hash value. -/
structure State where
  a : BitVec 32 := 0x6a09e667
  b : BitVec 32 := 0xbb67ae85
  c : BitVec 32 := 0x3c6ef372
  d : BitVec 32 := 0xa54ff53a
  e : BitVec 32 := 0x510e527f
  f : BitVec 32 := 0x9b05688c
  g : BitVec 32 := 0x1f83d9ab
  h : BitVec 32 := 0x5be0cd19

/-- Bytes as words, the highest byte first. -/
def toWords : List (BitVec 8) → List (BitVec 32)
  | b₀ :: b₁ :: b₂ :: b₃ :: bs => (b₀ ++ b₁ ++ b₂ ++ b₃) :: toWords bs
  | _ => []

/-- The message with a one bit, zeros up to whole blocks, and its length in bits. -/
def pad (message : List (BitVec 8)) : List (BitVec 32) :=
  toWords (message ++ 0x80 :: List.replicate ((119 - message.length % 64) % 64) 0) ++
    [BitVec.ofNat 32 (message.length * 8 / 2 ^ 32), BitVec.ofNat 32 (message.length * 8)]

/-- `n` more words of the message schedule; `ws` has the words so far, the newest first. -/
def schedule : ℕ → List (BitVec 32) → List (BitVec 32)
  | 0, ws => ws.reverse
  | n + 1, ws =>
    let w (back : ℕ) := ws.getD (back - 1) 0
    let s₀ := (w 15).rotateRight 7 ^^^ (w 15).rotateRight 18 ^^^ w 15 >>> 3
    let s₁ := (w 2).rotateRight 17 ^^^ (w 2).rotateRight 19 ^^^ w 2 >>> 10
    schedule n ((w 16 + s₀ + w 7 + s₁) :: ws)

def round (s : State) (kw : BitVec 32 × BitVec 32) : State :=
  let s₁ := s.e.rotateRight 6 ^^^ s.e.rotateRight 11 ^^^ s.e.rotateRight 25
  let choice := (s.e &&& s.f) ^^^ (~~~s.e &&& s.g)
  let t := s.h + s₁ + choice + kw.1 + kw.2
  let s₀ := s.a.rotateRight 2 ^^^ s.a.rotateRight 13 ^^^ s.a.rotateRight 22
  let majority := (s.a &&& s.b) ^^^ (s.a &&& s.c) ^^^ (s.b &&& s.c)
  ⟨t + s₀ + majority, s.a, s.b, s.c, s.d + t, s.e, s.f, s.g⟩

def block (s : State) (ws : List (BitVec 32)) : State :=
  let r := (constants.zip (schedule 48 ws.reverse)).foldl round s
  ⟨s.a + r.a, s.b + r.b, s.c + r.c, s.d + r.d, s.e + r.e, s.f + r.f, s.g + r.g, s.h + r.h⟩

def blocks : ℕ → State → List (BitVec 32) → State
  | 0, s, _ => s
  | n + 1, s, ws => blocks n (block s (ws.take 16)) (ws.drop 16)

/-- The 32 bytes of the hash. -/
def sum256 (message : List (BitVec 8)) : List (BitVec 8) :=
  let s := blocks ((pad message).length / 16) {} (pad message)
  [s.a, s.b, s.c, s.d, s.e, s.f, s.g, s.h].flatMap fun w =>
    [w.extractLsb' 24 8, w.extractLsb' 16 8, w.extractLsb' 8 8, w.extractLsb' 0 8]

/-- The first test vector of the standard, `abc`. -/
example : (sum256 [0x61, 0x62, 0x63]).take 4 = [0xba, 0x78, 0x16, 0xbf] := by decide +kernel

end Filament.Sha256
