import Mathlib.Tactic.SplitIfs

/-!
# SHA-256 (`hash.cpp`)

Whole chunks of 64 bytes come first. What remains is padded to one chunk or two,
with the number of bits at the end.
-/

namespace UtreexoBridge

namespace Sha256

abbrev Word := BitVec 32

def roundConstants : List Word :=
  [0x428a2f98, 0x71374491, 0xb5c0fbcf, 0xe9b5dba5, 0x3956c25b, 0x59f111f1, 0x923f82a4, 0xab1c5ed5,
    0xd807aa98, 0x12835b01, 0x243185be, 0x550c7dc3, 0x72be5d74, 0x80deb1fe, 0x9bdc06a7, 0xc19bf174,
    0xe49b69c1, 0xefbe4786, 0x0fc19dc6, 0x240ca1cc, 0x2de92c6f, 0x4a7484aa, 0x5cb0a9dc, 0x76f988da,
    0x983e5152, 0xa831c66d, 0xb00327c8, 0xbf597fc7, 0xc6e00bf3, 0xd5a79147, 0x06ca6351, 0x14292967,
    0x27b70a85, 0x2e1b2138, 0x4d2c6dfc, 0x53380d13, 0x650a7354, 0x766a0abb, 0x81c2c92e, 0x92722c85,
    0xa2bfe8a1, 0xa81a664b, 0xc24b8b70, 0xc76c51a3, 0xd192e819, 0xd6990624, 0xf40e3585, 0x106aa070,
    0x19a4c116, 0x1e376c08, 0x2748774c, 0x34b0bcb5, 0x391c0cb3, 0x4ed8aa4a, 0x5b9cca4f, 0x682e6ff3,
    0x748f82ee, 0x78a5636f, 0x84c87814, 0x8cc70208, 0x90befffa, 0xa4506ceb, 0xbef9a3f7, 0xc67178f2]

structure State where
  a : Word
  b : Word
  c : Word
  d : Word
  e : Word
  f : Word
  g : Word
  h : Word
  deriving DecidableEq

def State.words (s : State) : List Word := [s.a, s.b, s.c, s.d, s.e, s.f, s.g, s.h]

def initial : State :=
  ⟨0x6a09e667, 0xbb67ae85, 0x3c6ef372, 0xa54ff53a, 0x510e527f, 0x9b05688c, 0x1f83d9ab, 0x5be0cd19⟩

def readBE32 (bytes : List UInt8) : Word := bytes.foldl (fun value byte => value <<< 8 ||| byte.toBitVec.setWidth 32) 0

/-- `WriteBE32` and `WriteBE64` write 4 and 8 bytes. -/
def writeBE (count value : Nat) : List UInt8 :=
  (List.range count).map fun i => UInt8.ofNat (value >>> (8 * (count - 1 - i)))

/-! ## One chunk -/

/-- The words behind the first 16. Those so far stand with the last one at the head. -/
def extend : Nat → List Word → List Word
  | 0, words => words
  | count + 1, words =>
    let before (i : Nat) : Word := words.getD (i - 1) 0
    let s0 := (before 15).rotateRight 7 ^^^ (before 15).rotateRight 18 ^^^ before 15 >>> 3
    let s1 := (before 2).rotateRight 17 ^^^ (before 2).rotateRight 19 ^^^ before 2 >>> 10
    extend count ((before 16 + s0 + before 7 + s1) :: words)

def messageWords (chunk : List UInt8) : List Word :=
  (extend 48 ((List.range 16).map fun i => readBE32 ((chunk.drop (i * 4)).take 4)).reverse).reverse

def round (s : State) (constant word : Word) : State :=
  let sum1 := s.e.rotateRight 6 ^^^ s.e.rotateRight 11 ^^^ s.e.rotateRight 25
  let choose := s.g ^^^ (s.e &&& (s.f ^^^ s.g))
  let t1 := s.h + sum1 + choose + constant + word
  let sum0 := s.a.rotateRight 2 ^^^ s.a.rotateRight 13 ^^^ s.a.rotateRight 22
  let majority := (s.a &&& s.b) ||| (s.c &&& (s.a ||| s.b))
  let t2 := sum0 + majority
  ⟨t1 + t2, s.a, s.b, s.c, s.d + t1, s.e, s.f, s.g⟩

/-- `Sha256Transform`. -/
def transform (state : State) (chunk : List UInt8) : State :=
  let s := (roundConstants.zip (messageWords chunk)).foldl (fun s (constant, word) => round s constant word) state
  ⟨state.a + s.a, state.b + s.b, state.c + s.c, state.d + s.d, state.e + s.e, state.f + s.f, state.g + s.g,
    state.h + s.h⟩

/-! ## The whole input -/

def chunkAt (bytes : List UInt8) (i : Nat) : List UInt8 := (bytes.drop (i * 64)).take 64

def transformAll (count : Nat) (bytes : List UInt8) (state : State) : State :=
  (List.range count).foldl (fun state i => transform state (chunkAt bytes i)) state

def paddedSize (remaining : Nat) : Nat := if remaining < 56 then 64 else 128

/-- `tail`, up to its padded size. -/
def paddedTail (input : List UInt8) : List UInt8 :=
  let remaining := input.length % 64
  input.drop (input.length - remaining) ++ (0x80 :: List.replicate (paddedSize remaining - 9 - remaining) 0) ++
    writeBE 8 (input.length * 8)

end Sha256

open Sha256 in
def sha256 (input : List UInt8) : List UInt8 :=
  let tail := paddedTail input
  let state := transformAll (tail.length / 64) tail (transformAll (input.length / 64) input initial)
  state.words.flatMap fun word => writeBE 4 word.toNat

namespace Sha256

theorem length_paddedTail (input : List UInt8) : (paddedTail input).length = paddedSize (input.length % 64) := by
  have hremaining : input.length % 64 < 64 := Nat.mod_lt _ (by decide)
  unfold paddedTail writeBE paddedSize
  simp only [List.length_append, List.length_drop, List.length_cons, List.length_replicate, List.length_map,
    List.length_range]
  split_ifs <;> omega

theorem length_chunkAt {bytes : List UInt8} {i : Nat} (hi : i < bytes.length / 64) : (chunkAt bytes i).length = 64 := by
  unfold chunkAt
  rw [List.length_take, List.length_drop]
  omega

/-- The transform gets full chunks only, and all of the padded tail. -/
theorem chunks_full (input : List UInt8) : (∀ i < input.length / 64, (chunkAt input i).length = 64) ∧
    (∀ i < (paddedTail input).length / 64, (chunkAt (paddedTail input) i).length = 64) ∧
      (paddedTail input).length % 64 = 0 := by
  refine ⟨fun i hi => length_chunkAt hi, fun i hi => length_chunkAt hi, ?_⟩
  rw [length_paddedTail, paddedSize]
  split_ifs <;> decide

end Sha256

theorem length_sha256 (input : List UInt8) : (sha256 input).length = 32 := by
  unfold sha256 Sha256.State.words Sha256.writeBE
  simp

end UtreexoBridge
