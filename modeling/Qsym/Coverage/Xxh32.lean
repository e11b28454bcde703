import Mathlib.Data.BitVec

/-!
# Qsym.Coverage.Xxh32

The streaming 32-bit hash of `third_party/xxhash/xxhash.cpp`, on a little-endian machine:
`XXH32_reset`, `XXH32_update` and `XXH32_digest`. The buffer `mem32` is the list of the
`memsize` bytes it holds.
-/

namespace Qsym

/-- A byte of a map, of a file or of a hash's input. -/
abbrev Byte := BitVec 8

namespace Xxh32

def PRIME32_1 : BitVec 32 := 2654435761
def PRIME32_2 : BitVec 32 := 2246822519
def PRIME32_3 : BitVec 32 := 3266489917
def PRIME32_4 : BitVec 32 := 668265263
def PRIME32_5 : BitVec 32 := 374761393

/-- `XXH32_state_t` -/
structure State where
  total_len_32 : BitVec 32
  large_len : Bool
  v1 : BitVec 32
  v2 : BitVec 32
  v3 : BitVec 32
  v4 : BitVec 32
  mem32 : List Byte

def round (seed input : BitVec 32) : BitVec 32 :=
  (seed + input * PRIME32_2).rotateLeft 13 * PRIME32_1

/-- `XXH_readLE32` of the four bytes from `i` on. -/
def readLE32 (p : List Byte) (i : Nat) : BitVec 32 :=
  p.getD (i + 3) 0 ++ p.getD (i + 2) 0 ++ p.getD (i + 1) 0 ++ p.getD i 0

def reset (seed : BitVec 32) : State where
  total_len_32 := 0
  large_len := false
  v1 := seed + PRIME32_1 + PRIME32_2
  v2 := seed + PRIME32_2
  v3 := seed
  v4 := seed - PRIME32_1
  mem32 := []

/-- `n` stripes of sixteen bytes; the bytes after them stay in the buffer. -/
def stripes : Nat → State → List Byte → State
  | 0, state, p => { state with mem32 := p }
  | n + 1, state, p =>
      stripes n { state with
        v1 := round state.v1 (readLE32 p 0)
        v2 := round state.v2 (readLE32 p 4)
        v3 := round state.v3 (readLE32 p 8)
        v4 := round state.v4 (readLE32 p 12) } (p.drop 16)

def update (state : State) (input : List Byte) : State :=
  let total_len_32 := state.total_len_32 + BitVec.ofNat 32 input.length
  let state := { state with
    total_len_32
    large_len := state.large_len || decide (16 ≤ input.length) || decide (16 ≤ total_len_32) }
  if state.mem32.length + input.length < 16 then
    { state with mem32 := state.mem32 ++ input }
  else
    -- the buffer is filled up to a stripe first, then the input is taken in stripes
    stripes ((state.mem32.length + input.length) / 16) state (state.mem32 ++ input)

/-- The loops of `XXH32_digest` over the buffer: `n` words, then single bytes. -/
def finish : Nat → BitVec 32 → List Byte → BitVec 32
  | n + 1, h32, p =>
      finish n ((h32 + readLE32 p 0 * PRIME32_3).rotateLeft 17 * PRIME32_4) (p.drop 4)
  | 0, h32, p =>
      p.foldl (fun h32 b => (h32 + b.setWidth 32 * PRIME32_5).rotateLeft 11 * PRIME32_1) h32

def digest (state : State) : BitVec 32 :=
  let h32 := if state.large_len then
      state.v1.rotateLeft 1 + state.v2.rotateLeft 7 + state.v3.rotateLeft 12 +
        state.v4.rotateLeft 18
    else state.v3 + PRIME32_5
  let h32 := finish (state.mem32.length / 4) (h32 + state.total_len_32) state.mem32
  let h32 := (h32 ^^^ (h32 >>> 15)) * PRIME32_2
  let h32 := (h32 ^^^ (h32 >>> 13)) * PRIME32_3
  h32 ^^^ (h32 >>> 16)

/-- The bytes of an integer in memory. -/
def bytesOf {n : Nat} (x : BitVec n) : List Byte :=
  (List.range (n / 8)).map fun i => x.extractLsb' (8 * i) 8

/-- The hash of the empty input and of the text `a` with seed 0. -/
example : digest (reset 0) = 0x02CC5D05 ∧ digest (update (reset 0) [97]) = 0x550D7456 := by
  decide

end Xxh32

end Qsym
