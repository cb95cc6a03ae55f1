import Mathlib.Data.BitVec
import Mathlib.Logic.Function.Basic

/-!
# The hash of an image (cryptography/sha256.c)

- `Sha256Ctx`: a block being filled, the bits hashed and the eight words of the state.
- `sha256Transform`: the message schedule and the 64 rounds over one block.
- `sha256Update`, `sha256Final`: bytes go through the block one at a time; the last block
  holds the padding and the length.

The signing program on the host builds the same file.
-/

namespace PrplHypervisor.Sha256

abbrev BYTE := UInt8
abbrev WORD := BitVec 32

/-! ## Macros -/

def rotright (a : WORD) (b : Nat) : WORD := (a >>> b) ||| (a <<< (32 - b))
def ch (x y z : WORD) : WORD := (x &&& y) ^^^ (~~~x &&& z)
def maj (x y z : WORD) : WORD := (x &&& y) ^^^ (x &&& z) ^^^ (y &&& z)
def ep0 (x : WORD) : WORD := rotright x 2 ^^^ rotright x 13 ^^^ rotright x 22
def ep1 (x : WORD) : WORD := rotright x 6 ^^^ rotright x 11 ^^^ rotright x 25
def sig0 (x : WORD) : WORD := rotright x 7 ^^^ rotright x 18 ^^^ (x >>> 3)
def sig1 (x : WORD) : WORD := rotright x 17 ^^^ rotright x 19 ^^^ (x >>> 10)

/-- `k[64]`. -/
def k : List WORD :=
  [0x428a2f98, 0x71374491, 0xb5c0fbcf, 0xe9b5dba5, 0x3956c25b, 0x59f111f1, 0x923f82a4, 0xab1c5ed5,
   0xd807aa98, 0x12835b01, 0x243185be, 0x550c7dc3, 0x72be5d74, 0x80deb1fe, 0x9bdc06a7, 0xc19bf174,
   0xe49b69c1, 0xefbe4786, 0x0fc19dc6, 0x240ca1cc, 0x2de92c6f, 0x4a7484aa, 0x5cb0a9dc, 0x76f988da,
   0x983e5152, 0xa831c66d, 0xb00327c8, 0xbf597fc7, 0xc6e00bf3, 0xd5a79147, 0x06ca6351, 0x14292967,
   0x27b70a85, 0x2e1b2138, 0x4d2c6dfc, 0x53380d13, 0x650a7354, 0x766a0abb, 0x81c2c92e, 0x92722c85,
   0xa2bfe8a1, 0xa81a664b, 0xc24b8b70, 0xc76c51a3, 0xd192e819, 0xd6990624, 0xf40e3585, 0x106aa070,
   0x19a4c116, 0x1e376c08, 0x2748774c, 0x34b0bcb5, 0x391c0cb3, 0x4ed8aa4a, 0x5b9cca4f, 0x682e6ff3,
   0x748f82ee, 0x78a5636f, 0x84c87814, 0x8cc70208, 0x90befffa, 0xa4506ceb, 0xbef9a3f7, 0xc67178f2]

/-! ## The context -/

/-- `state[0]` to `state[7]`, and the variables they are copied to. -/
structure Words where
  a : WORD
  b : WORD
  c : WORD
  d : WORD
  e : WORD
  f : WORD
  g : WORD
  h : WORD
deriving DecidableEq

/-- `SHA256_CTX`. -/
structure Sha256Ctx where
  data : Nat → BYTE
  datalen : Nat
  bitlen : BitVec 64
  state : Words

/-! ## One block -/

/-- A byte as an operand of `WORD` arithmetic. -/
def word (b : BYTE) : WORD := b.toBitVec.setWidth 32

/-- The loop that fills `m[0]` to `m[15]`; `j` is `4 * i`. -/
def loadWords (data : Nat → BYTE) : List WORD :=
  (List.range 16).map fun i =>
    (word (data (4 * i)) <<< 24) ||| (word (data (4 * i + 1)) <<< 16) |||
      (word (data (4 * i + 2)) <<< 8) ||| word (data (4 * i + 3))

/-- `m[i]` for an `i` behind the loaded words. -/
def expand (m : List WORD) (i : Nat) : List WORD :=
  m ++ [sig1 (m.getD (i - 2) 0) + m.getD (i - 7) 0 + sig0 (m.getD (i - 15) 0) +
    m.getD (i - 16) 0]

/-- `m`, all 64 words. -/
def schedule (data : Nat → BYTE) : List WORD :=
  (List.range' 16 48).foldl expand (loadWords data)

/-- The body of the loop over the 64 rounds. -/
def round (m : List WORD) (v : Words) (i : Nat) : Words :=
  let t1 := v.h + ep1 v.e + ch v.e v.f v.g + k.getD i 0 + m.getD i 0
  let t2 := ep0 v.a + maj v.a v.b v.c
  { a := t1 + t2, b := v.a, c := v.b, d := v.c, e := v.d + t1, f := v.e, g := v.f, h := v.g }

/-- `ctx->state[0] += a` and so on. -/
def Words.add (s v : Words) : Words :=
  { a := s.a + v.a, b := s.b + v.b, c := s.c + v.c, d := s.d + v.d,
    e := s.e + v.e, f := s.f + v.f, g := s.g + v.g, h := s.h + v.h }

/-- `sha256_transform`. -/
def sha256Transform (ctx : Sha256Ctx) : Sha256Ctx :=
  let m := schedule ctx.data
  { ctx with state := ctx.state.add ((List.range 64).foldl (round m) ctx.state) }

/-! ## The calls -/

/-- `sha256_init`; the block keeps what the memory held. -/
def sha256Init (ctx : Sha256Ctx) : Sha256Ctx :=
  { data := ctx.data
    datalen := 0
    bitlen := 0
    state :=
      { a := 0x6a09e667, b := 0xbb67ae85, c := 0x3c6ef372, d := 0xa54ff53a,
        e := 0x510e527f, f := 0x9b05688c, g := 0x1f83d9ab, h := 0x5be0cd19 } }

/-- The body of the loop of `sha256_update`. -/
def updateByte (ctx : Sha256Ctx) (b : BYTE) : Sha256Ctx :=
  let ctx :=
    { ctx with data := Function.update ctx.data ctx.datalen b, datalen := ctx.datalen + 1 }
  if ctx.datalen = 64 then
    let ctx := sha256Transform ctx
    { ctx with bitlen := ctx.bitlen + 512, datalen := 0 }
  else ctx

/-- `sha256_update` with the `len` bytes of `data`. -/
def sha256Update (ctx : Sha256Ctx) (data : List BYTE) : Sha256Ctx := data.foldl updateByte ctx

/-- `while (i < stop) ctx->data[i++] = 0x00`, and `memset` of the first bytes. -/
def zeroTo (data : Nat → BYTE) (i stop : Nat) : Nat → BYTE :=
  (List.range' i (stop - i)).foldl (fun data i => Function.update data i 0) data

/-- The padding behind the data, up to the length. -/
def padBlock (ctx : Sha256Ctx) : Sha256Ctx :=
  let i := ctx.datalen
  let data := Function.update ctx.data i 0x80
  if ctx.datalen < 56 then { ctx with data := zeroTo data (i + 1) 56 }
  else
    let ctx := sha256Transform { ctx with data := zeroTo data (i + 1) 64 }
    { ctx with data := zeroTo ctx.data 0 56 }

/-- A word converted to `BYTE`. -/
def byte {w : Nat} (x : BitVec w) : BYTE := ⟨x.setWidth 8⟩

/-- `ctx->data[63] = ctx->bitlen` and so on down to `ctx->data[56]`. -/
def storeLength (ctx : Sha256Ctx) : Sha256Ctx :=
  { ctx with
    data := (List.range 8).foldl
      (fun data j => Function.update data (63 - j) (byte (ctx.bitlen >>> (8 * j)))) ctx.data }

/-- The body of the loop that copies the state to `hash`. -/
def storeHash (s : Words) (hash : Nat → BYTE) (i : Nat) : Nat → BYTE :=
  let out (x : WORD) : BYTE := byte ((x >>> (24 - i * 8)) &&& 0xff)
  let hash := Function.update hash i (out s.a)
  let hash := Function.update hash (i + 4) (out s.b)
  let hash := Function.update hash (i + 8) (out s.c)
  let hash := Function.update hash (i + 12) (out s.d)
  let hash := Function.update hash (i + 16) (out s.e)
  let hash := Function.update hash (i + 20) (out s.f)
  let hash := Function.update hash (i + 24) (out s.g)
  Function.update hash (i + 28) (out s.h)

/-- `sha256_final`: the context and `hash` after the call. -/
def sha256Final (ctx : Sha256Ctx) (hash : Nat → BYTE) : Sha256Ctx × (Nat → BYTE) :=
  let padded := padBlock ctx
  let ctx :=
    sha256Transform (storeLength
      { padded with bitlen := padded.bitlen + BitVec.ofNat 64 (ctx.datalen * 8) })
  (ctx, (List.range 4).foldl (storeHash ctx.state) hash)

/-- Any number of calls of `sha256_update` between `sha256_init` and `sha256_final`; the 32
bytes the last one writes. -/
def sha256 (ctx : Sha256Ctx) (chunks : List (List BYTE)) : List BYTE :=
  let ctx := chunks.foldl sha256Update (sha256Init ctx)
  (List.range 32).map (sha256Final ctx fun _ => 0).2

end PrplHypervisor.Sha256
