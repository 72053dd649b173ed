import GajaeCode.JsString

/-! # SHA-256

The hash of a byte string and its hexadecimal form, as published: the message is padded
to blocks of 64 bytes, each block is extended to 64 words, and 64 rounds mix them into
eight words of state.
-/
namespace GajaeCode.Sha256
open JsString

def constants : List UInt32 :=
  [ 0x428a2f98, 0x71374491, 0xb5c0fbcf, 0xe9b5dba5, 0x3956c25b, 0x59f111f1, 0x923f82a4, 0xab1c5ed5,
    0xd807aa98, 0x12835b01, 0x243185be, 0x550c7dc3, 0x72be5d74, 0x80deb1fe, 0x9bdc06a7, 0xc19bf174,
    0xe49b69c1, 0xefbe4786, 0x0fc19dc6, 0x240ca1cc, 0x2de92c6f, 0x4a7484aa, 0x5cb0a9dc, 0x76f988da,
    0x983e5152, 0xa831c66d, 0xb00327c8, 0xbf597fc7, 0xc6e00bf3, 0xd5a79147, 0x06ca6351, 0x14292967,
    0x27b70a85, 0x2e1b2138, 0x4d2c6dfc, 0x53380d13, 0x650a7354, 0x766a0abb, 0x81c2c92e, 0x92722c85,
    0xa2bfe8a1, 0xa81a664b, 0xc24b8b70, 0xc76c51a3, 0xd192e819, 0xd6990624, 0xf40e3585, 0x106aa070,
    0x19a4c116, 0x1e376c08, 0x2748774c, 0x34b0bcb5, 0x391c0cb3, 0x4ed8aa4a, 0x5b9cca4f, 0x682e6ff3,
    0x748f82ee, 0x78a5636f, 0x84c87814, 0x8cc70208, 0x90befffa, 0xa4506ceb, 0xbef9a3f7, 0xc67178f2 ]

/-- The state before the first block. -/
def initial : List UInt32 :=
  [ 0x6a09e667, 0xbb67ae85, 0x3c6ef372, 0xa54ff53a, 0x510e527f, 0x9b05688c, 0x1f83d9ab, 0x5be0cd19 ]

def rotr (x r : UInt32) : UInt32 := (x >>> r) ||| (x <<< (32 - r))

/-- The words of a block, big-endian. -/
def words : List UInt8 → List UInt32
  | a :: b :: c :: d :: rest =>
      ((a.toUInt32 <<< 24) ||| (b.toUInt32 <<< 16) ||| (c.toUInt32 <<< 8) ||| d.toUInt32) ::
        words rest
  | _ => []

/-- Extends the words of a block, listed last first, by `n` more. -/
def schedule : Nat → List UInt32 → List UInt32
  | 0, ws => ws
  | n + 1, ws =>
    let w15 := ws.getD 14 0
    let w2 := ws.getD 1 0
    let s0 := rotr w15 7 ^^^ rotr w15 18 ^^^ (w15 >>> 3)
    let s1 := rotr w2 17 ^^^ rotr w2 19 ^^^ (w2 >>> 10)
    schedule n ((ws.getD 15 0 + s0 + ws.getD 6 0 + s1) :: ws)

/-- One round, with its constant and word. -/
def round : List UInt32 → UInt32 × UInt32 → List UInt32
  | [a, b, c, d, e, f, g, h], (k, w) =>
    let s1 := rotr e 6 ^^^ rotr e 11 ^^^ rotr e 25
    let ch := (e &&& f) ^^^ (~~~e &&& g)
    let t1 := h + s1 + ch + k + w
    let s0 := rotr a 2 ^^^ rotr a 13 ^^^ rotr a 22
    let maj := (a &&& b) ^^^ (a &&& c) ^^^ (b &&& c)
    [t1 + (s0 + maj), a, b, c, d + t1, e, f, g]
  | state, _ => state

def block (state : List UInt32) (bytes : List UInt8) : List UInt32 :=
  let ws := (schedule 48 (words bytes).reverse).reverse
  List.zipWith (· + ·) state ((constants.zip ws).foldl round state)

def blocks : Nat → List UInt8 → List UInt32 → List UInt32
  | 0, _, state => state
  | n + 1, bytes, state => blocks n (bytes.drop 64) (block state (bytes.take 64))

def padded (bytes : List UInt8) : List UInt8 :=
  let zeros := (119 - bytes.length % 64) % 64
  let size := [56, 48, 40, 32, 24, 16, 8, 0].map fun shift =>
    UInt8.ofNat ((bytes.length * 8) >>> shift)
  bytes ++ 0x80 :: List.replicate zeros 0 ++ size

/-- The digest of a byte string, as words. -/
def digest (bytes : List UInt8) : List UInt32 :=
  let message := padded bytes
  blocks (message.length / 64) message initial

/-- Eight hexadecimal digits. -/
def wordHex (w : UInt32) : JsString :=
  [28, 24, 20, 16, 12, 8, 4, 0].map fun shift => hexDigit ((w.toNat >>> shift) % 16)

/-- `createHash("sha256").update(text).digest("hex")`. -/
def hexDigest (text : JsString) : JsString := (digest (utf8 text)).flatMap wordHex

example : hexDigest (js "abc") =
    js "ba7816bf8f01cfea414140de5dae2223b00361a396177a9cb410ff61f20015ad" := by
  decide +kernel

end GajaeCode.Sha256
