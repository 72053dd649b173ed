/-! # xxHash32

The 32-bit xxHash of a byte string, in its published form: four accumulators
over 16-byte stripes, then the remaining lanes and bytes, then an avalanche.  The
development treats the hash as an arbitrary function of bytes; this definition
is the function the two runtimes really call, and it is what concrete inputs
are evaluated with.
-/
namespace GajaeCode.Xxh32

def prime1 : UInt32 := 2654435761
def prime2 : UInt32 := 2246822519
def prime3 : UInt32 := 3266489917
def prime4 : UInt32 := 668265263
def prime5 : UInt32 := 374761393

def rotl (x r : UInt32) : UInt32 := (x <<< r) ||| (x >>> (32 - r))

/-- A little-endian 32-bit lane. -/
def lane (a b c d : UInt8) : UInt32 :=
  a.toUInt32 ||| (b.toUInt32 <<< 8) ||| (c.toUInt32 <<< 16) ||| (d.toUInt32 <<< 24)

def round (acc input : UInt32) : UInt32 := rotl (acc + input * prime2) 13 * prime1

/-- The four accumulators after every full stripe, folded together, with the
bytes left over. -/
def stripes (v1 v2 v3 v4 : UInt32) : List UInt8 → UInt32 × List UInt8
  | a0 :: a1 :: a2 :: a3 :: b0 :: b1 :: b2 :: b3 ::
    c0 :: c1 :: c2 :: c3 :: d0 :: d1 :: d2 :: d3 :: rest =>
      stripes (round v1 (lane a0 a1 a2 a3)) (round v2 (lane b0 b1 b2 b3))
        (round v3 (lane c0 c1 c2 c3)) (round v4 (lane d0 d1 d2 d3)) rest
  | rest => (rotl v1 1 + rotl v2 7 + rotl v3 12 + rotl v4 18, rest)

/-- The lanes and bytes after the last full stripe. -/
def finish (h : UInt32) : List UInt8 → UInt32
  | a :: b :: c :: d :: rest => finish (rotl (h + lane a b c d * prime3) 17 * prime4) rest
  | a :: rest => finish (rotl (h + a.toUInt32 * prime5) 11 * prime1) rest
  | [] => h

def avalanche (h : UInt32) : UInt32 :=
  let h := (h ^^^ (h >>> 15)) * prime2
  let h := (h ^^^ (h >>> 13)) * prime3
  h ^^^ (h >>> 16)

/-- xxHash32 of `bytes` with seed 0. -/
def xxh32 (bytes : List UInt8) : UInt32 :=
  let start :=
    if bytes.length < 16 then (prime5, bytes)
    else stripes (prime1 + prime2) prime2 0 (0 - prime1) bytes
  avalanche (finish (start.1 + UInt32.ofNat bytes.length) start.2)

example : xxh32 [] = 0x02cc5d05 := by decide
example : xxh32 [0x61, 0x62, 0x63] = 0x32d153ff := by decide

end GajaeCode.Xxh32
