/-!
# XXH3

The hash function XXH3 in its 64 bit form, with seed 0 and the default secret. It has one rule for
each range of lengths: up to 16 bytes are read at once, up to 240 bytes in pairs of words that are
multiplied, and longer inputs in stripes of eight words, each with an accumulator of its own.
-/

namespace ModuleWorkers.Xxh3

/-- The default secret. -/
def secret : ByteArray := ⟨#[
    0xb8, 0xfe, 0x6c, 0x39, 0x23, 0xa4, 0x4b, 0xbe, 0x7c, 0x01, 0x81, 0x2c, 0xf7, 0x21, 0xad, 0x1c,
    0xde, 0xd4, 0x6d, 0xe9, 0x83, 0x90, 0x97, 0xdb, 0x72, 0x40, 0xa4, 0xa4, 0xb7, 0xb3, 0x67, 0x1f,
    0xcb, 0x79, 0xe6, 0x4e, 0xcc, 0xc0, 0xe5, 0x78, 0x82, 0x5a, 0xd0, 0x7d, 0xcc, 0xff, 0x72, 0x21,
    0xb8, 0x08, 0x46, 0x74, 0xf7, 0x43, 0x24, 0x8e, 0xe0, 0x35, 0x90, 0xe6, 0x81, 0x3a, 0x26, 0x4c,
    0x3c, 0x28, 0x52, 0xbb, 0x91, 0xc3, 0x00, 0xcb, 0x88, 0xd0, 0x65, 0x8b, 0x1b, 0x53, 0x2e, 0xa3,
    0x71, 0x64, 0x48, 0x97, 0xa2, 0x0d, 0xf9, 0x4e, 0x38, 0x19, 0xef, 0x46, 0xa9, 0xde, 0xac, 0xd8,
    0xa8, 0xfa, 0x76, 0x3f, 0xe3, 0x9c, 0x34, 0x3f, 0xf9, 0xdc, 0xbb, 0xc7, 0xc7, 0x0b, 0x4f, 0x1d,
    0x8a, 0x51, 0xe0, 0x4b, 0xcd, 0xb4, 0x59, 0x31, 0xc8, 0x9f, 0x7e, 0xc9, 0xd9, 0x78, 0x73, 0x64,
    0xea, 0xc5, 0xac, 0x83, 0x34, 0xd3, 0xeb, 0xc3, 0xc5, 0x81, 0xa0, 0xff, 0xfa, 0x13, 0x63, 0xeb,
    0x17, 0x0d, 0xdd, 0x51, 0xb7, 0xf0, 0xda, 0x49, 0xd3, 0x16, 0x55, 0x26, 0x29, 0xd4, 0x68, 0x9e,
    0x2b, 0x16, 0xbe, 0x58, 0x7d, 0x47, 0xa1, 0xfc, 0x8f, 0xf8, 0xb8, 0xd1, 0x7a, 0xd0, 0x31, 0xce,
    0x45, 0xcb, 0x3a, 0x8f, 0x95, 0x16, 0x04, 0x28, 0xaf, 0xd7, 0xfb, 0xca, 0xbb, 0x4b, 0x40, 0x7e]⟩

/-! ## Words -/

/-- The number whose bytes stand at an offset, lowest byte first. -/
def readBytes (bytes : ByteArray) (offset count : Nat) : Nat :=
  (List.range count).foldr (fun k n => n * 256 + (bytes[offset + k]?.getD 0).toNat) 0

def read32 (bytes : ByteArray) (offset : Nat) : UInt64 := .ofNat (readBytes bytes offset 4)

def read64 (bytes : ByteArray) (offset : Nat) : UInt64 := .ofNat (readBytes bytes offset 8)

/-- The two halves of a product, folded into one word. -/
def foldProduct (a b : UInt64) : UInt64 :=
  let n := a.toNat * b.toNat
  .ofNat n ^^^ .ofNat (n >>> 64)

def rotateLeft (a : UInt64) (n : UInt64) : UInt64 := (a <<< n) ||| (a >>> (64 - n))

/-- The word with its bytes in the opposite order. -/
def swapBytes (a : UInt64) : UInt64 :=
  .ofNat ((List.range 8).foldl (fun n k => n * 256 + a.toNat >>> (8 * k) % 256) 0)

def prime32₁ : UInt64 := 0x9E3779B1
def prime32₂ : UInt64 := 0x85EBCA77
def prime32₃ : UInt64 := 0xC2B2AE3D
def prime64₁ : UInt64 := 0x9E3779B185EBCA87
def prime64₂ : UInt64 := 0xC2B2AE3D27D4EB4F
def prime64₃ : UInt64 := 0x165667B19E3779F9
def prime64₄ : UInt64 := 0x85EBCA77C2B2AE63
def prime64₅ : UInt64 := 0x27D4EB2F165667C5
def primeMix₁ : UInt64 := 0x165667919E3779F9
def primeMix₂ : UInt64 := 0x9FB21C651E98DF25

/-! ## Final mixing -/

def avalanche (h : UInt64) : UInt64 :=
  let h := (h ^^^ (h >>> 37)) * primeMix₁
  h ^^^ (h >>> 32)

def avalancheShort (h : UInt64) : UInt64 :=
  let h := (h ^^^ (h >>> 33)) * prime64₂
  let h := (h ^^^ (h >>> 29)) * prime64₃
  h ^^^ (h >>> 32)

def avalancheLength (h : UInt64) (length : Nat) : UInt64 :=
  let h := (h ^^^ rotateLeft h 49 ^^^ rotateLeft h 24) * primeMix₂
  let h := (h ^^^ ((h >>> 35) + .ofNat length)) * primeMix₂
  h ^^^ (h >>> 28)

/-! ## Short inputs -/

def hashEmpty : UInt64 := avalancheShort (read64 secret 56 ^^^ read64 secret 64)

/-- For one to three bytes. -/
def hashTiny (b : ByteArray) : UInt64 :=
  let byte (k : Nat) : UInt64 := (b[k]?.getD 0).toUInt64
  let word : UInt64 := (byte 0 <<< 16) ||| (byte (b.size / 2) <<< 24) ||| byte (b.size - 1) |||
    (UInt64.ofNat b.size <<< 8)
  avalancheShort (word ^^^ read32 secret 0 ^^^ read32 secret 4)

/-- For four to eight bytes. -/
def hashHalf (b : ByteArray) : UInt64 :=
  let word := read32 b (b.size - 4) + (read32 b 0 <<< 32)
  avalancheLength (word ^^^ read64 secret 8 ^^^ read64 secret 16) b.size

/-- For nine to sixteen bytes. -/
def hashWord (b : ByteArray) : UInt64 :=
  let low := read64 b 0 ^^^ read64 secret 24 ^^^ read64 secret 32
  let high := read64 b (b.size - 8) ^^^ read64 secret 40 ^^^ read64 secret 48
  avalanche (.ofNat b.size + swapBytes low + high + foldProduct low high)

/-! ## Inputs of middle length -/

/-- Mixes sixteen bytes of the input with sixteen bytes of the secret. -/
def mix (b : ByteArray) (offset key : Nat) : UInt64 :=
  foldProduct (read64 b offset ^^^ read64 secret key)
    (read64 b (offset + 8) ^^^ read64 secret (key + 8))

/-- For 17 to 128 bytes: pairs from both ends towards the middle. -/
def hashPairs (b : ByteArray) : UInt64 :=
  let pairs := (b.size - 1) / 32 + 1
  let sum := (List.range pairs).foldl (fun h k =>
    h + mix b (16 * k) (32 * k) + mix b (b.size - 16 * (k + 1)) (32 * k + 16)) 0
  avalanche (.ofNat b.size * prime64₁ + sum)

/-- For 129 to 240 bytes. -/
def hashRounds (b : ByteArray) : UInt64 :=
  let start := (List.range 8).foldl (fun h k => h + mix b (16 * k) (16 * k))
    (.ofNat b.size * prime64₁)
  let later := (List.range (b.size / 16 - 8)).foldl
    (fun h k => h + mix b (16 * (k + 8)) (16 * k + 3)) (avalanche start)
  avalanche (later + mix b (b.size - 16) 119)

/-! ## Long inputs -/

/-- The eight accumulators. -/
abbrev Accumulators := List UInt64

def start : Accumulators :=
  [prime32₃, prime64₁, prime64₂, prime64₃, prime64₄, prime32₂, prime64₅, prime32₁]

/-- Takes a stripe in: each word goes to the accumulator beside its own, and the product of its
halves, mixed with the secret, to its own. -/
def addStripe (b : ByteArray) (acc : Accumulators) (offset key : Nat) : Accumulators :=
  acc.zipIdx.map fun (a, k) =>
    let beside := if k % 2 = 0 then k + 1 else k - 1
    let word := read64 b (offset + 8 * k) ^^^ read64 secret (key + 8 * k)
    a + read64 b (offset + 8 * beside) + (.ofNat (word.toNat % 0x100000000)) * (word >>> 32)

def scramble (acc : Accumulators) : Accumulators :=
  acc.zipIdx.map fun (a, k) => (a ^^^ (a >>> 47) ^^^ read64 secret (128 + 8 * k)) * prime32₁

/-- Takes stripes in that follow each other. -/
def addStripes (b : ByteArray) (acc : Accumulators) (offset count : Nat) : Accumulators :=
  (List.range count).foldl (fun acc n => addStripe b acc (offset + 64 * n) (8 * n)) acc

/-- For more than 240 bytes: blocks of sixteen stripes, and a last stripe at the end. -/
def hashBlocks (b : ByteArray) : UInt64 :=
  let blocks := (b.size - 1) / 1024
  let acc := (List.range blocks).foldl
    (fun acc n => scramble (addStripes b acc (1024 * n) 16)) start
  let acc := addStripes b acc (1024 * blocks) ((b.size - 1 - 1024 * blocks) / 64)
  let acc := addStripe b acc (b.size - 64) 121
  let words := acc.zipIdx.map fun (a, k) => a ^^^ read64 secret (11 + 8 * k)
  avalanche (products (.ofNat b.size * prime64₁) words)
where
  /-- The sum of the products of pairs. -/
  products (sum : UInt64) : List UInt64 → UInt64
    | a :: b :: rest => products (sum + foldProduct a b) rest
    | _ => sum

/-! ## All inputs -/

/-- The hash of bytes. -/
def hash (b : ByteArray) : UInt64 :=
  if b.size = 0 then hashEmpty
  else if b.size ≤ 3 then hashTiny b
  else if b.size ≤ 8 then hashHalf b
  else if b.size ≤ 16 then hashWord b
  else if b.size ≤ 128 then hashPairs b
  else if b.size ≤ 240 then hashRounds b
  else hashBlocks b

/-- The first hexadecimal digits of a hash, which has sixteen. -/
def digits (count : Nat) (b : ByteArray) : List Char :=
  (List.range count).map fun k => Nat.digitChar ((hash b).toNat >>> (4 * (15 - k)) % 16)

end ModuleWorkers.Xxh3
