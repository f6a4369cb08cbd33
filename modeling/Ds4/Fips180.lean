import Ds4.BlockBuffer

/- The Secure Hash Algorithm SHA-1 of FIPS 180 for messages of whole bytes, in the
   standard's own terms: words of 32 bits, the functions Ch, Parity and Maj, the
   message schedule by its recurrence, the padding to a multiple of 512 bits. -/
namespace Ds4.Fips180

abbrev Word := BitVec 32

def ch (x y z : Word) : Word := (x &&& y) ^^^ (~~~x &&& z)
def parity (x y z : Word) : Word := x ^^^ y ^^^ z
def maj (x y z : Word) : Word := (x &&& y) ^^^ (x &&& z) ^^^ (y &&& z)

/-- The logical function and the constant of a round. -/
def fn (t : Nat) : Word → Word → Word → Word :=
  if t < 20 then ch else if t < 40 then parity else if t < 60 then maj else parity

def constant (t : Nat) : Word :=
  if t < 20 then 0x5a827999 else if t < 40 then 0x6ed9eba1 else if t < 60 then 0x8f1bbcdc else 0xca62c1d6

/-- The i-th word of a block, its first byte the most significant. -/
def blockWord (block : List UInt8) (i : Nat) : Word :=
  (block.getD (4 * i) 0).toBitVec ++ (block.getD (4 * i + 1) 0).toBitVec ++ (block.getD (4 * i + 2) 0).toBitVec ++
    (block.getD (4 * i + 3) 0).toBitVec

def schedule (block : List UInt8) (t : Nat) : Word :=
  if t < 16 then blockWord block t
  else (schedule block (t - 3) ^^^ schedule block (t - 8) ^^^ schedule block (t - 14) ^^^ schedule block (t - 16)).rotateLeft 1

/-- The working variables, and a hash value. -/
structure Vars where
  a : Word
  b : Word
  c : Word
  d : Word
  e : Word

def Vars.round (block : List UInt8) (v : Vars) (t : Nat) : Vars where
  a := v.a.rotateLeft 5 + fn t v.b v.c v.d + v.e + constant t + schedule block t
  b := v.a
  c := v.b.rotateLeft 30
  d := v.c
  e := v.d

def Vars.add (v w : Vars) : Vars := ⟨v.a + w.a, v.b + w.b, v.c + w.c, v.d + w.d, v.e + w.e⟩

def compress (h : Vars) (block : List UInt8) : Vars := h.add ((List.range 80).foldl (Vars.round block) h)

def initialHash : Vars := ⟨0x67452301, 0xefcdab89, 0x98badcfe, 0x10325476, 0xc3d2e1f0⟩

/-- The bytes of a number, most significant first. -/
def bigEndian (k n : Nat) : List UInt8 := (List.range k).map fun i => UInt8.ofNat (n / 256 ^ (k - 1 - i))

/-- A bit 1, the least number of bits 0 that leaves 64 bits of the last block, and the
    message's length in bits, which is below 2^64 for every message the standard defines. -/
def pad (m : List UInt8) : List UInt8 :=
  m ++ (0x80 :: List.replicate ((56 + (64 - (m.length + 1) % 64)) % 64) 0 ++ bigEndian 8 (8 * m.length))

def Vars.bytes (v : Vars) : List UInt8 := [v.a, v.b, v.c, v.d, v.e].flatMap fun w => bigEndian 4 w.toNat

def sha1 (m : List UInt8) : List UInt8 := ((blocks 64 (pad m)).foldl compress initialHash).bytes

/-- Two lower-case hexadecimal digits for each byte. -/
def lowerHex (d : List UInt8) : List UInt8 :=
  d.flatMap fun x => [x.toNat / 16, x.toNat % 16].map fun n => UInt8.ofNat (Nat.digitChar n).toNat

theorem length_pad (m : List UInt8) : (pad m).length = ((m.length + 8) / 64 + 1) * 64 := by
  simp only [pad, bigEndian, List.length_append, List.length_cons, List.length_replicate, List.length_map, List.length_range]
  omega

/-! ## Other forms of the round functions -/

theorem ch_or (x y z : Word) : (x &&& y) ||| (~~~x &&& z) = ch x y z := by
  ext i hi
  simp only [ch, BitVec.getElem_or, BitVec.getElem_and, BitVec.getElem_xor, BitVec.getElem_not]
  cases x[i] <;> simp

theorem maj_or (x y z : Word) : (x &&& y) ||| (x &&& z) ||| (y &&& z) = maj x y z := by
  ext i hi
  simp only [maj, BitVec.getElem_or, BitVec.getElem_and, BitVec.getElem_xor]
  cases x[i] <;> cases y[i] <;> simp

end Ds4.Fips180
