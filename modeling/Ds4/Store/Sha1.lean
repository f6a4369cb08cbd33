import Ds4.Fips180
import Ds4.Store.KvFile

/- The SHA-1 of the store's file names as ds4_kvstore.c computes it: a context of
   five words, a byte counter and a block of 64 bytes that fills piece by piece.

   PROVED here: whatever the splits into calls of the update, the context holds
   the hash value of the whole blocks so far and the bytes of the last one
   (`pair_update`), so that the digest is the standard's (`sha1_standard`). -/
namespace Ds4.Store
open Ds4 Bytes

/-! ## The context -/

/-- `sha1_ctx`. What stands in the block from `used` on is left over. -/
structure Sha1Buf where
  h : List UInt32
  bytes : UInt64
  block : Bytes
  used : Nat
  block_size : block.length = 64
  used_lt : used < 64

/-- `sha1_init`: the block is not written. -/
def Sha1Buf.init (block : Bytes) (hb : block.length = 64) : Sha1Buf :=
  ⟨[0x67452301, 0xefcdab89, 0x98badcfe, 0x10325476, 0xc3d2e1f0], 0, block, 0, hb, by decide⟩

/-- `memcpy(block + used, p, n)`. -/
def copyInto (block : Bytes) (used : Nat) (p : Bytes) : Bytes := block.take used ++ p ++ block.drop (used + p.length)

theorem length_copyInto {block p : Bytes} {used : Nat} (h : used + p.length ≤ block.length) :
    (copyInto block used p).length = block.length := by
  rw [copyInto, List.length_append, List.length_append, List.length_take, List.length_drop]
  omega

/-- One pass of the loop of `sha1_update`: what fits of `p` goes into the block. -/
def Sha1Buf.chunk (c : Sha1Buf) (p : Bytes) : Sha1Buf :=
  have hsize := c.block_size
  have hused := c.used_lt
  let n := min (64 - c.used) p.length
  let block := copyInto c.block c.used (p.take n)
  have hblock : block.length = 64 := by
    rw [length_copyInto (by rw [List.length_take]; omega), hsize]
  if h : c.used + n = 64 then ⟨sha1Transform c.h block, c.bytes, block, 0, hblock, by decide⟩
  else ⟨c.h, c.bytes, block, c.used + n, hblock, by omega⟩

/-- The loop of `sha1_update`. -/
def Sha1Buf.feed (c : Sha1Buf) (p : Bytes) : Sha1Buf :=
  if p = [] then c else (c.chunk p).feed (p.drop (min (64 - c.used) p.length))
  termination_by p.length
  decreasing_by
    have hused := c.used_lt
    have hp : 0 < p.length := List.length_pos_iff.mpr ‹_›
    rw [List.length_drop]
    omega

def Sha1Buf.update (c : Sha1Buf) (p : Bytes) : Sha1Buf :=
  Sha1Buf.feed { c with bytes := c.bytes + UInt64.ofNat p.length } p

/-! ## The context after a stream -/

/-- The hash value so far, and the bytes kept back. -/
def Sha1Buf.pair (c : Sha1Buf) : List UInt32 × Bytes := (c.h, c.block.take c.used)

theorem Sha1Buf.length_pair (c : Sha1Buf) : c.pair.2.length = c.used := by
  have hsize := c.block_size
  have hused := c.used_lt
  rw [pair, List.length_take]
  omega

theorem take_copyInto {block p : Bytes} {used : Nat} (h : used ≤ block.length) :
    (copyInto block used p).take (used + p.length) = block.take used ++ p := by
  rw [copyInto]
  exact List.take_left' (by rw [List.length_append, List.length_take]; omega)

theorem Sha1Buf.pair_chunk (c : Sha1Buf) {p : Bytes} (hp : p ≠ []) :
    (c.chunk p).pair = absorb sha1Transform 64 c.pair (p.take (min (64 - c.used) p.length)) := by
  have hsize := c.block_size
  have hused := c.used_lt
  have hpos : 0 < p.length := List.length_pos_iff.mpr hp
  have hlen : (p.take (min (64 - c.used) p.length)).length = min (64 - c.used) p.length := by
    rw [List.length_take]
    omega
  have htake := take_copyInto (p := p.take (min (64 - c.used) p.length)) (show c.used ≤ c.block.length by omega)
  rw [hlen] at htake
  by_cases h : c.used + min (64 - c.used) p.length = 64
  · have hall : (copyInto c.block c.used (p.take (min (64 - c.used) p.length))).take 64 =
        copyInto c.block c.used (p.take (min (64 - c.used) p.length)) := by
      apply List.take_of_length_le
      rw [length_copyInto (by rw [hlen]; omega), hsize]
    rw [h, hall] at htake
    rw [absorb_fill (by rw [c.length_pair, hlen, h]) (List.ne_nil_of_length_pos (by omega))]
    simp only [pair, ← htake, chunk, dif_pos h, List.take_zero]
  · rw [absorb_fit (by rw [c.length_pair, hlen]; omega)]
    simp only [pair, ← htake, chunk, dif_neg h]

theorem Sha1Buf.bytes_chunk (c : Sha1Buf) (p : Bytes) : (c.chunk p).bytes = c.bytes := by
  by_cases h : c.used + min (64 - c.used) p.length = 64
  · simp only [chunk, dif_pos h]
  · simp only [chunk, dif_neg h]

theorem Sha1Buf.feed_spec (c : Sha1Buf) (p : Bytes) :
    (c.feed p).pair = absorb sha1Transform 64 c.pair p ∧ (c.feed p).bytes = c.bytes := by
  induction c, p using Sha1Buf.feed.induct with
  | case1 c => 
    rw [feed, if_pos rfl]
    exact ⟨rfl, rfl⟩
  | case2 c p hp ih =>
    rw [feed, if_neg hp, ih.1, ih.2, c.pair_chunk hp, ← absorb_append, List.take_append_drop, c.bytes_chunk]
    exact ⟨rfl, rfl⟩

/-- An update absorbs its bytes. -/
theorem Sha1Buf.pair_update (c : Sha1Buf) (p : Bytes) : (c.update p).pair = absorb sha1Transform 64 c.pair p :=
  (feed_spec _ p).1

theorem Sha1Buf.bytes_update (c : Sha1Buf) (p : Bytes) : (c.update p).bytes = c.bytes + UInt64.ofNat p.length :=
  (feed_spec _ p).2

theorem Sha1Buf.used_update (c : Sha1Buf) (p : Bytes) : (c.update p).used = (c.used + p.length) % 64 := by
  have hlt : c.pair.2.length < 64 := by
    rw [c.length_pair]
    exact c.used_lt
  rw [← length_pair, pair_update, length_absorb hlt, c.length_pair]

/-! ## The digest -/

/-- `while (c->used != 56) sha1_update(c, &zero, 1);` -/
def Sha1Buf.padZeros (c : Sha1Buf) : Sha1Buf :=
  if c.used = 56 then c else (c.update [0]).padZeros
  termination_by (120 - c.used) % 64
  decreasing_by
    have hused := c.used_lt
    rw [used_update, List.length_singleton]
    omega

def sha1BufFinal (c : Sha1Buf) : Bytes :=
  let bits := c.bytes * 8
  let c := c.update [0x80]
  let c := c.padZeros
  let c := c.update ((List.range 8).map fun i => (bits >>> (8 * UInt64.ofNat i)).toUInt8).reverse
  (List.range 5).flatMap fun i =>
    let w := c.h.getD i 0
    [(w >>> 24).toUInt8, (w >>> 16).toUInt8, (w >>> 8).toUInt8, w.toUInt8]

/-- `ds4_kvstore_sha1_bytes_hex`, with what stood in the block on the stack. -/
def kvstoreSha1BytesHex (junk : Bytes) (hjunk : junk.length = 64) (p : Bytes) : Bytes :=
  hex20 (sha1BufFinal ((Sha1Buf.init junk hjunk).update p))

/-- What the padding loop absorbs. -/
theorem Sha1Buf.pair_padZeros (c : Sha1Buf) :
    c.padZeros.pair = absorb sha1Transform 64 c.pair (List.replicate ((120 - c.used) % 64) 0) := by
  induction c using Sha1Buf.padZeros.induct with
  | case1 c h =>
    rw [padZeros, if_pos h, h]
    rfl
  | case2 c h ih =>
    have hused := c.used_lt
    have hnext : (120 - c.used) % 64 = (120 - (c.update [0]).used) % 64 + 1 := by
      rw [used_update, List.length_singleton]
      omega
    rw [padZeros, if_neg h, ih, pair_update, ← absorb_append, hnext, List.replicate_succ, List.singleton_append]

/-! ## The compression is the standard's -/

theorem toBitVec_rol32_1 (v : UInt32) : (rol32 v 1).toBitVec = v.toBitVec.rotateLeft 1 := by
  simp [rol32, BitVec.rotateLeft_def]

theorem toBitVec_rol32_5 (v : UInt32) : (rol32 v 5).toBitVec = v.toBitVec.rotateLeft 5 := by
  simp [rol32, BitVec.rotateLeft_def]

theorem toBitVec_rol32_30 (v : UInt32) : (rol32 v 30).toBitVec = v.toBitVec.rotateLeft 30 := by
  simp [rol32, BitVec.rotateLeft_def]

theorem toBitVec_word (b0 b1 b2 b3 : UInt8) :
    ((b0.toUInt32 <<< 24) ||| (b1.toUInt32 <<< 16) ||| (b2.toUInt32 <<< 8) ||| b3.toUInt32).toBitVec =
      b0.toBitVec ++ b1.toBitVec ++ b2.toBitVec ++ b3.toBitVec := by
  have hhigh (b : UInt8) (j : Nat) (hj : 8 ≤ j) : b.toBitVec.getLsbD j = false := BitVec.getLsbD_of_ge _ _ hj
  apply BitVec.eq_of_getLsbD_eq
  intro i hi
  rw [BitVec.getLsbD_append, BitVec.getLsbD_append, BitVec.getLsbD_append]
  by_cases h8 : i < 8
  · simp [h8, hi, show i < 16 by omega, show i < 24 by omega]
  by_cases h16 : i < 16
  · simp [h8, hi, h16, show i - 8 < 8 by omega, show i < 24 by omega, hhigh b3 i (by omega)]
  by_cases h24 : i < 24
  · simp [h8, hi, h16, h24, show ¬i - 8 < 8 by omega, show i - 8 - 8 < 8 by omega, show i - 16 = i - 8 - 8 by omega,
      hhigh b3 i (by omega), hhigh b2 (i - 8) (by omega)]
  · simp [h8, hi, h16, h24, show ¬i - 8 < 8 by omega, show ¬i - 8 - 8 < 8 by omega, show i - 24 = i - 8 - 8 - 8 by omega,
      hhigh b3 i (by omega), hhigh b2 (i - 8) (by omega), hhigh b1 (i - 16) (by omega)]

/-- The standard's schedule in words of the code. -/
def scheduleWord (block : Bytes) (t : Nat) : UInt32 := UInt32.ofBitVec (Fips180.schedule block t)

theorem scheduleWord_first (block : Bytes) {i : Nat} (hi : i < 16) :
    ((block.getD (i * 4) 0).toUInt32 <<< 24) ||| ((block.getD (i * 4 + 1) 0).toUInt32 <<< 16) |||
      ((block.getD (i * 4 + 2) 0).toUInt32 <<< 8) ||| (block.getD (i * 4 + 3) 0).toUInt32 = scheduleWord block i := by
  apply UInt32.toBitVec_inj.mp
  rw [toBitVec_word, scheduleWord, Fips180.schedule, if_pos hi, Fips180.blockWord, Nat.mul_comm]

theorem scheduleWord_next (block : Bytes) (k : Nat) :
    rol32 (scheduleWord block (13 + k) ^^^ scheduleWord block (8 + k) ^^^ scheduleWord block (2 + k) ^^^ scheduleWord block k) 1 =
      scheduleWord block (16 + k) := by
  have hrec : Fips180.schedule block (16 + k) = (Fips180.schedule block (13 + k) ^^^ Fips180.schedule block (8 + k) ^^^
      Fips180.schedule block (2 + k) ^^^ Fips180.schedule block k).rotateLeft 1 := by
    rw [Fips180.schedule, if_neg (by omega), show 16 + k - 3 = 13 + k by omega, show 16 + k - 8 = 8 + k by omega,
      show 16 + k - 14 = 2 + k by omega, show 16 + k - 16 = k by omega]
  apply UInt32.toBitVec_inj.mp
  rw [toBitVec_rol32_1]
  exact hrec.symm

theorem getD_reverse_range (S : Nat → UInt32) {n j : Nat} (h : j < n) :
    ((List.range n).map S).reverse.getD j 0 = S (n - 1 - j) := by
  rw [List.getD_eq_getElem?_getD, List.getElem?_reverse (by simpa using h), List.length_map, List.length_range,
    List.getElem?_map, List.getElem?_range (by omega)]
  rfl

theorem scheduleWord_fold (block : Bytes) (k : Nat) :
    (List.range k).foldl (fun ws _ => rol32 (ws.getD 2 0 ^^^ ws.getD 7 0 ^^^ ws.getD 13 0 ^^^ ws.getD 15 0) 1 :: ws)
      ((List.range 16).map (scheduleWord block)).reverse = ((List.range (16 + k)).map (scheduleWord block)).reverse := by
  induction k with
  | zero => rfl
  | succ k ih =>
    rw [@List.range_succ k, List.foldl_append, ih, List.foldl_cons, List.foldl_nil, getD_reverse_range _ (by omega),
      getD_reverse_range _ (by omega), getD_reverse_range _ (by omega), getD_reverse_range _ (by omega),
      show 16 + k - 1 - 2 = 13 + k by omega, show 16 + k - 1 - 7 = 8 + k by omega, show 16 + k - 1 - 13 = 2 + k by omega,
      show 16 + k - 1 - 15 = k by omega, scheduleWord_next, ← Nat.add_assoc, @List.range_succ (16 + k), List.map_append,
      List.reverse_append]
    rfl

theorem sha1Words_eq (block : Bytes) : sha1Words block = (List.range 80).map (scheduleWord block) := by
  have hfirst := List.map_congr_left fun i (hi : i ∈ List.range 16) => scheduleWord_first block (List.mem_range.mp hi)
  rw [sha1Words, hfirst, scheduleWord_fold, List.reverse_reverse]

/-- The working variables of the code as the standard's. -/
def roundVars (s : UInt32 × UInt32 × UInt32 × UInt32 × UInt32) : Fips180.Vars :=
  ⟨s.1.toBitVec, s.2.1.toBitVec, s.2.2.1.toBitVec, s.2.2.2.1.toBitVec, s.2.2.2.2.toBitVec⟩

theorem roundVars_round (block : Bytes) (s : UInt32 × UInt32 × UInt32 × UInt32 × UInt32) (t : Nat) :
    roundVars (sha1Round s (scheduleWord block t, t)) = (roundVars s).round block t := by
  obtain ⟨a, b, c, d, e⟩ := s
  have hword : (scheduleWord block t).toBitVec = Fips180.schedule block t := rfl
  rw [sha1Round, Fips180.Vars.round, Fips180.fn, Fips180.constant]
  dsimp only
  by_cases h20 : t < 20
  · simp [h20, roundVars, toBitVec_rol32_5, toBitVec_rol32_30, hword, Fips180.ch_or]
  by_cases h40 : t < 40
  · simp [h20, h40, roundVars, toBitVec_rol32_5, toBitVec_rol32_30, hword, Fips180.parity]
  by_cases h60 : t < 60
  · simp [h20, h40, h60, roundVars, toBitVec_rol32_5, toBitVec_rol32_30, hword, Fips180.maj_or]
  · simp [h20, h40, h60, roundVars, toBitVec_rol32_5, toBitVec_rol32_30, hword, Fips180.parity]

/-- The words of the context as a hash value. -/
def hashVars (h : List UInt32) : Fips180.Vars := roundVars (h.getD 0 0, h.getD 1 0, h.getD 2 0, h.getD 3 0, h.getD 4 0)

theorem zipIdx_map_range (S : Nat → UInt32) (n : Nat) :
    ((List.range n).map S).zipIdx = (List.range n).map fun t => (S t, t) := by
  apply List.ext_getElem <;> simp

theorem hashVars_transform (h : List UInt32) (block : Bytes) :
    hashVars (sha1Transform h block) = Fips180.compress (hashVars h) block := by
  have hrounds : roundVars ((sha1Words block).zipIdx.foldl sha1Round
      (h.getD 0 0, h.getD 1 0, h.getD 2 0, h.getD 3 0, h.getD 4 0)) =
        (List.range 80).foldl (Fips180.Vars.round block) (hashVars h) := by
    rw [sha1Words_eq, zipIdx_map_range, List.foldl_map, hashVars]
    exact (List.foldl_hom roundVars fun s t => (roundVars_round block s t).symm).symm
  rw [Fips180.compress, ← hrounds]
  simp [hashVars, sha1Transform, roundVars, Fips180.Vars.add]

/-! ## The digest is the standard's -/

theorem lengthField (n : Nat) :
    ((List.range 8).map fun i => ((UInt64.ofNat n * 8) >>> (8 * UInt64.ofNat i)).toUInt8).reverse =
      Fips180.bigEndian 8 (8 * n) := by
  have hbyte (k : Nat) (hk : k < 8) :
      ((UInt64.ofNat n * 8) >>> (8 * UInt64.ofNat k)).toUInt8 = UInt8.ofNat (8 * n / 256 ^ k) := by
    apply UInt8.toNat_inj.mp
    have hshift : (8 * UInt64.ofNat k).toNat % 64 = 8 * k := by
      rw [UInt64.toNat_mul, UInt64.toNat_ofNat']
      simp
      omega
    have hbits : (UInt64.ofNat n * 8).toNat = 8 * n % 2 ^ 64 := by
      rw [UInt64.toNat_mul, UInt64.toNat_ofNat']
      simp
      omega
    rw [UInt64.toNat_toUInt8, UInt64.toNat_shiftRight, hshift, hbits, Nat.shiftRight_eq_div_pow, UInt8.toNat_ofNat']
    obtain rfl | rfl | rfl | rfl | rfl | rfl | rfl | rfl : k = 0 ∨ k = 1 ∨ k = 2 ∨ k = 3 ∨ k = 4 ∨ k = 5 ∨ k = 6 ∨ k = 7 := by
      omega
    all_goals omega
  rw [List.map_congr_left fun k hk => hbyte k (List.mem_range.mp hk)]
  simp [Fips180.bigEndian, List.range_succ]

theorem wordBytes (w : UInt32) :
    [(w >>> 24).toUInt8, (w >>> 16).toUInt8, (w >>> 8).toUInt8, w.toUInt8] = Fips180.bigEndian 4 w.toBitVec.toNat := by
  have hw : w.toBitVec.toNat = w.toNat := rfl
  simp only [Fips180.bigEndian, hw, List.range_succ, List.range_zero, List.nil_append, List.cons_append, List.map_cons, List.map_nil,
    List.cons.injEq]
  refine ⟨?_, ?_, ?_, ?_, trivial⟩ <;> apply UInt8.toNat_inj.mp <;> simp [Nat.shiftRight_eq_div_pow]

theorem length_absorb_one (h : List UInt32) (m : Bytes) :
    (absorb sha1Transform 64 (absorb sha1Transform 64 (h, []) m) [0x80]).2.length = (m.length + 1) % 64 := by
  rw [← absorb_append, length_absorb (by simp), List.length_nil, Nat.zero_add, List.length_append, List.length_singleton]

/-- The bit 1, the zeros and the length field end the last block. -/
theorem absorb_padding (h : List UInt32) (m : Bytes) :
    absorb sha1Transform 64 (absorb sha1Transform 64 (absorb sha1Transform 64 (absorb sha1Transform 64 (h, []) m) [0x80])
      (List.replicate ((120 - (m.length + 1) % 64) % 64) 0)) (Fips180.bigEndian 8 (8 * m.length)) =
        ((blocks 64 (Fips180.pad m)).foldl sha1Transform h, []) := by
  have hzeros : (120 - (m.length + 1) % 64) % 64 = (56 + (64 - (m.length + 1) % 64)) % 64 := by omega
  rw [← absorb_blocks (by decide) h _ (Fips180.length_pad m), Fips180.pad, ← absorb_append, ← absorb_append, ← absorb_append,
    hzeros]
  simp

theorem hashVars_blocks {h : List UInt32} (hinit : hashVars h = Fips180.initialHash) (m : Bytes) :
    (hashVars ((blocks 64 (Fips180.pad m)).foldl sha1Transform h)).bytes = Fips180.sha1 m := by
  rw [Fips180.sha1, ← hinit]
  congr 1
  exact (List.foldl_hom hashVars fun h b => (hashVars_transform h b).symm).symm

theorem bytes_hashVars (h : List UInt32) :
    (List.range 5).flatMap (fun i => Fips180.bigEndian 4 (h.getD i 0).toNat) = (hashVars h).bytes := rfl

theorem digest_of_pair {c : Sha1Buf} {m : Bytes} {h : List UInt32} (hinit : hashVars h = Fips180.initialHash)
    (hpair : c.pair = absorb sha1Transform 64 (h, []) m) (hbytes : c.bytes = UInt64.ofNat m.length) :
    sha1BufFinal c = Fips180.sha1 m := by
  have hused : (c.update [0x80]).used = (m.length + 1) % 64 := by
    rw [← Sha1Buf.length_pair, Sha1Buf.pair_update, hpair, length_absorb_one]
  have hlast : ((((c.update [0x80]).padZeros).update
      ((List.range 8).map fun i => ((c.bytes * 8) >>> (8 * UInt64.ofNat i)).toUInt8).reverse)).pair =
        ((blocks 64 (Fips180.pad m)).foldl sha1Transform h, []) := by
    rw [hbytes, lengthField, Sha1Buf.pair_update, Sha1Buf.pair_padZeros, hused, Sha1Buf.pair_update, hpair, absorb_padding]
  have hstate := congrArg Prod.fst hlast
  dsimp only [Sha1Buf.pair] at hstate
  rw [← hashVars_blocks hinit, ← hstate, sha1BufFinal]
  simp only [wordBytes]
  exact bytes_hashVars _

theorem update_parts (c : Sha1Buf) (parts : List Bytes) :
    (parts.foldl Sha1Buf.update c).pair = absorb sha1Transform 64 c.pair parts.flatten ∧
      (parts.foldl Sha1Buf.update c).bytes = c.bytes + UInt64.ofNat parts.flatten.length := by
  induction parts generalizing c with
  | nil => exact ⟨rfl, (UInt64.add_zero _).symm⟩
  | cons p parts ih =>
    rw [List.foldl_cons, (ih _).1, (ih _).2, List.flatten_cons, Sha1Buf.pair_update, Sha1Buf.bytes_update, absorb_append,
      List.length_append, UInt64.ofNat_add, UInt64.add_assoc]
    exact ⟨rfl, rfl⟩

theorem digest_parts {junk : Bytes} (hjunk : junk.length = 64) (parts : List Bytes) :
    sha1BufFinal (parts.foldl Sha1Buf.update (Sha1Buf.init junk hjunk)) = Fips180.sha1 parts.flatten := by
  obtain ⟨hpair, hbytes⟩ := update_parts (Sha1Buf.init junk hjunk) parts
  exact digest_of_pair rfl hpair (hbytes.trans (UInt64.zero_add _))

theorem hex20_eq (d : Bytes) : hex20 d = Fips180.lowerHex d := by
  have hdigit : ∀ n < 16, hexDigits.getD n 0 = UInt8.ofNat (Nat.digitChar n).toNat := by decide
  rw [hex20, Fips180.lowerHex]
  congr 1
  funext x
  have hx := x.toNat_lt
  rw [hdigit _ (by omega), hdigit _ (by omega)]
  rfl

/-- The key is the standard's digest in lower-case hexadecimal digits, and the
    digest is the same however the input is cut into calls of the update. -/
theorem sha1_standard (junk : Bytes) (hjunk : junk.length = 64) (p : Bytes) :
    kvstoreSha1BytesHex junk hjunk p = Fips180.lowerHex (Fips180.sha1 p) ∧
      ∀ parts : List Bytes, parts.flatten = p →
        sha1BufFinal (parts.foldl Sha1Buf.update (Sha1Buf.init junk hjunk)) =
          sha1BufFinal ((Sha1Buf.init junk hjunk).update p) := by
  have hwhole := digest_parts hjunk [p]
  rw [List.flatten_singleton, List.foldl_cons, List.foldl_nil] at hwhole
  constructor
  · rw [kvstoreSha1BytesHex, hwhole, hex20_eq]
  · intro parts hparts
    rw [digest_parts, hparts, hwhole]

theorem sha1_standard_abc :
    kvstoreSha1BytesHex (List.replicate 64 0) List.length_replicate (utf8 "abc") =
        Fips180.lowerHex (Fips180.sha1 (utf8 "abc")) ∧
      ∀ parts : List Bytes, parts.flatten = utf8 "abc" →
        sha1BufFinal (parts.foldl Sha1Buf.update (Sha1Buf.init (List.replicate 64 0) List.length_replicate)) =
          sha1BufFinal ((Sha1Buf.init (List.replicate 64 0) List.length_replicate).update (utf8 "abc")) :=
  sha1_standard _ _ _

/-! ## One byte at a time -/

theorem sha1Update_eq (c : Sha1Ctx) (p : Bytes) :
    ((sha1Update c p).h, (sha1Update c p).block) = absorb sha1Transform 64 (c.h, c.block) p ∧
      (sha1Update c p).bytes = c.bytes + p.length := by
  induction p generalizing c with
  | nil => exact ⟨rfl, rfl⟩
  | cons x p ih =>
    have hone : ((sha1Byte c x).h, (sha1Byte c x).block) = absorbOne sha1Transform 64 (c.h, c.block) x ∧
        (sha1Byte c x).bytes = c.bytes + 1 := by
      by_cases hfull : (c.block ++ [x]).length = 64
      · simp only [sha1Byte, absorbOne, if_pos hfull, and_self]
      · simp only [sha1Byte, absorbOne, if_neg hfull, and_self]
    obtain ⟨hpair, hbytes⟩ := ih (sha1Byte c x)
    rw [hone.1] at hpair
    rw [hone.2] at hbytes
    refine ⟨hpair, hbytes.trans ?_⟩
    rw [List.length_cons]
    omega

theorem lePut_reverse (k n : Nat) : (lePut k n).reverse = Fips180.bigEndian k n := by
  have hput : lePut k n = (List.range k).map fun i => UInt8.ofNat (n / 256 ^ i) := by
    induction k generalizing n with
    | zero => rfl
    | succ k ih =>
      rw [lePut, ih, List.range_succ_eq_map, List.map_cons, List.map_map, Nat.pow_zero, Nat.div_one]
      simp only [Function.comp_def, Nat.succ_eq_add_one, Nat.pow_succ', Nat.div_div_eq_div_mul]
  rw [hput, Fips180.bigEndian]
  apply List.ext_getElem
  · simp
  · intro i h1 h2
    simp [List.getElem_reverse]

theorem digest_eq (p : Bytes) : sha1Final (sha1Update sha1Init p) = Fips180.sha1 p := by
  obtain ⟨hpair, hbytes⟩ := sha1Update_eq sha1Init p
  have hempty : sha1Init.block = [] := rfl
  rw [hempty] at hpair
  have hone := (sha1Update_eq (sha1Update sha1Init p) [0x80]).1
  have hused : (sha1Update (sha1Update sha1Init p) [0x80]).block.length = (p.length + 1) % 64 := by
    rw [hpair] at hone
    exact (congrArg (fun c => c.2.length) hone).trans (length_absorb_one _ p)
  have hlen : (56 + 64 - (sha1Update (sha1Update sha1Init p) [0x80]).block.length) % 64 = (120 - (p.length + 1) % 64) % 64 := by
    rw [hused]
  have hfield : (lePut 8 ((sha1Update sha1Init p).bytes * 8 % 2 ^ 64)).reverse = Fips180.bigEndian 8 (8 * p.length) := by
    rw [hbytes, sha1Init, Nat.zero_add, show 2 ^ 64 = 256 ^ 8 from rfl, lePut_mod, lePut_reverse, Nat.mul_comm]
  have hstate := (sha1Update_eq (sha1Update (sha1Update (sha1Update sha1Init p) [0x80])
    (List.replicate ((120 - (p.length + 1) % 64) % 64) 0)) (Fips180.bigEndian 8 (8 * p.length))).1
  rw [(sha1Update_eq _ (List.replicate _ _)).1, hone, hpair, absorb_padding] at hstate
  have hwords := congrArg Prod.fst hstate
  dsimp only at hwords
  rw [← hashVars_blocks (h := sha1Init.h) rfl, ← hwords, sha1Final]
  simp only [hlen, hfield, lePut_reverse]
  exact bytes_hashVars _

/-- The key computed byte by byte is the key. -/
theorem sha1BytesHex_eq {junk : Bytes} (hjunk : junk.length = 64) (p : Bytes) :
    sha1BytesHex p = kvstoreSha1BytesHex junk hjunk p := by
  have hwhole := digest_parts hjunk [p]
  rw [List.flatten_singleton, List.foldl_cons, List.foldl_nil] at hwhole
  rw [kvstoreSha1BytesHex, hwhole, sha1BytesHex, digest_eq]

example : Fips180.lowerHex (Fips180.sha1 (utf8 "abc")) = utf8 "a9993e364706816aba3e25717850c26c9cd0d89d" := by
  rw [← digest_eq, ← hex20_eq]
  decide +kernel

end Ds4.Store
