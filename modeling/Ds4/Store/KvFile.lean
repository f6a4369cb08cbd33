import Mathlib.Algebra.Group.Nat.Defs
import Ds4.ByteStore

/- The files of the disk KV store of ds4_kvstore.c: their names, which are the
   SHA-1 of a rendered text prefix, and the fixed header in front of the text,
   the session payload and an optional trailer.

   PROVED here: the name of a text is one the directory scan accepts
   (`shaHexName_pathForSha`), and the header written is the header read
   (`readHeader_fill`).

   Correspondence (C ↔ Lean):
     `ds4_kvstore_le_put32`, `kv_le_put64`   ↔ `lePut 4`, `lePut 8`
     `ds4_kvstore_le_get32`, `kv_le_get64`   ↔ `leGet`
     `sha1_transform`, `sha1_update`, `sha1_final` ↔ `sha1Transform`, `sha1Update`, `sha1Final`
     `hex20`, `ds4_kvstore_sha1_bytes_hex`   ↔ `hex20`, `sha1BytesHex`
     `ds4_kvstore_sha_hex_name`, `ds4_kvstore_path_for_sha` ↔ `shaHexName`, `pathForSha`
     `ds4_kvstore_fill_header`, `ds4_kvstore_read_header`   ↔ `fillHeader`, `readHeader`
     `ds4_kvstore_read_entry_file`           ↔ `readEntryFile`
   A path is the file's name in the store's one directory. -/
namespace Ds4.Store
open Ds4 Bytes

/-! ## Little-endian fields -/

def lePut : Nat → Nat → Bytes
  | 0, _ => []
  | n + 1, v => UInt8.ofNat v :: lePut n (v / 256)

def leGet : Bytes → Nat
  | [] => 0
  | b :: r => b.toNat + leGet r * 256

@[simp] theorem length_lePut (n v : Nat) : (lePut n v).length = n := by
  induction n generalizing v with
  | zero => rfl
  | succ n ih => rw [lePut, List.length_cons, ih]

theorem leGet_lePut (n v : Nat) : leGet (lePut n v) = v % 256 ^ n := by
  induction n generalizing v with
  | zero => simp [lePut, leGet, Nat.mod_one]
  | succ n ih =>
    have hbyte : (UInt8.ofNat v).toNat = v % 256 := UInt8.toNat_ofNat'
    rw [lePut, leGet, ih, hbyte, Nat.pow_succ, Nat.mul_comm (256 ^ n) 256, Nat.mod_mul]
    omega

theorem leGet_lt (b : Bytes) : leGet b < 256 ^ b.length := by
  induction b with
  | nil => simp [leGet]
  | cons c r ih =>
    have := c.toNat_lt
    rw [leGet, List.length_cons, Nat.pow_succ]
    omega

theorem lePut_leGet (b : Bytes) : lePut b.length (leGet b) = b := by
  induction b with
  | nil => rfl
  | cons c r ih =>
    have hc := c.toNat_lt
    have hbyte : UInt8.ofNat (c.toNat + leGet r * 256) = c := by
      rw [← UInt8.toNat_inj, UInt8.toNat_ofNat']
      omega
    have hrest : (c.toNat + leGet r * 256) / 256 = leGet r := by omega
    rw [leGet, List.length_cons, lePut, hbyte, hrest, ih]

theorem lePut_mod (n v : Nat) : lePut n (v % 256 ^ n) = lePut n v := by
  have h := lePut_leGet (lePut n v)
  rwa [length_lePut, leGet_lePut] at h

/-! ## SHA-1 -/

structure Sha1Ctx where
  h : List UInt32
  bytes : Nat
  block : Bytes

def rol32 (v n : UInt32) : UInt32 := (v <<< n) ||| (v >>> (32 - n))

/-- The first 16 words of the schedule, and from them the others, newest first. -/
def sha1Words (block : Bytes) : List UInt32 :=
  let w := (List.range 16).map fun i =>
    ((block.getD (i * 4) 0).toUInt32 <<< 24) ||| ((block.getD (i * 4 + 1) 0).toUInt32 <<< 16) |||
      ((block.getD (i * 4 + 2) 0).toUInt32 <<< 8) ||| (block.getD (i * 4 + 3) 0).toUInt32
  ((List.range 64).foldl (fun ws _ =>
    rol32 (ws.getD 2 0 ^^^ ws.getD 7 0 ^^^ ws.getD 13 0 ^^^ ws.getD 15 0) 1 :: ws) w.reverse).reverse

def sha1Round (s : UInt32 × UInt32 × UInt32 × UInt32 × UInt32) (iw : UInt32 × Nat) :
    UInt32 × UInt32 × UInt32 × UInt32 × UInt32 :=
  let (a, b, cc, d, e) := s
  let (w, i) := iw
  let (f, k) :=
    if i < 20 then ((b &&& cc) ||| (~~~b &&& d), (0x5a827999 : UInt32))
    else if i < 40 then (b ^^^ cc ^^^ d, 0x6ed9eba1)
    else if i < 60 then ((b &&& cc) ||| (b &&& d) ||| (cc &&& d), 0x8f1bbcdc)
    else (b ^^^ cc ^^^ d, 0xca62c1d6)
  (rol32 a 5 + f + e + k + w, a, rol32 b 30, cc, d)

def sha1Transform (h : List UInt32) (block : Bytes) : List UInt32 :=
  let (a, b, cc, d, e) := (sha1Words block).zipIdx.foldl sha1Round
    (h.getD 0 0, h.getD 1 0, h.getD 2 0, h.getD 3 0, h.getD 4 0)
  [h.getD 0 0 + a, h.getD 1 0 + b, h.getD 2 0 + cc, h.getD 3 0 + d, h.getD 4 0 + e]

def sha1Init : Sha1Ctx :=
  ⟨[0x67452301, 0xefcdab89, 0x98badcfe, 0x10325476, 0xc3d2e1f0], 0, []⟩

/-- One byte into the block, and the block into the state when it is full. -/
def sha1Byte (c : Sha1Ctx) (x : UInt8) : Sha1Ctx :=
  let block := c.block ++ [x]
  if block.length = 64 then ⟨sha1Transform c.h block, c.bytes + 1, []⟩
  else ⟨c.h, c.bytes + 1, block⟩

def sha1Update (c : Sha1Ctx) (p : Bytes) : Sha1Ctx := p.foldl sha1Byte c

def sha1Final (c : Sha1Ctx) : Bytes :=
  let bits := c.bytes * 8 % 2 ^ 64
  let c := sha1Update c [0x80]
  -- as many zeros as bring the block to 56 bytes
  let c := sha1Update c (List.replicate ((56 + 64 - c.block.length) % 64) 0)
  let c := sha1Update c (lePut 8 bits).reverse
  (List.range 5).flatMap fun i => (lePut 4 (c.h.getD i 0).toNat).reverse

def hexDigits : Bytes := utf8 "0123456789abcdef"

def hex20 (digest : Bytes) : Bytes :=
  digest.flatMap fun x => [hexDigits.getD (x.toNat / 16) 0, hexDigits.getD (x.toNat % 16) 0]

def sha1BytesHex (p : Bytes) : Bytes := hex20 (sha1Final (sha1Update sha1Init p))

/-! ## File names -/

def isxdigit (c : UInt8) : Bool := (48 ≤ c && c ≤ 57) || (65 ≤ c && c ≤ 70) || (97 ≤ c && c ≤ 102)

/-- The hash a directory entry is named by, if it is a file of the store. -/
def shaHexName (name : Bytes) : Option Bytes :=
  if name.length ≠ 43 ∨ name.drop 40 ≠ utf8 ".kv" then none
  else if (name.take 40).all isxdigit then some ((name.take 40).map toLower)
  else none

def pathForSha (sha : Bytes) : Bytes := sha ++ utf8 ".kv"

theorem length_sha1Final (c : Sha1Ctx) : (sha1Final c).length = 20 := by
  simp [sha1Final, List.length_flatMap]

theorem length_hex20 (d : Bytes) : (hex20 d).length = 2 * d.length := by
  simp only [hex20, List.length_flatMap]
  induction d with
  | nil => rfl
  | cons x d ih =>
    rw [List.map_cons, List.sum_cons, ih, List.length_cons]
    simp
    omega

@[simp] theorem length_sha1BytesHex (p : Bytes) : (sha1BytesHex p).length = 40 := by
  rw [sha1BytesHex, length_hex20, length_sha1Final]

theorem hexDigits_lower (n : Nat) (h : n < 16) :
    isxdigit (hexDigits.getD n 0) = true ∧ toLower (hexDigits.getD n 0) = hexDigits.getD n 0 := by
  revert n
  decide +kernel

/-- Every byte of a hash is a lower-case hexadecimal digit. -/
theorem sha1BytesHex_lower (p : Bytes) {c : UInt8} (h : c ∈ sha1BytesHex p) : isxdigit c = true ∧ toLower c = c := by
  rw [sha1BytesHex, hex20, List.mem_flatMap] at h
  obtain ⟨x, -, hc⟩ := h
  have hx := x.toNat_lt
  rcases List.mem_cons.mp hc with rfl | hc
  · exact hexDigits_lower _ (by omega)
  · rw [List.mem_singleton] at hc
    rw [hc]
    exact hexDigits_lower _ (by omega)

theorem shaHexName_pathForSha (p : Bytes) : shaHexName (pathForSha (sha1BytesHex p)) = some (sha1BytesHex p) := by
  have hlen := length_sha1BytesHex p
  have htake : (pathForSha (sha1BytesHex p)).take 40 = sha1BytesHex p := List.take_left' hlen
  have hdrop : (pathForSha (sha1BytesHex p)).drop 40 = utf8 ".kv" := List.drop_left' hlen
  have hkv : (utf8 ".kv").length = 3 := by decide +kernel
  rw [shaHexName, htake, hdrop, if_neg (by simp [pathForSha, hlen, hkv]), if_pos]
  · rw [List.map_congr_left (fun c hc => (sha1BytesHex_lower p hc).2), List.map_id']
  · exact List.all_eq_true.mpr fun c hc => (sha1BytesHex_lower p hc).1

/-- The scan accepts a name exactly when it is a hash name up to the case of its digits. -/
theorem shaHexName_eq {name sha : Bytes} (h : shaHexName name = some sha) :
    name = name.take 40 ++ utf8 ".kv" ∧ (name.take 40).map toLower = sha := by
  rw [shaHexName] at h
  split_ifs at h with h1 h2
  simp only [not_or, not_not] at h1
  constructor
  · rw [← h1.2, List.take_append_drop]
  · exact Option.some.inj h

/-! ## Headers -/

/-- What the header of a checkpoint file says. -/
structure Header where
  quantBits : Nat
  modelId : Nat
  reason : Nat
  tokens : Nat
  hits : Nat
  ctxSize : Nat
  extFlags : Nat
  createdAt : Nat
  lastUsed : Nat
  payloadBytes : Nat
  textBytes : Nat
  deriving DecidableEq, Repr

/-- `DS4_KVSTORE_FIXED_HEADER`. -/
def fixedHeader : Nat := 48

def reasonUnknown : Nat := 0
def reasonCold : Nat := 1
def reasonContinued : Nat := 2
def reasonEvict : Nat := 3
def reasonShutdown : Nat := 4
def reasonAgentSystem : Nat := 5
def reasonAgentSession : Nat := 6

/-- `KV_CACHE_VERSION`, `KV_CACHE_PAYLOAD_ABI`. -/
def kvCacheVersion : Nat := 1
def kvCachePayloadAbi : Nat := 4

def fillHeader (modelId quantBits reason extFlags tokens hits ctxSize createdAt lastUsed payloadBytes : Nat) : Bytes :=
  utf8 "KVC" ++ (lePut 1 kvCacheVersion ++ (lePut 1 quantBits ++ (lePut 1 reason ++ (lePut 1 extFlags ++
    (lePut 1 modelId ++ (lePut 4 tokens ++ (lePut 4 hits ++ (lePut 4 ctxSize ++
    (lePut 4 kvCachePayloadAbi ++ (lePut 8 createdAt ++ (lePut 8 lastUsed ++ lePut 8 payloadBytes)))))))))))

/-- A field of the file. -/
def field (data : Bytes) (off n : Nat) : Nat := leGet (span data off n)

def readHeader (data : Bytes) : Option Header :=
  if data.length < fixedHeader then none
  else if span data 0 3 ≠ utf8 "KVC" ∨ field data 3 1 ≠ kvCacheVersion then none
  else if field data 20 1 ≠ kvCachePayloadAbi then none
  else if data.length < fixedHeader + 4 then none
  else
    let e : Header :=
      { quantBits := field data 4 1
        reason := if field data 5 1 ≤ reasonAgentSession then field data 5 1 else reasonUnknown
        extFlags := field data 6 1
        modelId := field data 7 1
        tokens := field data 8 4
        hits := field data 12 4
        ctxSize := field data 16 4
        createdAt := field data 24 8
        lastUsed := field data 32 8
        payloadBytes := field data 40 8
        textBytes := field data 48 4 }
    if e.tokens ≠ 0 ∧ (e.quantBits = 2 ∨ e.quantBits = 4) then some e else none

structure Entry extends Header where
  sha : Bytes
  path : Bytes
  fileSize : Nat
  deriving DecidableEq, Repr

def readEntryFile (path sha data : Bytes) : Option Entry :=
  if data.length < fixedHeader + 4 then none
  else match readHeader data with
    | none => none
    | some e =>
      if 2 ^ 64 - 1 - (fixedHeader + 4) < e.textBytes ∨
          2 ^ 64 - 1 - (fixedHeader + 4) - e.textBytes < e.payloadBytes then none
      else if data.length < fixedHeader + 4 + e.textBytes + e.payloadBytes then none
      else some { e with sha, path, fileSize := data.length }

theorem readEntryFile_eq {path sha data : Bytes} {e : Entry} (h : readEntryFile path sha data = some e) :
    readHeader data = some e.toHeader ∧ e.sha = sha ∧ e.path = path ∧ e.fileSize = data.length ∧
      fixedHeader + 4 + e.textBytes + e.payloadBytes ≤ data.length := by
  rw [readEntryFile] at h
  split_ifs at h with hlen
  cases hh : readHeader data with
  | none => simp [hh] at h
  | some hd =>
    rw [hh] at h
    dsimp only at h
    split_ifs at h with h1 h2
    obtain rfl := Option.some.inj h
    exact ⟨rfl, rfl, rfl, rfl, Nat.not_lt.mp h2⟩

/-- A header that is read and a file long enough for what it says make an entry. -/
theorem readEntryFile_of_header {path sha data : Bytes} {hd : Header} (h : readHeader data = some hd)
    (hlen : fixedHeader + 4 + hd.textBytes + hd.payloadBytes ≤ data.length)
    (hmax : fixedHeader + 4 + hd.textBytes + hd.payloadBytes < 2 ^ 64) :
    readEntryFile path sha data = some { hd with sha, path, fileSize := data.length } := by
  rw [readEntryFile, if_neg (by omega), h]
  dsimp only
  rw [if_neg (by omega), if_neg (by omega)]

/-! ## The header written is the header read -/

theorem span_append_left {a b : Bytes} {n : Nat} (h : a.length = n) : span (a ++ b) 0 n = a := by
  rw [span, List.drop_zero, List.take_left' h]

theorem span_append_right {a b : Bytes} {off n : Nat} (h : a.length ≤ off) : span (a ++ b) off n = span b (off - a.length) n := by
  rw [span, span, List.drop_append, List.drop_of_length_le h, List.nil_append]

theorem length_kvc : (utf8 "KVC").length = 3 := by decide +kernel

section
variable {modelId quantBits reason extFlags tokens hits ctxSize createdAt lastUsed payloadBytes : Nat}

@[simp] theorem length_fillHeader :
    (fillHeader modelId quantBits reason extFlags tokens hits ctxSize createdAt lastUsed payloadBytes).length =
      fixedHeader := by
  simp [fillHeader, length_kvc, fixedHeader]

/-- Where the fields of a written header stand. -/
theorem span_fillHeader {d rest : Bytes}
    (hd : d = fillHeader modelId quantBits reason extFlags tokens hits ctxSize createdAt lastUsed payloadBytes ++ rest) :
    (span d 0 3 = utf8 "KVC" ∧ span d 3 1 = lePut 1 kvCacheVersion ∧ span d 4 1 = lePut 1 quantBits ∧
      span d 5 1 = lePut 1 reason ∧ span d 6 1 = lePut 1 extFlags ∧ span d 7 1 = lePut 1 modelId) ∧
    (span d 8 4 = lePut 4 tokens ∧ span d 12 4 = lePut 4 hits ∧ span d 16 4 = lePut 4 ctxSize ∧
      span d 20 1 = lePut 1 kvCachePayloadAbi) ∧
    span d 24 8 = lePut 8 createdAt ∧ span d 32 8 = lePut 8 lastUsed ∧ span d 40 8 = lePut 8 payloadBytes ∧
      span d 48 4 = rest.take 4 := by
  have habi : lePut 4 kvCachePayloadAbi = lePut 1 kvCachePayloadAbi ++ lePut 3 0 := by decide +kernel
  have hrest : span rest 0 4 = rest.take 4 := by rw [span, List.drop_zero]
  rw [hd, fillHeader, habi]
  simp (disch := simp [length_kvc]) [span_append_right, span_append_left, length_kvc, hrest]

/-- Each field comes back modulo its width, and the text length is the next four bytes. -/
theorem readHeader_fill {rest : Bytes} (hrest : 4 ≤ rest.length) (htok : tokens % 2 ^ 32 ≠ 0)
    (hq : quantBits = 2 ∨ quantBits = 4) (hr : reason ≤ reasonAgentSession) :
    readHeader (fillHeader modelId quantBits reason extFlags tokens hits ctxSize createdAt lastUsed payloadBytes ++ rest) =
      some { quantBits, reason, modelId := modelId % 256, tokens := tokens % 2 ^ 32, hits := hits % 2 ^ 32
             ctxSize := ctxSize % 2 ^ 32, extFlags := extFlags % 256, createdAt := createdAt % 2 ^ 64
             lastUsed := lastUsed % 2 ^ 64, payloadBytes := payloadBytes % 2 ^ 64, textBytes := leGet (rest.take 4) } := by
  have hlen : (fillHeader modelId quantBits reason extFlags tokens hits ctxSize createdAt lastUsed payloadBytes ++
      rest).length = 48 + rest.length := by
    rw [List.length_append, length_fillHeader, fixedHeader]
  obtain ⟨⟨hk, hv, hqb, hre, hx, hm⟩, ⟨ht, hh, hc, ha⟩, hca, hlu, hp, htb⟩ := span_fillHeader
    (d := fillHeader modelId quantBits reason extFlags tokens hits ctxSize createdAt lastUsed payloadBytes ++ rest) rfl
  have hq' : quantBits % 256 = quantBits := by omega
  have hr' : reason % 256 = reason := Nat.mod_eq_of_lt (by rw [reasonAgentSession] at hr; omega)
  rw [readHeader, if_neg (by rw [hlen, fixedHeader]; omega)]
  simp only [field, hk, hv, hqb, hre, hx, hm, ht, hh, hc, ha, hca, hlu, hp, htb, leGet_lePut]
  rw [if_neg (by simp [kvCacheVersion]), if_neg (by simp [kvCachePayloadAbi]), if_neg (by rw [hlen, fixedHeader]; omega)]
  simp [hq', hr', hr, hq]
  simpa using htok
end

end Ds4.Store
