import Ds4.Dist.RouteBlob

/- The records of ds4_distributed.c on the wire: words in network order, the frame
   header, and the activation payloads between the hops.

   What is proved:
     1. `readFull_append` — a reader takes what stands first and leaves the rest.
     2. `unwords_words` — a record is read as it was written.
     3. `readFrameHeader_frame` — so is a frame's header.
     4. `decode_encode` — a payload is decoded as the values that its width leaves.

   Correspondence (C ↔ Lean):
     `dist_read_full`, `dist_mem_read`             ↔ `readFull`
     `dist_write_frame_header`, `dist_read_frame_header` ↔ `frameHeader`, `readFrameHeader`
     `dist_*_to_wire`, `dist_*_from_wire`          ↔ `wireWords`, `unwords` of the record's fields
     `dist_u64_from_halves`, `dist_u64_to_halves`  ↔ `u64FromHalves`, `hi32`, `lo32`
     `dist_activation_bits_valid`, `dist_activation_wire_bytes` ↔ `activationBytes`, `activationWireBytes`
     `dist_write_activation_payload`, `dist_decode_activation_payload` ↔ `encodeActivation`, `decodeActivation` -/
namespace Ds4.Dist.Route
open Ds4 Bytes

/-! ## Reading -/

/-- That many bytes, if a stream or a payload still has them. -/
def readFull (n : Nat) (p : Bytes) : Option (Bytes × Bytes) :=
  if n ≤ p.length then some (p.take n, p.drop n) else none

theorem readFull_append {n : Nat} {a : Bytes} (h : a.length = n) (b : Bytes) : readFull n (a ++ b) = some (a, b) := by
  rw [readFull, if_pos (by rw [List.length_append]; omega), List.take_left' h, List.drop_left' h]

theorem readFull_within {n : Nat} {a : Bytes} (h : n ≤ a.length) (b : Bytes) :
    readFull n (a ++ b) = some (a.take n, a.drop n ++ b) := by
  rw [readFull, if_pos (by rw [List.length_append]; omega), List.take_append_of_le_length h, List.drop_append_of_le_length h]

/-! ## Words -/

def word (v : UInt32) : Bytes := htonl v.toNat

def wireWords (ws : List UInt32) : Bytes := ws.flatMap word

def unwords : Nat → Bytes → List UInt32
  | 0, _ => []
  | n + 1, p => UInt32.ofNat (ntohl p) :: unwords n (p.drop 4)

@[simp] theorem length_word (v : UInt32) : (word v).length = 4 := rfl

@[simp] theorem length_wireWords (ws : List UInt32) : (wireWords ws).length = 4 * ws.length := by
  induction ws with
  | nil => rfl
  | cons w ws ih =>
    rw [wireWords, List.flatMap_cons, List.length_append, ← wireWords, ih, length_word, List.length_cons]
    omega

theorem ntohl_word (v : UInt32) (rest : Bytes) : UInt32.ofNat (ntohl (word v ++ rest)) = v := by
  rw [word, ntohl_htonl v.toNat_lt, UInt32.ofNat_toNat]

theorem unwords_words (ws : List UInt32) (rest : Bytes) : unwords ws.length (wireWords ws ++ rest) = ws := by
  induction ws with
  | nil => rfl
  | cons w ws ih =>
    rw [wireWords, List.flatMap_cons, List.append_assoc, ← wireWords, List.length_cons, unwords, ntohl_word,
      List.drop_left' (length_word w), ih]

theorem unwords_words' {ws : List UInt32} {n : Nat} (h : ws.length = n) : unwords n (wireWords ws) = ws := by
  have hw := unwords_words ws []
  rwa [List.append_nil, h] at hw

def u64FromHalves (hi lo : UInt32) : UInt64 := UInt64.ofNat (hi.toNat * 4294967296 + lo.toNat)
def hi32 (v : UInt64) : UInt32 := UInt32.ofNat (v.toNat / 4294967296)
def lo32 (v : UInt64) : UInt32 := UInt32.ofNat v.toNat

@[simp] theorem u64FromHalves_halves (v : UInt64) : u64FromHalves (hi32 v) (lo32 v) = v := by
  have hlt := v.toNat_lt
  have hval : (hi32 v).toNat * 4294967296 + (lo32 v).toNat = v.toNat := by
    rw [hi32, lo32, UInt32.toNat_ofNat', UInt32.toNat_ofNat']
    omega
  rw [u64FromHalves, hval, UInt64.ofNat_toNat]

/-! ## Frames -/

def distMagic : UInt32 := 0x44533444
def msgWork : UInt32 := 3
def msgResult : UInt32 := 4
/-- `sizeof(ds4_dist_frame_header)`. -/
def headerBytes : Nat := 12

def frameHeader (type bytes : UInt32) : Bytes := wireWords [distMagic, type, bytes]

inductive Header where
  | closed
  | badMagic (magic : UInt32) (rest : Bytes)
  | frame (type bytes : UInt32) (rest : Bytes)

def readFrameHeader (fd : Bytes) : Header :=
  match readFull headerBytes fd with
  | none => .closed
  | some (h, fd) =>
    match unwords 3 h with
    | [magic, type, bytes] => if magic = distMagic then .frame type bytes fd else .badMagic magic fd
    | _ => .closed

theorem readFrameHeader_frame (type bytes : UInt32) (rest : Bytes) :
    readFrameHeader (frameHeader type bytes ++ rest) = .frame type bytes rest := by
  have hwords : unwords 3 (frameHeader type bytes) = [distMagic, type, bytes] := unwords_words' rfl
  rw [readFrameHeader, readFull_append (by rfl)]
  dsimp only
  rw [hwords]
  exact if_pos rfl

/-! ## Activations -/

/-- The conversions of one value; what they do to it is the activation codec's subject. -/
structure Kernels where
  f32ToF16 : UInt32 → UInt16
  f16ToF32 : UInt16 → UInt32
  f32ToF8 : UInt32 → UInt8
  f8ToF32 : UInt8 → UInt32

/-- The floats of a buffer, by their bits, low byte first. -/
def floats : Bytes → List UInt32
  | a :: b :: c :: d :: p => UInt32.ofNat (a.toNat + 256 * (b.toNat + 256 * (c.toNat + 256 * d.toNat))) :: floats p
  | _ => []

def floatBytes (f : UInt32) : Bytes :=
  [UInt8.ofNat f.toNat, UInt8.ofNat (f.toNat / 256), UInt8.ofNat (f.toNat / 65536), UInt8.ofNat (f.toNat / 16777216)]

def halves : Bytes → List UInt16
  | a :: b :: p => UInt16.ofNat (a.toNat + 256 * b.toNat) :: halves p
  | _ => []

def halfBytes (h : UInt16) : Bytes := [UInt8.ofNat h.toNat, UInt8.ofNat (h.toNat / 256)]

/-- Bytes of one value on the wire; zero bits stand for the default of 32. -/
def activationBytes (bits : UInt32) : Option Nat :=
  if bits = 0 ∨ bits = 32 then some 4 else if bits = 16 then some 2 else if bits = 8 then some 1 else none

def activationWireBytes (bits : UInt32) (values : Nat) : Option Nat :=
  match activationBytes bits with
  | none => none
  | some n => if 4294967295 < values * n then none else some (values * n)

def activationValues (bits : UInt32) (bytes : Nat) : Option Nat :=
  match activationBytes bits with
  | none => none
  | some n => if bytes % n ≠ 0 then none else some (bytes / n)

/-- The first `values` floats of the buffer `src`, as they are sent. -/
def encodeActivation (k : Kernels) (src : Bytes) (values : Nat) (bits : UInt32) : Bytes :=
  if bits = 0 ∨ bits = 32 then src.take (4 * values)
  else if bits = 16 then (((floats src).take values).map k.f32ToF16).flatMap halfBytes
  else ((floats src).take values).map k.f32ToF8

def decodeActivation (k : Kernels) (wire : Bytes) (bits : UInt32) : Except String Bytes :=
  match activationBytes bits with
  | none => .error ("invalid distributed activation width: " ++ toString bits.toNat ++ " bits")
  | some n =>
    if wire.length % n ≠ 0 then .error "invalid distributed activation payload size"
    else if 4294967295 < wire.length / n * 4 then .error "distributed activation payload is too large"
    else if bits = 0 ∨ bits = 32 then .ok wire
    else if bits = 16 then .ok ((halves wire).flatMap fun h => floatBytes (k.f16ToF32 h))
    else .ok (wire.flatMap fun b => floatBytes (k.f8ToF32 b))

/-- What the values of a buffer are behind a hop: themselves, or what the narrower code leaves. -/
def transcode (k : Kernels) (src : Bytes) (values : Nat) (bits : UInt32) : Bytes :=
  if bits = 0 ∨ bits = 32 then src.take (4 * values)
  else if bits = 16 then ((floats src).take values).flatMap fun f => floatBytes (k.f16ToF32 (k.f32ToF16 f))
  else ((floats src).take values).flatMap fun f => floatBytes (k.f8ToF32 (k.f32ToF8 f))

theorem halves_halfBytes (h : UInt16) (rest : Bytes) : halves (halfBytes h ++ rest) = h :: halves rest := by
  have hlt := h.toNat_lt
  simp only [halfBytes, List.cons_append, List.nil_append, halves, UInt8.toNat_ofNat']
  congr 1
  have hval : h.toNat % 2 ^ 8 + 256 * (h.toNat / 256 % 2 ^ 8) = h.toNat := by omega
  rw [hval, UInt16.ofNat_toNat]

theorem halves_flatMap (hs : List UInt16) : halves (hs.flatMap halfBytes) = hs := by
  induction hs with
  | nil => rfl
  | cons h hs ih => rw [List.flatMap_cons, halves_halfBytes, ih]

theorem length_halves (hs : List UInt16) : (hs.flatMap halfBytes).length = hs.length * 2 := by
  induction hs with
  | nil => rfl
  | cons h hs ih =>
    rw [List.flatMap_cons, List.length_append, ih, List.length_cons, halfBytes]
    simp only [List.length_cons, List.length_nil]
    omega

theorem length_floats : ∀ src : Bytes, (floats src).length = src.length / 4
  | a :: b :: c :: d :: p => by
    rw [floats, List.length_cons, length_floats p]
    simp only [List.length_cons]
    omega
  | [] => rfl
  | [_] => by simp [floats]
  | [_, _] => by simp [floats]
  | [_, _, _] => by simp [floats]

theorem activationBytes_cases {bits : UInt32} {n : Nat} (h : activationBytes bits = some n) :
    n = 4 ∧ (bits = 0 ∨ bits = 32) ∨ n = 2 ∧ bits = 16 ∨ n = 1 ∧ bits = 8 := by
  rw [activationBytes] at h
  split_ifs at h with h32 h16 h8
  · exact .inl ⟨(Option.some.inj h).symm, h32⟩
  · exact .inr (.inl ⟨(Option.some.inj h).symm, h16⟩)
  · exact .inr (.inr ⟨(Option.some.inj h).symm, h8⟩)

theorem length_encode {k : Kernels} {src : Bytes} {values n : Nat} {bits : UInt32} (hn : activationBytes bits = some n)
    (hsrc : 4 * values ≤ src.length) : (encodeActivation k src values bits).length = values * n := by
  have hfloats := length_floats src
  rw [encodeActivation]
  rcases activationBytes_cases hn with ⟨rfl, h⟩ | ⟨rfl, rfl⟩ | ⟨rfl, rfl⟩
  · rw [if_pos h, List.length_take]
    omega
  · rw [if_neg (by decide), if_pos rfl, length_halves, List.length_map, List.length_take]
    omega
  · rw [if_neg (by decide), if_neg (by decide), List.length_map, List.length_take]
    omega

theorem decode_encode (k : Kernels) {src : Bytes} {values n : Nat} {bits : UInt32} (hn : activationBytes bits = some n)
    (hsrc : 4 * values ≤ src.length) (hmax : values * 4 ≤ 4294967295) :
    decodeActivation k (encodeActivation k src values bits) bits = .ok (transcode k src values bits) := by
  have hlen := @length_encode k _ _ _ _ hn hsrc
  have hpos : 0 < n := by
    rcases activationBytes_cases hn with ⟨rfl, -⟩ | ⟨rfl, -⟩ | ⟨rfl, -⟩ <;> decide
  rw [decodeActivation, hn]
  dsimp only
  rw [hlen, if_neg (by rw [Nat.mul_mod_left]; exact not_not_intro rfl), Nat.mul_div_left _ hpos, if_neg (by omega), encodeActivation,
    transcode]
  rcases activationBytes_cases hn with ⟨rfl, h⟩ | ⟨rfl, rfl⟩ | ⟨rfl, rfl⟩
  · rw [if_pos h, if_pos h, if_pos h]
  · rw [if_neg (by decide), if_pos rfl, if_neg (by decide), if_pos rfl, if_neg (by decide), if_pos rfl, halves_flatMap,
      List.flatMap_map]
  · rw [if_neg (by decide), if_neg (by decide), if_neg (by decide), if_neg (by decide), if_neg (by decide), if_neg (by decide),
      List.flatMap_map]

end Ds4.Dist.Route
