import Mathlib.Algebra.Group.Nat.Defs
import Ds4.Bytes

/- The WebSocket client of ds4_web.c, over which the agent talks to the browser.

   Correspondence (C ↔ Lean):
     `cdp_ws`                ↔ `CdpWs`
     `web_read_exact`        ↔ `webReadExact`
     `web_write_all`         ↔ `CdpWs.webWriteAll`
     `web_random_bytes`      ↔ `CdpWs.mask`, a draw for every frame that is sent
     `web_ws_send_text`      ↔ `webWsSendText`
     `web_ws_send_pong`      ↔ `webWsSendPong`
     `web_ws_read_message`   ↔ `webWsReadMessage`, its header `webWsReadHeader`
   The connection enters as the bytes that come in before the deadlines and what a read
   reports that gets no more of them (a timeout, a cancel or a broken connection).

   What is proved: whatever frames the browser sends, fragments, pings and other control
   frames between them, masked or not and with any of the three spellings of a length,
   the reads give the messages they make and every ping is answered
   (`ws_reads_exact`). What the client sends is such a frame (`sendText_wire`). -/
namespace Ds4.Web
open Ds4 Bytes

/-! ## Connection -/

abbrev Mask := Fin 4 → UInt8

structure CdpWs where
  /-- The bytes that come in. -/
  inp : Bytes
  /-- The error of a read that gets too few. -/
  readErr : Bytes
  /-- The error of a write, or none. -/
  writeErr : Option Bytes
  mask : Nat → Mask
  draws : Nat
  sent : Bytes
  nextId : Nat

def maxResultBytes : Nat := 1048576

def webReadExact (n : Nat) (inp : Bytes) : Option (Bytes × Bytes) :=
  if n ≤ inp.length then some (inp.take n, inp.drop n) else none

def CdpWs.webWriteAll (ws : CdpWs) (s : Bytes) : CdpWs :=
  if ws.writeErr.isNone then { ws with sent := ws.sent ++ s } else ws

/-- A read that fails has taken what was there. -/
def CdpWs.drained (ws : CdpWs) : CdpWs := { ws with inp := [] }

/-- The loops over the payload: `payload[i] ^ mask[i & 3]`. -/
def xorMask (m : Mask) (s : Bytes) : Bytes := s.mapIdx fun i c => c ^^^ m ⟨i % 4, Nat.mod_lt i (by decide)⟩

/-- The low `k` bytes of a number, the highest first. -/
def beBytes : Nat → Nat → Bytes
  | 0, _ => []
  | k + 1, n => beBytes k (n / 256) ++ [UInt8.ofNat n]

def beNat (s : Bytes) : Nat := s.foldl (fun v b => v * 256 + b.toNat) 0

/-! ## Sending -/

def webWsSendText (ws : CdpWs) (text : Bytes) : Option Bytes × CdpWs :=
  let text := cstr text
  let len := text.length
  let mask := ws.mask ws.draws
  let hdr : Bytes :=
    0x81 ::
      (if len < 126 then [0x80 ||| UInt8.ofNat len]
      else if len ≤ 0xffff then (0x80 ||| 126) :: beBytes 2 len
      else (0x80 ||| 127) :: beBytes 8 len)
  let ws := { ws with draws := ws.draws + 1 }
  (ws.writeErr.map fun e => utf8 "websocket write failed: " ++ e,
    ws.webWriteAll (hdr ++ List.ofFn mask ++ xorMask mask text))

/-- The result of the write is not looked at. -/
def webWsSendPong (ws : CdpWs) (payload : Bytes) : CdpWs :=
  let payload := payload.take 125
  let mask := ws.mask ws.draws
  let ws := { ws with draws := ws.draws + 1 }
  ws.webWriteAll ([0x8a, 0x80 ||| UInt8.ofNat payload.length] ++ List.ofFn mask ++ xorMask mask payload)

/-! ## Reading -/

structure WsHeader where
  fin : Bool
  opcode : UInt8
  mask : Option Mask
  len : Nat

def maskOf (x : Bytes) : Mask := fun i => x.getD i 0

/-- The length that the second byte announces. -/
def webWsReadLen (h1 : UInt8) (inp : Bytes) : Option (Nat × Bytes) :=
  if h1 &&& 0x7f = 126 then (webReadExact 2 inp).map fun r => (beNat r.1, r.2)
  else if h1 &&& 0x7f = 127 then (webReadExact 8 inp).map fun r => (beNat r.1, r.2)
  else some ((h1 &&& 0x7f).toNat, inp)

def webWsReadMask (h1 : UInt8) (inp : Bytes) : Option (Option Mask × Bytes) :=
  if h1 &&& 0x80 ≠ 0 then (webReadExact 4 inp).map fun r => (some (maskOf r.1), r.2)
  else some (none, inp)

def webWsReadHeader (inp : Bytes) : Option (WsHeader × Bytes) := do
  let (h, inp) ← webReadExact 2 inp
  let (len, inp) ← webWsReadLen (h.getD 1 0) inp
  let (mask, inp) ← webWsReadMask (h.getD 1 0) inp
  some (⟨h.getD 0 0 &&& 0x80 ≠ 0, h.getD 0 0 &&& 0x0f, mask, len⟩, inp)

/-- The loop over the frames with the text so far, `fuel` frames at most. -/
def webWsReadLoop : Nat → Bytes → CdpWs → Except Bytes Bytes × CdpWs
  | 0, _, ws => (.error ws.readErr, ws.drained)
  | fuel + 1, msg, ws =>
    match webWsReadHeader ws.inp with
    | none => (.error ws.readErr, ws.drained)
    | some (h, inp) =>
      if h.len > maxResultBytes * 4 then (.error (utf8 "websocket message too large"), { ws with inp := inp })
      else
        match webReadExact h.len inp with
        | none => (.error ws.readErr, ws.drained)
        | some (payload, inp) =>
          let ws := { ws with inp := inp }
          let payload := match h.mask with
            | some m => xorMask m payload
            | none => payload
          if h.opcode = 0x8 then (.error (utf8 "websocket closed"), ws)
          else if h.opcode = 0x9 then webWsReadLoop fuel msg (webWsSendPong ws payload)
          else if h.opcode = 0x1 ∨ h.opcode = 0x0 then
            if h.fin then (.ok (msg ++ payload), ws) else webWsReadLoop fuel (msg ++ payload) ws
          else webWsReadLoop fuel msg ws

/-- A frame has two bytes or more, so there are no more frames than bytes. -/
def webWsReadMessage (ws : CdpWs) : Except Bytes Bytes × CdpWs := webWsReadLoop (ws.inp.length + 1) [] ws

/-! ## Frames -/

/-- The three spellings of a length. -/
inductive LengthForm where
  | byte | word | long

structure WsFrame where
  fin : Bool
  rsv : BitVec 3
  opcode : BitVec 4
  mask : Option Mask
  payload : Bytes
  form : LengthForm

def LengthForm.code (n : Nat) : LengthForm → Nat
  | .byte => n
  | .word => 126
  | .long => 127

def LengthForm.bytes (n : Nat) : LengthForm → Bytes
  | .byte => []
  | .word => beBytes 2 n
  | .long => beBytes 8 n

def LengthForm.Fits (n : Nat) : LengthForm → Prop
  | .byte => n < 126
  | .word => n < 2 ^ 16
  | .long => n < 2 ^ 64

instance (n : Nat) : (form : LengthForm) → Decidable (form.Fits n)
  | .byte => inferInstanceAs (Decidable (n < 126))
  | .word => inferInstanceAs (Decidable (n < 2 ^ 16))
  | .long => inferInstanceAs (Decidable (n < 2 ^ 64))

def WsFrame.Fits (f : WsFrame) : Prop := f.form.Fits f.payload.length

instance (f : WsFrame) : Decidable f.Fits := inferInstanceAs (Decidable (f.form.Fits f.payload.length))

def masked (m : Option Mask) (s : Bytes) : Bytes :=
  match m with
  | some m => xorMask m s
  | none => s

def maskBytes : Option Mask → Bytes
  | some m => List.ofFn m
  | none => []

/-- The bytes of a frame. -/
def WsFrame.wire (f : WsFrame) : Bytes :=
  UInt8.ofNat (f.fin.toNat * 128 + f.rsv.toNat * 16 + f.opcode.toNat) ::
    UInt8.ofNat (f.mask.isSome.toNat * 128 + f.form.code f.payload.length) ::
      (f.form.bytes f.payload.length ++ maskBytes f.mask ++ masked f.mask f.payload)

@[simp] theorem length_xorMask (m : Mask) (s : Bytes) : (xorMask m s).length = s.length := List.length_mapIdx

@[simp] theorem xorMask_xorMask (m : Mask) (s : Bytes) : xorMask m (xorMask m s) = s := by
  refine List.ext_getElem (by simp) fun i h₁ h₂ => ?_
  simp [xorMask, UInt8.xor_assoc]

@[simp] theorem length_masked (m : Option Mask) (s : Bytes) : (masked m s).length = s.length := by
  cases m with
  | none => rfl
  | some m => exact length_xorMask m s

@[simp] theorem masked_masked (m : Option Mask) (s : Bytes) : masked m (masked m s) = s := by
  cases m with
  | none => rfl
  | some m => exact xorMask_xorMask m s

@[simp] theorem length_beBytes (k n : Nat) : (beBytes k n).length = k := by
  induction k generalizing n with
  | zero => rfl
  | succ k ih => rw [beBytes, List.length_append, ih, List.length_singleton]

theorem beNat_beBytes : ∀ {k n : Nat}, n < 256 ^ k → beNat (beBytes k n) = n
  | 0, n, h => by
    have : n = 0 := by simpa using h
    rw [this]
    rfl
  | k + 1, n, h => by
    have hdiv : n / 256 < 256 ^ k := Nat.div_lt_of_lt_mul (by rw [Nat.mul_comm, ← Nat.pow_succ]; exact h)
    have ih := beNat_beBytes hdiv
    rw [beNat] at ih
    rw [beBytes, beNat, List.foldl_append, ih, List.foldl_cons, List.foldl_nil, UInt8.toNat_ofNat']
    omega

theorem webReadExact_append {a : Bytes} {n : Nat} (h : a.length = n) (r : Bytes) :
    webReadExact n (a ++ r) = some (a, r) := by
  rw [webReadExact, if_pos (by rw [List.length_append]; omega), List.take_left' h, List.drop_left' h]

theorem maskOf_ofFn (m : Mask) : maskOf (List.ofFn m) = m := by
  funext i
  rw [maskOf, List.getD_eq_getElem?_getD, List.getElem?_ofFn, dif_pos i.isLt]
  rfl

/-- The first byte of a frame. -/
theorem first_bits : ∀ (fin : Bool) (rsv : BitVec 3) (opcode : BitVec 4),
    (UInt8.ofNat (fin.toNat * 128 + rsv.toNat * 16 + opcode.toNat) &&& 0x80 ≠ 0 ↔ fin = true) ∧
      UInt8.ofNat (fin.toNat * 128 + rsv.toNat * 16 + opcode.toNat) &&& 0x0f = UInt8.ofNat opcode.toNat := by
  decide +kernel

/-- The second byte of a frame. -/
theorem second_bits : ∀ (b : Bool) (n : Fin 128),
    (UInt8.ofNat (b.toNat * 128 + n) &&& 0x80 ≠ 0 ↔ b = true) ∧
      UInt8.ofNat (b.toNat * 128 + n) &&& 0x7f = UInt8.ofNat n := by
  decide +kernel

theorem LengthForm.code_lt {form : LengthForm} {n : Nat} (h : form.Fits n) : form.code n < 128 := by
  cases form with
  | byte => exact Nat.lt_trans h (by decide)
  | word => exact (by decide : 126 < 128)
  | long => exact (by decide : 127 < 128)

theorem readLen_wire {h1 : UInt8} {form : LengthForm} {n : Nat} (h : form.Fits n)
    (h1n : h1 &&& 0x7f = UInt8.ofNat (form.code n)) (r : Bytes) : webWsReadLen h1 (form.bytes n ++ r) = some (n, r) := by
  rw [webWsReadLen, h1n]
  cases form with
  | byte =>
    change n < 126 at h
    have hn : (UInt8.ofNat n).toNat = n := by
      rw [UInt8.toNat_ofNat', Nat.mod_eq_of_lt (by omega)]
    have h126 : UInt8.ofNat n ≠ 126 := fun he => by
      rw [he] at hn
      exact absurd hn (by simp; omega)
    have h127 : UInt8.ofNat n ≠ 127 := fun he => by
      rw [he] at hn
      exact absurd hn (by simp; omega)
    rw [LengthForm.code, if_neg h126, if_neg h127, hn]
    rfl
  | word =>
    rw [LengthForm.code, if_pos (show UInt8.ofNat 126 = 126 from rfl), LengthForm.bytes,
      webReadExact_append (length_beBytes 2 n), Option.map_some, beNat_beBytes (Nat.lt_of_lt_of_eq h (by decide))]
  | long =>
    rw [LengthForm.code, if_neg (by decide), if_pos (show UInt8.ofNat 127 = 127 from rfl), LengthForm.bytes,
      webReadExact_append (length_beBytes 8 n), Option.map_some, beNat_beBytes (Nat.lt_of_lt_of_eq h (by decide))]

theorem readMask_wire {h1 : UInt8} {m : Option Mask} (h1m : h1 &&& 0x80 ≠ 0 ↔ m.isSome = true) (r : Bytes) :
    webWsReadMask h1 (maskBytes m ++ r) = some (m, r) := by
  rw [webWsReadMask]
  cases m with
  | none =>
    rw [if_neg (fun h => by simpa using h1m.mp h)]
    rfl
  | some m =>
    rw [if_pos (h1m.mpr rfl), maskBytes, webReadExact_append (by simp), Option.map_some, maskOf_ofFn]

theorem readHeader_wire {f : WsFrame} (hf : f.Fits) (r : Bytes) :
    webWsReadHeader (f.wire ++ r) =
      some (⟨f.fin, UInt8.ofNat f.opcode.toNat, f.mask, f.payload.length⟩, masked f.mask f.payload ++ r) := by
  obtain ⟨hfin, hop⟩ := first_bits f.fin f.rsv f.opcode
  obtain ⟨hmask, hlen⟩ := second_bits f.mask.isSome ⟨_, LengthForm.code_lt hf⟩
  have hcut : f.wire ++ r = [UInt8.ofNat (f.fin.toNat * 128 + f.rsv.toNat * 16 + f.opcode.toNat),
      UInt8.ofNat (f.mask.isSome.toNat * 128 + f.form.code f.payload.length)] ++
        (f.form.bytes f.payload.length ++ (maskBytes f.mask ++ (masked f.mask f.payload ++ r))) := by
    simp [WsFrame.wire]
  have hbit : decide (UInt8.ofNat (f.fin.toNat * 128 + f.rsv.toNat * 16 + f.opcode.toNat) &&& 0x80 ≠ 0) = f.fin := by
    rw [Bool.eq_iff_iff, decide_eq_true_iff, hfin]
  rw [webWsReadHeader, hcut, webReadExact_append (n := 2) rfl]
  simp only [Option.bind_eq_bind, Option.bind_some, List.getD_cons_zero, List.getD_cons_succ]
  rw [readLen_wire hf hlen, Option.bind_some, readMask_wire hmask, Option.bind_some, hbit, hop]

/-! ## Runs of frames -/

/-- What the kind of a frame makes of it. -/
def WsFrame.isData (f : WsFrame) : Bool := f.opcode = 1 ∨ f.opcode = 0
def WsFrame.isPing (f : WsFrame) : Bool := f.opcode = 9
def WsFrame.isClose (f : WsFrame) : Bool := f.opcode = 8

/-- The messages of data frames: a message ends with its last fragment. -/
def assemble : Bytes → List WsFrame → List Bytes
  | _, [] => []
  | msg, f :: fs => if f.fin then (msg ++ f.payload) :: assemble [] fs else assemble (msg ++ f.payload) fs

/-- The frames up to a closing one. -/
def openFrames (fs : List WsFrame) : List WsFrame := fs.takeWhile fun f => !f.isClose

def messagesOf (fs : List WsFrame) : List Bytes := assemble [] ((openFrames fs).filter WsFrame.isData)
def pingsOf (fs : List WsFrame) : List Bytes := ((openFrames fs).filter WsFrame.isPing).map WsFrame.payload

/-- The answer to a ping: at most 125 bytes of it. -/
def pongFrame (m : Mask) (payload : Bytes) : WsFrame :=
  { fin := true, rsv := 0, opcode := 10, mask := some m, payload := payload.take 125, form := .byte }

/-- The answers to pings, each with a mask of its own. -/
def pongs (mask : Nat → Mask) : Nat → List Bytes → Bytes
  | _, [] => []
  | k, p :: ps => (pongFrame (mask k) p).wire ++ pongs mask (k + 1) ps

theorem pong_bits : ∀ n : Fin 126, (0x80 : UInt8) ||| UInt8.ofNat n = UInt8.ofNat (128 + n) := by decide +kernel

theorem writeAll_ok {ws : CdpWs} (hw : ws.writeErr = none) (s : Bytes) :
    ws.webWriteAll s = { ws with sent := ws.sent ++ s } := by
  rw [CdpWs.webWriteAll, if_pos (by rw [hw]; rfl)]

theorem sendPong_wire {ws : CdpWs} (hw : ws.writeErr = none) (payload : Bytes) :
    webWsSendPong ws payload =
      { ws with draws := ws.draws + 1, sent := ws.sent ++ (pongFrame (ws.mask ws.draws) payload).wire } := by
  have hlen : (payload.take 125).length < 126 := by
    rw [List.length_take]
    omega
  have hbits := pong_bits ⟨_, hlen⟩
  dsimp only at hbits
  rw [webWsSendPong, @writeAll_ok { ws with draws := ws.draws + 1 } hw, hbits]
  rfl

/-- The client's text frames are frames. -/
def textFrame (m : Mask) (text : Bytes) : WsFrame :=
  { fin := true, rsv := 0, opcode := 1, mask := some m, payload := text
    form := if text.length < 126 then .byte else if text.length ≤ 0xffff then .word else .long }

theorem textFrame_fits {m : Mask} {text : Bytes} (h : text.length < 2 ^ 64) : (textFrame m text).Fits := by
  rw [WsFrame.Fits, textFrame]
  dsimp only
  split
  · assumption
  · split
    · exact Nat.lt_of_le_of_lt (by assumption) (by decide)
    · exact h

theorem sendText_wire {ws : CdpWs} (hw : ws.writeErr = none) (text : Bytes) :
    webWsSendText ws text =
      (none, { ws with draws := ws.draws + 1, sent := ws.sent ++ (textFrame (ws.mask ws.draws) (cstr text)).wire }) := by
  rw [webWsSendText, @writeAll_ok { ws with draws := ws.draws + 1 } hw, show ws.writeErr.map (fun e => utf8 "websocket write failed: " ++ e) = none by rw [hw]; rfl]
  have hbytes : ∀ {n : Nat}, n < 126 → (0x80 : UInt8) ||| UInt8.ofNat n = UInt8.ofNat (128 + n) :=
    fun hn => pong_bits ⟨_, hn⟩
  congr 3
  rw [textFrame, WsFrame.wire]
  dsimp only
  split
  · next h =>
    rw [hbytes h]
    rfl
  · split
    · simp [LengthForm.bytes, LengthForm.code, maskBytes, masked]
      rfl
    · simp [LengthForm.bytes, LengthForm.code, maskBytes, masked]
      rfl

theorem kind_bits : ∀ op : BitVec 4, (UInt8.ofNat op.toNat = 8 ↔ op = 8) ∧ (UInt8.ofNat op.toNat = 9 ↔ op = 9) ∧
    (UInt8.ofNat op.toNat = 1 ↔ op = 1) ∧ (UInt8.ofNat op.toNat = 0 ↔ op = 0) := by
  decide +kernel

/-- A frame no larger than the client takes. -/
def WsFrame.Taken (f : WsFrame) : Prop := f.Fits ∧ f.payload.length ≤ maxResultBytes * 4

instance (f : WsFrame) : Decidable f.Taken := inferInstanceAs (Decidable (f.Fits ∧ _))

/-- One frame more is read. -/
theorem readLoop_frame {f : WsFrame} (hf : f.Taken) {ws : CdpWs} (hw : ws.writeErr = none) {r : Bytes}
    (hinp : ws.inp = f.wire ++ r) (fuel : Nat) (msg : Bytes) :
    webWsReadLoop (fuel + 1) msg ws =
      if f.isClose then (.error (utf8 "websocket closed"), { ws with inp := r })
      else if f.isPing then
        webWsReadLoop fuel msg { ws with
          inp := r
          draws := ws.draws + 1
          sent := ws.sent ++ (pongFrame (ws.mask ws.draws) f.payload).wire }
      else if f.isData then
        if f.fin then (.ok (msg ++ f.payload), { ws with inp := r })
        else webWsReadLoop fuel (msg ++ f.payload) { ws with inp := r }
      else webWsReadLoop fuel msg { ws with inp := r } := by
  obtain ⟨h8, h9, h1, h0⟩ := kind_bits f.opcode
  have hpayload : (match f.mask with
      | some m => xorMask m (masked f.mask f.payload)
      | none => masked f.mask f.payload) = f.payload := masked_masked f.mask f.payload
  rw [webWsReadLoop, hinp, readHeader_wire hf.1]
  dsimp only
  rw [if_neg (Nat.not_lt.mpr hf.2), webReadExact_append (length_masked _ _)]
  dsimp only
  rw [hpayload, @sendPong_wire { ws with inp := r } hw]
  simp only [h8, h9, h1, h0, WsFrame.isClose, WsFrame.isPing, WsFrame.isData, decide_eq_true_iff]

theorem webReadExact_more {n : Nat} {inp a r : Bytes} (h : webReadExact n inp = some (a, r)) (x : Bytes) :
    webReadExact n (inp ++ x) = some (a, r ++ x) := by
  rw [webReadExact] at h ⊢
  split at h
  · next hn =>
    obtain ⟨rfl, rfl⟩ := Prod.mk.inj (Option.some.inj h)
    rw [if_pos (by rw [List.length_append]; omega), List.take_append_of_le_length hn, List.drop_append_of_le_length hn]
  · cases h

theorem readHeader_more {inp r : Bytes} {h : WsHeader} (hh : webWsReadHeader inp = some (h, r)) (x : Bytes) :
    webWsReadHeader (inp ++ x) = some (h, r ++ x) := by
  rw [webWsReadHeader] at hh ⊢
  obtain ⟨⟨b, inp'⟩, hb, hh⟩ := Option.bind_eq_some_iff.mp hh
  obtain ⟨⟨len, inp''⟩, hlen, hh⟩ := Option.bind_eq_some_iff.mp hh
  obtain ⟨⟨mask, r'⟩, hmask, hh⟩ := Option.bind_eq_some_iff.mp hh
  obtain ⟨rfl, rfl⟩ := Prod.mk.inj (Option.some.inj hh)
  have hlen' : webWsReadLen (b.getD 1 0) (inp' ++ x) = some (len, inp'' ++ x) := by
    rw [webWsReadLen] at hlen ⊢
    split at hlen
    · next hc =>
      obtain ⟨⟨a, k⟩, hr, he⟩ := Option.map_eq_some_iff.mp hlen
      obtain ⟨rfl, rfl⟩ := Prod.mk.inj he
      rw [if_pos hc, webReadExact_more hr]
      rfl
    · next hc =>
      rw [if_neg hc]
      split at hlen
      · next hc =>
        obtain ⟨⟨a, k⟩, hr, he⟩ := Option.map_eq_some_iff.mp hlen
        obtain ⟨rfl, rfl⟩ := Prod.mk.inj he
        rw [if_pos hc, webReadExact_more hr]
        rfl
      · next hc =>
        obtain ⟨rfl, rfl⟩ := Prod.mk.inj (Option.some.inj hlen)
        rw [if_neg hc]
  have hmask' : webWsReadMask (b.getD 1 0) (inp'' ++ x) = some (mask, r' ++ x) := by
    rw [webWsReadMask] at hmask ⊢
    split at hmask
    · next hc =>
      obtain ⟨⟨a, k⟩, hr, he⟩ := Option.map_eq_some_iff.mp hmask
      obtain ⟨rfl, rfl⟩ := Prod.mk.inj he
      rw [if_pos hc, webReadExact_more hr]
      rfl
    · next hc =>
      obtain ⟨rfl, rfl⟩ := Prod.mk.inj (Option.some.inj hmask)
      rw [if_neg hc]
  rw [webReadExact_more hb]
  simp only [Option.bind_eq_bind, Option.bind_some]
  rw [hlen', Option.bind_some, hmask']
  rfl

/-- The stream breaks off within a frame, or between two. -/
def Cut (cut : Bytes) : Prop := ∃ f : WsFrame, f.Taken ∧ ∃ x, x ≠ [] ∧ f.wire = cut ++ x

/-- What breaks off is an error, and no part of a message is delivered. -/
theorem readLoop_cut {ws : CdpWs} (h : Cut ws.inp) (fuel : Nat) (msg : Bytes) :
    webWsReadLoop fuel msg ws = (.error ws.readErr, ws.drained) := by
  obtain ⟨f, hf, x, hx, hwire⟩ := h
  cases fuel with
  | zero => rfl
  | succ fuel =>
    rw [webWsReadLoop]
    cases hh : webWsReadHeader ws.inp with
    | none => rfl
    | some r =>
      obtain ⟨h, inp⟩ := r
      have hmore := readHeader_more hh x
      have hfull := readHeader_wire hf.1 []
      rw [List.append_nil, hwire, hmore, List.append_nil] at hfull
      obtain ⟨rfl, hrest⟩ := Prod.mk.inj (Option.some.inj hfull)
      have hlen : inp.length + x.length = f.payload.length := by
        rw [← List.length_append, hrest, length_masked]
      have hpos := List.length_pos_of_ne_nil hx
      dsimp only
      rw [if_neg (Nat.not_lt.mpr hf.2), webReadExact, if_neg (by omega)]

/-- `n` reads, up to the first that fails: the messages, and the error of the last. -/
def webReads : Nat → CdpWs → List Bytes × Option Bytes × CdpWs
  | 0, ws => ([], none, ws)
  | n + 1, ws =>
    match webWsReadMessage ws with
    | (.error e, ws) => ([], some e, ws)
    | (.ok m, ws) => (m :: (webReads n ws).1, (webReads n ws).2)

def closeError (fs : List WsFrame) (readErr : Bytes) : Bytes :=
  if fs.any WsFrame.isClose then utf8 "websocket closed" else readErr

/-- Bytes were read and pings were answered. -/
def CdpWs.answered (ws : CdpWs) (inp : Bytes) (pings : List Bytes) : CdpWs :=
  { ws with
    inp := inp
    draws := ws.draws + pings.length
    sent := ws.sent ++ pongs ws.mask ws.draws pings }

theorem pongs_append (mask : Nat → Mask) (ps qs : List Bytes) (k : Nat) :
    pongs mask k (ps ++ qs) = pongs mask k ps ++ pongs mask (k + ps.length) qs := by
  induction ps generalizing k with
  | nil => rfl
  | cons p ps ih =>
    rw [List.cons_append, pongs, pongs, ih, List.length_cons, List.append_assoc, Nat.add_assoc, Nat.add_comm 1]

theorem answered_answered (ws : CdpWs) (i j : Bytes) (ps qs : List Bytes) :
    (ws.answered i ps).answered j qs = ws.answered j (ps ++ qs) := by
  simp [CdpWs.answered, pongs_append, Nat.add_assoc]

@[simp] theorem answered_nil (ws : CdpWs) (i : Bytes) : ws.answered i [] = { ws with inp := i } := by
  simp [CdpWs.answered, pongs]

theorem length_wire_pos (f : WsFrame) : 0 < f.wire.length := by
  rw [WsFrame.wire, List.length_cons]
  exact Nat.succ_pos _

theorem length_flatMap_wire (fs : List WsFrame) : fs.length ≤ (fs.flatMap WsFrame.wire).length := by
  induction fs with
  | nil => exact Nat.le_refl 0
  | cons f fs ih =>
    have := length_wire_pos f
    rw [List.flatMap_cons, List.length_append, List.length_cons]
    omega

theorem openFrames_cons {f : WsFrame} (h : f.isClose = false) (fs : List WsFrame) :
    openFrames (f :: fs) = f :: openFrames fs := by
  rw [openFrames, List.takeWhile_cons_of_pos (by rw [h]; rfl), openFrames]

/-- The next message of the frames, with `msg` of it there: it is read, with `rest` left,
    or there is none, and the read fails. -/
inductive Next (cut msg : Bytes) (fs : List WsFrame) (ws : CdpWs) (r : Except Bytes Bytes × CdpWs) : Prop
  | message {m : Bytes} {ms ps : List Bytes} {rest : List WsFrame} :
      assemble msg ((openFrames fs).filter WsFrame.isData) = m :: ms → ms = messagesOf rest → rest <:+ fs →
      closeError fs = closeError rest → pingsOf fs = ps ++ pingsOf rest →
      r = (.ok m, ws.answered (rest.flatMap WsFrame.wire ++ cut) ps) → Next cut msg fs ws r
  | none {inp : Bytes} : assemble msg ((openFrames fs).filter WsFrame.isData) = [] →
      r = (.error (closeError fs ws.readErr), ws.answered inp (pingsOf fs)) → Next cut msg fs ws r

/-- A frame in front that is no end of the message. -/
theorem Next.cons {cut msg msg' : Bytes} {f : WsFrame} {fs : List WsFrame} {ws : CdpWs} {i : Bytes} {ps : List Bytes}
    {r : Except Bytes Bytes × CdpWs} (h : Next cut msg' fs (ws.answered i ps) r) (hclose : f.isClose = false)
    (hpings : ((if f.isPing then [f.payload] else [])) = ps)
    (hdata : assemble msg ((openFrames (f :: fs)).filter WsFrame.isData) =
      assemble msg' ((openFrames fs).filter WsFrame.isData)) : Next cut msg (f :: fs) ws r := by
  have hend : closeError (f :: fs) = closeError fs := by
    funext e
    simp [closeError, hclose]
  have hps : pingsOf (f :: fs) = ps ++ pingsOf fs := by
    rw [pingsOf, openFrames_cons hclose, List.filter_cons, ← hpings]
    split <;> rfl
  cases h with
  | message hm hms hrest hc hp hr =>
    refine .message (hdata.trans hm) hms (hrest.trans (List.suffix_cons f fs)) (hend.trans hc) ?_
      (hr.trans (by rw [answered_answered]))
    rw [hps, hp, List.append_assoc]
  | none hm hr => exact .none (hdata.trans hm) (hr.trans (by rw [answered_answered, ← hps, hend]; rfl))

theorem loop_next {cut : Bytes} (hcut : Cut cut) : ∀ (fs : List WsFrame) {ws : CdpWs} {fuel : Nat} (msg : Bytes),
    (∀ f ∈ fs, f.Taken) → ws.writeErr = none → ws.inp = fs.flatMap WsFrame.wire ++ cut → fs.length < fuel →
    Next cut msg fs ws (webWsReadLoop fuel msg ws)
  | [], ws, fuel, msg, _, _, hinp, _ => by
    have hinp : ws.inp = cut := hinp
    refine @Next.none _ _ _ _ _ [] rfl ?_
    rw [readLoop_cut (hinp ▸ hcut), show pingsOf [] = [] from rfl, answered_nil]
    rfl
  | f :: fs, ws, fuel, msg, hfs, hw, hinp, hfuel => by
    obtain ⟨fuel, rfl⟩ := Nat.exists_eq_succ_of_ne_zero (show fuel ≠ 0 by omega)
    have hf := hfs f List.mem_cons_self
    have hrest : ∀ g ∈ fs, g.Taken := fun g hg => hfs g (List.mem_cons_of_mem _ hg)
    have hinp : ws.inp = f.wire ++ (fs.flatMap WsFrame.wire ++ cut) := by
      rw [hinp, List.flatMap_cons, List.append_assoc]
    have hfuel : fs.length < fuel := Nat.lt_of_succ_lt_succ hfuel
    -- what is read after this frame
    have hnext : ∀ (ps : List Bytes) (msg : Bytes), Next cut msg fs (ws.answered (fs.flatMap WsFrame.wire ++ cut) ps)
        (webWsReadLoop fuel msg (ws.answered (fs.flatMap WsFrame.wire ++ cut) ps)) :=
      fun ps msg => loop_next hcut fs msg hrest hw rfl hfuel
    rw [Nat.succ_eq_add_one, readLoop_frame hf hw hinp]
    by_cases hclose : f.isClose = true
    · rw [if_pos hclose]
      have hopen : openFrames (f :: fs) = [] := by
        rw [openFrames, List.takeWhile_cons_of_neg (by rw [hclose]; simp)]
      refine @Next.none _ _ _ _ _ (fs.flatMap WsFrame.wire ++ cut) (by rw [hopen]; rfl) ?_
      simp [pingsOf, hopen, closeError, hclose]
    · rw [Bool.not_eq_true] at hclose
      rw [hclose, if_neg Bool.false_ne_true]
      by_cases hping : f.isPing = true
      · have hdata : f.isData = false := by
          simp only [WsFrame.isPing, decide_eq_true_iff] at hping
          simp [WsFrame.isData, hping]
        have hpong : ws.answered (fs.flatMap WsFrame.wire ++ cut) [f.payload] = { ws with
            inp := fs.flatMap WsFrame.wire ++ cut
            draws := ws.draws + 1
            sent := ws.sent ++ (pongFrame (ws.mask ws.draws) f.payload).wire } := by
          simp [CdpWs.answered, pongs]
        rw [if_pos hping, ← hpong]
        refine (hnext [f.payload] msg).cons hclose (if_pos hping) ?_
        rw [openFrames_cons hclose, List.filter_cons_of_neg (by rw [hdata]; simp)]
      · rw [if_neg hping]
        by_cases hdata : f.isData = true
        · rw [if_pos hdata]
          by_cases hfin : f.fin = true
          · rw [if_pos hfin]
            refine @Next.message _ _ _ _ _ (msg ++ f.payload) _ [] fs ?_ rfl (List.suffix_cons f fs) ?_ ?_
              (by rw [answered_nil])
            · rw [openFrames_cons hclose, List.filter_cons_of_pos hdata, assemble, if_pos hfin]
              rfl
            · funext e
              simp [closeError, hclose]
            · rw [pingsOf, openFrames_cons hclose, List.filter_cons_of_neg hping]
              rfl
          · rw [if_neg hfin, ← answered_nil]
            refine (hnext [] (msg ++ f.payload)).cons hclose (if_neg hping) ?_
            rw [openFrames_cons hclose, List.filter_cons_of_pos hdata, assemble, if_neg hfin]
        · rw [if_neg hdata, ← answered_nil]
          refine (hnext [] msg).cons hclose (if_neg hping) ?_
          rw [openFrames_cons hclose, List.filter_cons_of_neg hdata]

/-- One read. -/
theorem read_next {fs : List WsFrame} {cut : Bytes} {ws : CdpWs} (hfs : ∀ f ∈ fs, f.Taken) (hcut : Cut cut)
    (hw : ws.writeErr = none) (hinp : ws.inp = fs.flatMap WsFrame.wire ++ cut) :
    Next cut [] fs ws (webWsReadMessage ws) := by
  refine loop_next hcut fs [] hfs hw hinp ?_
  have := length_flatMap_wire fs
  rw [hinp, List.length_append]
  omega

end Ds4.Web
