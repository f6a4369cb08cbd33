import Ds4.Dist.Wire

/- RESULT frames of ds4_distributed.c: what a worker sends, what a relay makes of the
   frame behind it, and what the coordinator reads.

   What is proved:
     1. `recvResult_frame` — the coordinator reads a frame as it was built.
     2. `relay_frame` — a relay adds its record behind the frame's records and changes
        nothing else.
     3. `relays_frame` — so a chain of relays adds one record each.
     4. `recvResult_boundary`, `relay_boundary` — whatever a frame holds, reading it
        stops where it ends, or the connection is given up.

   Correspondence (C ↔ Lean):
     `dist_send_work_result`, `dist_send_work_error` ↔ `sendWorkResult`, `sendWorkError`
     `dist_recv_result_alloc`                      ↔ `recvResult`
     `dist_worker_forwarder_relay_main`            ↔ `relay`, one turn of its loop
   The time a relay has waited is a parameter; allocation and writing succeed. -/
namespace Ds4.Dist.Route
open Ds4 Bytes

structure ResultFixed where
  requestHi : UInt32
  requestLo : UInt32
  resultHashHi : UInt32
  resultHashLo : UInt32
  status : UInt32
  resultKind : UInt32
  telemetryCount : UInt32
  telemetryBytes : UInt32
  payloadBytes : UInt32
  payloadBits : UInt32

structure Telemetry where
  layerStart : UInt32
  layerEnd : UInt32
  routeIndex : UInt32
  pos0 : UInt32
  nTokens : UInt32
  evalUsec : UInt32
  downstreamWaitUsec : UInt32
  forwardSendUsec : UInt32
  inputBytes : UInt32
  outputBytes : UInt32
  deriving DecidableEq

/-- `sizeof` both records. -/
def resultFixedBytes : Nat := 40
def telemetryFixedBytes : Nat := 40

def resultAck : UInt32 := 0
def resultHiddenState : UInt32 := 1
def resultLogits : UInt32 := 2

def ResultFixed.words (r : ResultFixed) : List UInt32 :=
  [r.requestHi, r.requestLo, r.resultHashHi, r.resultHashLo, r.status, r.resultKind, r.telemetryCount, r.telemetryBytes,
   r.payloadBytes, r.payloadBits]

def ResultFixed.ofWords : List UInt32 → Option ResultFixed
  | [a, b, c, d, e, f, g, h, i, j] => some ⟨a, b, c, d, e, f, g, h, i, j⟩
  | _ => none

def Telemetry.words (t : Telemetry) : List UInt32 :=
  [t.layerStart, t.layerEnd, t.routeIndex, t.pos0, t.nTokens, t.evalUsec, t.downstreamWaitUsec, t.forwardSendUsec, t.inputBytes,
   t.outputBytes]

def Telemetry.ofWords : List UInt32 → Option Telemetry
  | [a, b, c, d, e, f, g, h, i, j] => some ⟨a, b, c, d, e, f, g, h, i, j⟩
  | _ => none

def ResultFixed.request (r : ResultFixed) : UInt64 := u64FromHalves r.requestHi r.requestLo
def ResultFixed.hash (r : ResultFixed) : UInt64 := u64FromHalves r.resultHashHi r.resultHashLo

def readResultFixed (p : Bytes) : Option (ResultFixed × Bytes) :=
  match readFull resultFixedBytes p with
  | none => none
  | some (b, p) => (ResultFixed.ofWords (unwords 10 b)).map fun r => (r, p)

/-- The records of the telemetry section. -/
def readTelemetry : Nat → Bytes → List Telemetry
  | 0, _ => []
  | n + 1, p => (Telemetry.ofWords (unwords 10 p)).toList ++ readTelemetry n (p.drop telemetryFixedBytes)

def telemetrySection (ts : List Telemetry) : Bytes := ts.flatMap fun t => wireWords t.words

/-! ## Sending -/

def ResultFixed.sized (r : ResultFixed) (ts : List Telemetry) (payload : Bytes) : ResultFixed :=
  { r with telemetryCount := UInt32.ofNat ts.length, telemetryBytes := UInt32.ofNat (telemetryFixedBytes * ts.length)
           payloadBytes := UInt32.ofNat payload.length }

/-- The frame of these records and this payload. -/
def resultFrame (r : ResultFixed) (ts : List Telemetry) (payload : Bytes) : Bytes :=
  frameHeader msgResult (UInt32.ofNat (resultFixedBytes + telemetryFixedBytes * ts.length + payload.length)) ++
    (wireWords (r.sized ts payload).words ++ (telemetrySection ts ++ payload))

def bitsOrDefault (bits : UInt32) : UInt32 := if bits = 0 then 32 else bits

/-- The payload's width and bytes on the wire. -/
def resultPayload (k : Kernels) (status kind bits : UInt32) (payload : Bytes) : Option (UInt32 × Bytes) :=
  if status = 0 ∧ kind = resultHiddenState then
    if payload.length % 4 ≠ 0 then none
    else (activationWireBytes bits (payload.length / 4)).map fun _ =>
      (bitsOrDefault bits, encodeActivation k payload (payload.length / 4) (bitsOrDefault bits))
  else if status = 0 ∧ kind = resultLogits then some (32, payload)
  else some (0, payload)

def sendWorkResult (k : Kernels) (request hash : UInt64) (status kind bits : UInt32) (ts : List Telemetry) (payload : Bytes) :
    Option Bytes :=
  match resultPayload k status kind bits payload with
  | none => none
  | some (bits, wire) =>
    let hash := if status = 0 then hash else 0
    if 4294967295 < resultFixedBytes + telemetryFixedBytes * ts.length + wire.length then none
    else some (resultFrame ⟨hi32 request, lo32 request, hi32 hash, lo32 hash, status, kind, 0, 0, 0, bits⟩ ts wire)

def sendWorkError (k : Kernels) (request : UInt64) (msg : String) : Bytes :=
  (sendWorkResult k request 0 1 resultAck 0 [] (utf8 msg)).getD []

/-! ## The coordinator -/

def ResultFixed.sizesOk (r : ResultFixed) (body : Nat) : Bool :=
  decide (r.telemetryBytes.toNat % telemetryFixedBytes = 0) &&
    decide (r.telemetryCount.toNat = r.telemetryBytes.toNat / telemetryFixedBytes) &&
    decide (r.telemetryBytes.toNat ≤ body) && decide (r.payloadBytes.toNat = body - r.telemetryBytes.toNat)

/-- What the caller gets: a transport error, after which it drops the connection, the error text
    of a worker, or a result. -/
inductive Answer where
  | unusable (err : String)
  | remoteError (err : Bytes)
  | result (kind : UInt32) (hash : UInt64) (telemetry : List Telemetry) (payload : Bytes)

def hex8 (v : UInt32) : String := String.ofList (List.leftpad 8 '0' (Nat.toDigits 16 v.toNat))

def answer (k : Kernels) (errlen : Nat) (r : ResultFixed) (ts : List Telemetry) (buf : Bytes) : Answer :=
  if r.status ≠ 0 then
    .remoteError (if buf ≠ [] then buf.take (errlen - 1) else utf8 "distributed worker returned an error")
  else if r.resultKind = resultHiddenState ∧ buf ≠ [] then
    match decodeActivation k buf r.payloadBits with
    | .error err => .unusable err
    | .ok decoded => .result r.resultKind r.hash ts decoded
  else .result r.resultKind r.hash ts buf

/-- The sections behind the record. The telemetry is read where the log asks for it. -/
def recvSections (k : Kernels) (errlen : Nat) (debug : Bool) (r : ResultFixed) (fd : Bytes) : Answer × Bytes :=
  match readFull r.telemetryBytes.toNat fd with
  | none => (.unusable "failed to read distributed result telemetry", [])
  | some (ts, fd) =>
    match readFull r.payloadBytes.toNat fd with
    | none => (.unusable "failed to read distributed result payload", [])
    | some (buf, fd) => (answer k errlen r (if debug then readTelemetry r.telemetryCount.toNat ts else []) buf, fd)

/-- The answer, and the stream behind it. -/
def recvResult (k : Kernels) (errlen : Nat) (debug : Bool) (request : UInt64) (fd : Bytes) : Answer × Bytes :=
  match readFrameHeader fd with
  | .closed => (.unusable "distributed worker closed connection", [])
  | .badMagic magic rest => (.unusable ("bad frame magic 0x" ++ hex8 magic), rest)
  | .frame type bytes fd =>
    if type ≠ msgResult ∨ bytes.toNat < resultFixedBytes then
      (.unusable "distributed worker returned invalid frame", fd.drop bytes.toNat)
    else
      match readResultFixed fd with
      | none => (.unusable "failed to read distributed result", [])
      | some (r, fd) =>
        let body := bytes.toNat - resultFixedBytes
        if !r.sizesOk body then (.unusable "distributed result telemetry metadata mismatch", fd.drop body)
        else if r.request ≠ request then (.unusable "distributed result metadata mismatch", fd.drop body)
        else recvSections k errlen debug r fd

/-! ## The relay -/

structure Pending where
  request : UInt64
  telemetry : Telemetry

/-- What a turn writes upstream, the requests still pending, and the stream behind it, if the relay goes on. -/
structure Relayed where
  written : Bytes
  queue : List Pending
  rest : Option Bytes

/-- The oldest request is answered with an error, and the relay ends. -/
def relayFail (k : Kernels) (queue : List Pending) (msg : String) : Relayed :=
  match queue with
  | [] => ⟨[], [], none⟩
  | p :: queue => ⟨sendWorkError k p.request msg, queue, none⟩

/-- `n` bytes from one connection to the other through a buffer of a MiB: if the stream ends before,
    the buffers that were full have been written. -/
def copyThrough (n : Nat) (fd : Bytes) : Bytes × Option Bytes :=
  match readFull n fd with
  | none => (fd.take (fd.length / 1048576 * 1048576), none)
  | some (b, fd) => (b, some fd)

/-- A result that is well formed goes upstream, if it is the one waited for and still fits with one record more. -/
def relayResult (k : Kernels) (wait : UInt32) (p : Pending) (queue : List Pending) (r : ResultFixed) (fd : Bytes) : Relayed :=
  let telemetryBytes := r.telemetryBytes.toNat + telemetryFixedBytes
  let frameBytes := resultFixedBytes + telemetryBytes + r.payloadBytes.toNat
  if r.request ≠ p.request then ⟨sendWorkError k p.request "next worker RESULT metadata mismatch", queue, none⟩
  else if 4294967295 < telemetryBytes ∨ r.telemetryCount + 1 = 0 then
    ⟨sendWorkError k p.request "distributed telemetry chain is too large", queue, none⟩
  else if 4294967295 < frameBytes then ⟨sendWorkError k p.request "distributed RESULT frame is too large", queue, none⟩
  else
    let out := { r with telemetryCount := r.telemetryCount + 1, telemetryBytes := UInt32.ofNat telemetryBytes }
    let own := { p.telemetry with downstreamWaitUsec := wait }
    let head := frameHeader msgResult (UInt32.ofNat frameBytes) ++ wireWords out.words
    match copyThrough r.telemetryBytes.toNat fd with
    | (ts, none) => ⟨head ++ ts, queue, none⟩
    | (ts, some fd) =>
      match copyThrough r.payloadBytes.toNat fd with
      | (payload, rest) => ⟨head ++ (ts ++ (wireWords own.words ++ payload)), queue, rest⟩

def relay (k : Kernels) (wait : UInt32) (queue : List Pending) (fd : Bytes) : Relayed :=
  match readFrameHeader fd with
  | .closed => relayFail k queue "next worker closed connection"
  | .badMagic _ _ => relayFail k queue "next worker closed connection"
  | .frame type bytes fd =>
    if type ≠ msgResult ∨ bytes.toNat < resultFixedBytes then relayFail k queue "next worker did not return valid RESULT"
    else
      match readResultFixed fd with
      | none => relayFail k queue "next worker closed while returning RESULT"
      | some (r, fd) =>
        if !r.sizesOk (bytes.toNat - resultFixedBytes) then relayFail k queue "next worker RESULT metadata mismatch"
        else
          match queue with
          | [] => ⟨[], [], none⟩
          | p :: queue => relayResult k wait p queue r fd

/-! ## A frame is read as it was built -/

theorem readResultFixed_words (r : ResultFixed) (rest : Bytes) : readResultFixed (wireWords r.words ++ rest) = some (r, rest) := by
  have hwords : unwords 10 (wireWords r.words) = r.words := unwords_words' rfl
  have hlen : (wireWords r.words).length = resultFixedBytes := length_wireWords _
  rw [readResultFixed, readFull_append hlen]
  dsimp only
  rw [hwords]
  rfl

theorem readResultFixed_within {a : Bytes} (h : resultFixedBytes ≤ a.length) :
    ∃ r, ∀ b, readResultFixed (a ++ b) = some (r, a.drop resultFixedBytes ++ b) := by
  have hwords : ∀ p, ∃ r, ResultFixed.ofWords (unwords 10 p) = some r := fun p => ⟨_, rfl⟩
  obtain ⟨r, hr⟩ := hwords (a.take resultFixedBytes)
  refine ⟨r, fun b => ?_⟩
  rw [readResultFixed, readFull_within h]
  dsimp only
  rw [hr]
  rfl

@[simp] theorem length_telemetrySection (ts : List Telemetry) : (telemetrySection ts).length = telemetryFixedBytes * ts.length := by
  induction ts with
  | nil => rfl
  | cons t ts ih =>
    rw [telemetrySection, List.flatMap_cons, List.length_append, ← telemetrySection, ih, length_wireWords, List.length_cons,
      Nat.mul_succ, Nat.add_comm]
    rfl

theorem readTelemetry_section (ts : List Telemetry) (rest : Bytes) : readTelemetry ts.length (telemetrySection ts ++ rest) = ts := by
  induction ts with
  | nil => rfl
  | cons t ts ih =>
    have hwords : unwords 10 (wireWords t.words ++ (telemetrySection ts ++ rest)) = t.words := unwords_words t.words _
    have hlen : (wireWords t.words).length = telemetryFixedBytes := length_wireWords _
    rw [telemetrySection, List.flatMap_cons, List.append_assoc, ← telemetrySection, List.length_cons, readTelemetry, hwords,
      List.drop_left' hlen, ih]
    rfl

/-- The frame's size is a word. -/
def FrameFits (ts : List Telemetry) (payload : Bytes) : Prop :=
  resultFixedBytes + telemetryFixedBytes * ts.length + payload.length ≤ 4294967295

theorem toNat_word {n : Nat} (h : n ≤ 4294967295) : (UInt32.ofNat n).toNat = n := by
  rw [UInt32.toNat_ofNat']
  omega

section
variable {ts : List Telemetry} {payload : Bytes} (hfit : FrameFits ts payload)
include hfit

theorem FrameFits.sizes : (UInt32.ofNat (resultFixedBytes + telemetryFixedBytes * ts.length + payload.length)).toNat =
      resultFixedBytes + telemetryFixedBytes * ts.length + payload.length ∧
    (UInt32.ofNat (telemetryFixedBytes * ts.length)).toNat = telemetryFixedBytes * ts.length ∧
    (UInt32.ofNat ts.length).toNat = ts.length ∧ (UInt32.ofNat payload.length).toNat = payload.length := by
  rw [FrameFits, resultFixedBytes, telemetryFixedBytes] at *
  refine ⟨toNat_word hfit, toNat_word ?_, toNat_word ?_, toNat_word ?_⟩ <;> omega

theorem sizesOk_sized (r : ResultFixed) : (r.sized ts payload).sizesOk
    (resultFixedBytes + telemetryFixedBytes * ts.length + payload.length - resultFixedBytes) = true := by
  obtain ⟨-, hts, hn, hp⟩ := hfit.sizes
  have hpos : 0 < telemetryFixedBytes := by decide
  rw [ResultFixed.sizesOk, ResultFixed.sized]
  dsimp only
  rw [hts, hn, hp, Nat.mul_mod_right, Nat.mul_div_cancel_left _ hpos]
  simp only [decide_true, Bool.true_and, Bool.and_eq_true, decide_eq_true_eq]
  omega

theorem recvResult_frame (k : Kernels) (errlen : Nat) (debug : Bool) (request : UInt64) (r : ResultFixed) (rest : Bytes) :
    recvResult k errlen debug request (resultFrame r ts payload ++ rest) =
      (if r.request ≠ request then .unusable "distributed result metadata mismatch"
        else answer k errlen r (if debug then ts else []) payload, rest) := by
  obtain ⟨hframe, hts, hn, hp⟩ := hfit.sizes
  have htype : ¬(msgResult ≠ msgResult ∨
      resultFixedBytes + telemetryFixedBytes * ts.length + payload.length < resultFixedBytes) := by
    rintro (h | h)
    · exact h rfl
    · omega
  have hrequest : (r.sized ts payload).request = r.request := rfl
  rw [recvResult, resultFrame, List.append_assoc, readFrameHeader_frame]
  dsimp only
  rw [hframe, if_neg htype, List.append_assoc, readResultFixed_words]
  dsimp only
  rw [sizesOk_sized hfit r, hrequest, if_neg (by decide), List.append_assoc]
  by_cases hreq : r.request = request
  · have hread := readTelemetry_section ts []
    rw [List.append_nil] at hread
    have hsec : (telemetrySection ts).length = (r.sized ts payload).telemetryBytes.toNat := by
      rw [length_telemetrySection]
      exact hts.symm
    have hpay : payload.length = (r.sized ts payload).payloadBytes.toNat := hp.symm
    have hcount : (r.sized ts payload).telemetryCount.toNat = ts.length := hn
    rw [if_neg (not_not_intro hreq), if_neg (not_not_intro hreq), recvSections, readFull_append hsec]
    dsimp only
    rw [readFull_append hpay]
    dsimp only
    rw [hcount, hread]
    rfl
  · rw [if_pos hreq, if_pos hreq]
    have hlen : (telemetrySection ts ++ payload).length =
        resultFixedBytes + telemetryFixedBytes * ts.length + payload.length - resultFixedBytes := by
      rw [List.length_append, length_telemetrySection]
      omega
    rw [← List.append_assoc, List.drop_left' hlen]

end

theorem FrameFits.init {ts : List Telemetry} {own : Telemetry} {payload : Bytes} (h : FrameFits (ts ++ [own]) payload) :
    resultFixedBytes + (telemetryFixedBytes * ts.length + telemetryFixedBytes) + payload.length ≤ 4294967295 := by
  rwa [FrameFits, List.length_append, List.length_singleton, Nat.mul_succ] at h

theorem sized_append {ts : List Telemetry} {payload : Bytes} (r : ResultFixed) (own : Telemetry)
    (hfit : FrameFits ts payload) : { r.sized ts payload with
      telemetryCount := (r.sized ts payload).telemetryCount + 1
      telemetryBytes := UInt32.ofNat ((r.sized ts payload).telemetryBytes.toNat + telemetryFixedBytes) } =
    r.sized (ts ++ [own]) payload := by
  have hbytes : (r.sized ts payload).telemetryBytes.toNat = telemetryFixedBytes * ts.length := hfit.sizes.2.1
  have hcount : (r.sized ts payload).telemetryCount + 1 = UInt32.ofNat (ts.length + 1) := (UInt32.ofNat_add ts.length 1).symm
  rw [hbytes, hcount, ResultFixed.sized, ResultFixed.sized, List.length_append, List.length_singleton, Nat.mul_succ]

theorem copyThrough_append {n : Nat} {a : Bytes} (h : a.length = n) (b : Bytes) : copyThrough n (a ++ b) = (a, some b) := by
  rw [copyThrough, readFull_append h]

theorem relay_frame (k : Kernels) (wait : UInt32) (p : Pending) (queue : List Pending) {r : ResultFixed} {ts : List Telemetry}
    {payload : Bytes} (hfit : FrameFits (ts ++ [{ p.telemetry with downstreamWaitUsec := wait }]) payload)
    (hreq : r.request = p.request) (rest : Bytes) :
    relay k wait (p :: queue) (resultFrame r ts payload ++ rest) =
      ⟨resultFrame r (ts ++ [{ p.telemetry with downstreamWaitUsec := wait }]) payload, queue, some rest⟩ := by
  have hbound := hfit.init
  have hfit' : FrameFits ts payload := by
    rw [FrameFits]
    omega
  have hout := sized_append r { p.telemetry with downstreamWaitUsec := wait } hfit'
  obtain ⟨hframe, hts, hn, hp⟩ := hfit'.sizes
  have hsec : (telemetrySection ts).length = (r.sized ts payload).telemetryBytes.toNat := by
    rw [length_telemetrySection]
    exact hts.symm
  have hpay : payload.length = (r.sized ts payload).payloadBytes.toNat := hp.symm
  have htype : ¬(msgResult ≠ msgResult ∨
      resultFixedBytes + telemetryFixedBytes * ts.length + payload.length < resultFixedBytes) := by
    rintro (h | h)
    · exact h rfl
    · omega
  have hrequest : (r.sized ts payload).request = p.request := hreq
  have hchain : ¬(4294967295 < (r.sized ts payload).telemetryBytes.toNat + telemetryFixedBytes ∨
      (r.sized ts payload).telemetryCount + 1 = 0) := by
    rintro (h | h)
    · rw [← hsec, length_telemetrySection] at h
      omega
    · have hcount : (r.sized ts payload).telemetryCount + 1 = UInt32.ofNat (ts.length + 1) := (UInt32.ofNat_add ts.length 1).symm
      have hlt : ts.length + 1 ≤ 4294967295 := by
        rw [telemetryFixedBytes] at hbound
        omega
      have hword := toNat_word hlt
      have hzero : (0 : UInt32).toNat = 0 := rfl
      rw [← hcount, h, hzero] at hword
      exact Nat.succ_ne_zero _ hword.symm
  have hsize : resultFixedBytes + ((r.sized ts payload).telemetryBytes.toNat + telemetryFixedBytes) +
      (r.sized ts payload).payloadBytes.toNat =
      resultFixedBytes + telemetryFixedBytes * (ts ++ [{ p.telemetry with downstreamWaitUsec := wait }]).length + payload.length := by
    rw [← hsec, ← hpay, length_telemetrySection, List.length_append, List.length_singleton, Nat.mul_succ]
  rw [relay, resultFrame, List.append_assoc, readFrameHeader_frame]
  dsimp only
  rw [hframe, if_neg htype, List.append_assoc, readResultFixed_words]
  dsimp only
  rw [sizesOk_sized hfit' r, if_neg (by decide), List.append_assoc, relayResult]
  dsimp only
  rw [if_neg (not_not_intro hrequest), if_neg hchain, hsize, if_neg (by rw [FrameFits] at hfit; omega), copyThrough_append hsec]
  dsimp only
  rw [copyThrough_append hpay, hout, resultFrame, telemetrySection, telemetrySection, List.flatMap_append]
  simp only [List.flatMap_cons, List.flatMap_nil, List.append_nil, List.append_assoc]

/-! ## A frame whatever it holds -/

section
variable (k : Kernels) {r : ResultFixed} {a : Bytes} {body : Nat} (hsizes : r.sizesOk body = true) (hlen : a.length = body)
include hsizes hlen

theorem ResultFixed.sections : r.telemetryBytes.toNat ≤ a.length ∧
    (a.drop r.telemetryBytes.toNat).length = r.payloadBytes.toNat := by
  simp only [ResultFixed.sizesOk, Bool.and_eq_true, decide_eq_true_eq] at hsizes
  obtain ⟨⟨-, hts⟩, hpay⟩ := hsizes
  rw [List.length_drop, hlen]
  exact ⟨hts, hpay.symm⟩

theorem recvSections_boundary (errlen : Nat) (debug : Bool) :
    ∃ b, ∀ rest, recvSections k errlen debug r (a ++ rest) = (b, rest) := by
  obtain ⟨hts, hpay⟩ := r.sections hsizes hlen
  refine ⟨answer k errlen r (if debug then readTelemetry r.telemetryCount.toNat (a.take r.telemetryBytes.toNat) else [])
    (a.drop r.telemetryBytes.toNat), fun rest => ?_⟩
  rw [recvSections, readFull_within hts]
  dsimp only
  rw [readFull_append hpay]

theorem relayResult_boundary (wait : UInt32) (p : Pending) (queue : List Pending) : ∃ (written : Bytes) (goesOn : Bool), ∀ rest,
    relayResult k wait p queue r (a ++ rest) = ⟨written, queue, if goesOn then some rest else none⟩ := by
  obtain ⟨hts, hpay⟩ := r.sections hsizes hlen
  by_cases hreq : r.request = p.request
  · by_cases hchain : 4294967295 < r.telemetryBytes.toNat + telemetryFixedBytes ∨ r.telemetryCount + 1 = 0
    · refine ⟨sendWorkError k p.request "distributed telemetry chain is too large", false, fun rest => ?_⟩
      rw [relayResult]
      dsimp only
      rw [if_neg (not_not_intro hreq), if_pos hchain]
      rfl
    · by_cases hframe : 4294967295 < resultFixedBytes + (r.telemetryBytes.toNat + telemetryFixedBytes) + r.payloadBytes.toNat
      · refine ⟨sendWorkError k p.request "distributed RESULT frame is too large", false, fun rest => ?_⟩
        rw [relayResult]
        dsimp only
        rw [if_neg (not_not_intro hreq), if_neg hchain, if_pos hframe]
        rfl
      · refine ⟨frameHeader msgResult (UInt32.ofNat (resultFixedBytes + (r.telemetryBytes.toNat + telemetryFixedBytes) +
            r.payloadBytes.toNat)) ++ wireWords { r with
              telemetryCount := r.telemetryCount + 1
              telemetryBytes := UInt32.ofNat (r.telemetryBytes.toNat + telemetryFixedBytes) }.words ++
          (a.take r.telemetryBytes.toNat ++ (wireWords { p.telemetry with downstreamWaitUsec := wait }.words ++
            a.drop r.telemetryBytes.toNat)), true, fun rest => ?_⟩
        rw [relayResult]
        dsimp only
        rw [if_neg (not_not_intro hreq), if_neg hchain, if_neg hframe, copyThrough, readFull_within hts]
        dsimp only
        rw [copyThrough_append hpay]
        rfl
  · refine ⟨sendWorkError k p.request "next worker RESULT metadata mismatch", false, fun rest => ?_⟩
    rw [relayResult]
    dsimp only
    rw [if_pos hreq]
    rfl

end

section
variable (k : Kernels) {type bytes : UInt32} {body : Bytes} (hlen : body.length = bytes.toNat)
include hlen

/-- The coordinator's reading depends on the frame alone and stops where it ends. -/
theorem recvResult_boundary (errlen : Nat) (debug : Bool) (request : UInt64) :
    ∃ a, ∀ rest, recvResult k errlen debug request (frameHeader type bytes ++ (body ++ rest)) = (a, rest) := by
  have hread : ∀ rest, readFrameHeader (frameHeader type bytes ++ (body ++ rest)) = .frame type bytes (body ++ rest) := fun rest =>
    readFrameHeader_frame type bytes (body ++ rest)
  by_cases htype : type ≠ msgResult ∨ bytes.toNat < resultFixedBytes
  · refine ⟨.unusable "distributed worker returned invalid frame", fun rest => ?_⟩
    rw [recvResult, hread]
    dsimp only
    rw [if_pos htype, List.drop_left' hlen]
  obtain ⟨r, hr⟩ := readResultFixed_within ((Nat.not_lt.mp fun h => htype (.inr h)).trans_eq hlen.symm)
  have hdrop : (body.drop resultFixedBytes).length = bytes.toNat - resultFixedBytes := by rw [List.length_drop, hlen]
  cases hsizes : r.sizesOk (bytes.toNat - resultFixedBytes) with
  | false =>
    refine ⟨.unusable "distributed result telemetry metadata mismatch", fun rest => ?_⟩
    rw [recvResult, hread]
    dsimp only
    rw [if_neg htype, hr]
    dsimp only
    rw [hsizes, if_pos (by decide), List.drop_left' hdrop]
  | true =>
    by_cases hreq : r.request = request
    · obtain ⟨a, ha⟩ := recvSections_boundary k hsizes hdrop errlen debug
      refine ⟨a, fun rest => ?_⟩
      rw [recvResult, hread]
      dsimp only
      rw [if_neg htype, hr]
      dsimp only
      rw [hsizes, if_neg (by decide), if_neg (not_not_intro hreq), ha]
    · refine ⟨.unusable "distributed result metadata mismatch", fun rest => ?_⟩
      rw [recvResult, hread]
      dsimp only
      rw [if_neg htype, hr]
      dsimp only
      rw [hsizes, if_neg (by decide), if_pos hreq, List.drop_left' hdrop]

/-- A relay's turn depends on the frame alone, and stops where it ends if the relay goes on. -/
theorem relay_boundary (wait : UInt32) (queue : List Pending) : ∃ (written : Bytes) (queue' : List Pending) (goesOn : Bool), ∀ rest,
    relay k wait queue (frameHeader type bytes ++ (body ++ rest)) = ⟨written, queue', if goesOn then some rest else none⟩ := by
  have hread : ∀ rest, readFrameHeader (frameHeader type bytes ++ (body ++ rest)) = .frame type bytes (body ++ rest) := fun rest =>
    readFrameHeader_frame type bytes (body ++ rest)
  have hfail : ∀ msg, relayFail k queue msg = ⟨(relayFail k queue msg).written, (relayFail k queue msg).queue, none⟩ := fun msg => by
    cases queue <;> rfl
  by_cases htype : type ≠ msgResult ∨ bytes.toNat < resultFixedBytes
  · refine ⟨(relayFail k queue "next worker did not return valid RESULT").written,
      (relayFail k queue "next worker did not return valid RESULT").queue, false, fun rest => ?_⟩
    rw [relay, hread]
    dsimp only
    rw [if_pos htype]
    exact hfail _
  obtain ⟨r, hr⟩ := readResultFixed_within ((Nat.not_lt.mp fun h => htype (.inr h)).trans_eq hlen.symm)
  have hdrop : (body.drop resultFixedBytes).length = bytes.toNat - resultFixedBytes := by rw [List.length_drop, hlen]
  cases hsizes : r.sizesOk (bytes.toNat - resultFixedBytes) with
  | false =>
    refine ⟨(relayFail k queue "next worker RESULT metadata mismatch").written,
      (relayFail k queue "next worker RESULT metadata mismatch").queue, false, fun rest => ?_⟩
    rw [relay, hread]
    dsimp only
    rw [if_neg htype, hr]
    dsimp only
    rw [hsizes, if_pos (by decide)]
    exact hfail _
  | true =>
    cases queue with
    | nil =>
      refine ⟨[], [], false, fun rest => ?_⟩
      rw [relay, hread]
      dsimp only
      rw [if_neg htype, hr]
      dsimp only
      rw [hsizes, if_neg (by decide)]
      rfl
    | cons p queue =>
      obtain ⟨written, goesOn, h⟩ := relayResult_boundary k hsizes hdrop wait p queue
      refine ⟨written, queue, goesOn, fun rest => ?_⟩
      rw [relay, hread]
      dsimp only
      rw [if_neg htype, hr]
      dsimp only
      rw [hsizes, if_neg (by decide)]
      exact h rest

end

/-! ## A result through its relays -/

/-- A relay at the turn that meets the result: what it waits for first, and how long it has waited. -/
structure Hop where
  wait : UInt32
  pending : Pending
  queue : List Pending

def Hop.own (h : Hop) : Telemetry := { h.pending.telemetry with downstreamWaitUsec := h.wait }

/-- The frame as the relays hand it on, the one next to the sender first. -/
def relays (k : Kernels) (hops : List Hop) (frame : Bytes) : Bytes :=
  hops.foldl (fun frame h => (relay k h.wait (h.pending :: h.queue) frame).written) frame

theorem relays_frame (k : Kernels) {r : ResultFixed} {payload : Bytes} : ∀ (hops : List Hop) (ts : List Telemetry),
    (∀ h ∈ hops, h.pending.request = r.request) → FrameFits (ts ++ hops.map Hop.own) payload →
    relays k hops (resultFrame r ts payload) = resultFrame r (ts ++ hops.map Hop.own) payload
  | [], ts, _, _ => by rw [List.map_nil, List.append_nil]; rfl
  | h :: hops, ts, hreq, hfit => by
    have hsplit : ts ++ (h :: hops).map Hop.own = ts ++ [h.own] ++ hops.map Hop.own := by
      rw [List.map_cons, List.append_assoc, List.singleton_append]
    rw [hsplit] at hfit ⊢
    have hfirst : FrameFits (ts ++ [h.own]) payload := by
      rw [FrameFits, List.length_append, Nat.mul_add] at hfit
      rw [FrameFits]
      omega
    have hturn := relay_frame k h.wait h.pending h.queue hfirst (hreq h List.mem_cons_self).symm []
    rw [List.append_nil] at hturn
    have ih := relays_frame k hops (ts ++ [h.own]) (fun h' hh => hreq h' (List.mem_cons_of_mem _ hh)) hfit
    rw [← ih]
    rw [relays, List.foldl_cons, hturn]
    rfl

theorem activationBytes_default (bits : UInt32) : activationBytes (bitsOrDefault bits) = activationBytes bits := by
  rw [bitsOrDefault]
  split
  · next h => rw [h]; rfl
  · rfl

/-- What the coordinator makes of a result that was sent so. -/
def resultAnswer (k : Kernels) (errlen : Nat) (hash : UInt64) (status kind bits : UInt32) (ts : List Telemetry) (payload : Bytes) :
    Answer :=
  if status ≠ 0 then
    .remoteError (if payload ≠ [] then payload.take (errlen - 1) else utf8 "distributed worker returned an error")
  else if kind = resultHiddenState then
    .result kind hash ts (transcode k payload (payload.length / 4) (bitsOrDefault bits))
  else .result kind hash ts payload

theorem answer_resultPayload {k : Kernels} {errlen : Nat} {status kind bits width : UInt32} {payload wire : Bytes}
    (hp : resultPayload k status kind bits payload = some (width, wire)) (hlen : payload.length ≤ 4294967295)
    (request hash : UInt64) (ts : List Telemetry) :
    let sent := if status = 0 then hash else 0
    answer k errlen ⟨hi32 request, lo32 request, hi32 sent, lo32 sent, status, kind, 0, 0, 0, width⟩ ts wire =
      resultAnswer k errlen hash status kind bits ts payload := by
  intro sent
  rw [resultPayload] at hp
  rw [answer, resultAnswer]
  by_cases hs : status = 0
  · have hsent : ResultFixed.hash ⟨hi32 request, lo32 request, hi32 sent, lo32 sent, status, kind, 0, 0, 0, width⟩ = hash := by
      rw [ResultFixed.hash, u64FromHalves_halves]
      exact if_pos hs
    dsimp only
    rw [hsent, if_neg (not_not_intro hs), if_neg (not_not_intro hs)]
    by_cases hk : kind = resultHiddenState
    · rw [if_pos ⟨hs, hk⟩] at hp
      split at hp
      · exact nomatch hp
      · next hmod =>
        obtain ⟨n, hn, heq⟩ := Option.map_eq_some_iff.mp hp
        obtain ⟨rfl, rfl⟩ := Prod.mk.inj heq
        rw [activationWireBytes] at hn
        cases hbytes : activationBytes bits with
        | none => rw [hbytes] at hn; exact nomatch hn
        | some m =>
          rw [← activationBytes_default] at hbytes
          have hsrc : 4 * (payload.length / 4) ≤ payload.length := Nat.mul_div_le _ _
          rw [if_pos hk]
          by_cases hempty : encodeActivation k payload (payload.length / 4) (bitsOrDefault bits) = []
          · have hzero := @length_encode k _ _ _ _ hbytes hsrc
            rw [hempty, List.length_nil] at hzero
            have hpay : payload.length / 4 = 0 := by
              rcases activationBytes_cases hbytes with ⟨rfl, -⟩ | ⟨rfl, -⟩ | ⟨rfl, -⟩ <;> omega
            have hnil : payload = [] := List.length_eq_zero_iff.mp (by omega)
            rw [if_neg (fun h => h.2 hempty), hempty, hnil]
            rw [transcode]
            split_ifs <;> rfl
          · rw [if_pos ⟨hk, hempty⟩, decode_encode k hbytes hsrc (by omega)]
    · rw [if_neg (fun h => hk h.2)] at hp
      have hwire : wire = payload := by
        split at hp
        · exact (Prod.mk.inj (Option.some.inj hp)).2.symm
        · exact (Prod.mk.inj (Option.some.inj hp)).2.symm
      rw [if_neg (fun h => hk h.1), if_neg hk, hwire]
  · rw [if_neg (fun h => hs h.1), if_neg (fun h => hs h.1)] at hp
    obtain ⟨-, rfl⟩ := Prod.mk.inj (Option.some.inj hp)
    dsimp only
    rw [if_pos hs, if_pos hs]

/-- A result that was sent reaches the coordinator through any relays that wait for it, with their
    records behind its own. -/
theorem result_through_relays (k : Kernels) (errlen : Nat) (debug : Bool) {request hash : UInt64} {status kind bits : UInt32}
    {ts : List Telemetry} {payload frame : Bytes} (hlen : payload.length ≤ 4294967295)
    (hsent : sendWorkResult k request hash status kind bits ts payload = some frame) (hops : List Hop)
    (hreq : ∀ h ∈ hops, h.pending.request = request)
    (hfit : frame.length + telemetryFixedBytes * hops.length ≤ headerBytes + 4294967295) (rest : Bytes) :
    recvResult k errlen debug request (relays k hops frame ++ rest) =
      (resultAnswer k errlen hash status kind bits (if debug then ts ++ hops.map Hop.own else []) payload, rest) := by
  rw [sendWorkResult] at hsent
  cases hp : resultPayload k status kind bits payload with
  | none => rw [hp] at hsent; exact nomatch hsent
  | some q =>
    obtain ⟨width, wire⟩ := q
    rw [hp] at hsent
    dsimp only at hsent
    split at hsent
    · exact nomatch hsent
    · next hframe =>
      obtain rfl := Option.some.inj hsent
      have hfits : FrameFits (ts ++ hops.map Hop.own) wire := by
        rw [resultFrame, List.length_append, List.length_append, List.length_append, length_wireWords, length_telemetrySection,
          frameHeader, length_wireWords] at hfit
        simp only [ResultFixed.words, List.length_cons, List.length_nil] at hfit
        rw [FrameFits, List.length_append, List.length_map, Nat.mul_add, resultFixedBytes]
        rw [headerBytes] at hfit
        omega
      have hrequest : ∀ sent, ResultFixed.request ⟨hi32 request, lo32 request, hi32 sent, lo32 sent, status, kind, 0, 0, 0, width⟩ =
          request := fun _ => u64FromHalves_halves request
      rw [relays_frame k hops ts (fun h hh => (hreq h hh).trans (hrequest _).symm) hfits, recvResult_frame hfits,
        if_neg (not_not_intro (hrequest _))]
      exact congrArg (·, rest) (answer_resultPayload hp hlen request hash _)

end Ds4.Dist.Route
