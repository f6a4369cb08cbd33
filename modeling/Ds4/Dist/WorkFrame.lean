import Ds4.Dist.ResultFrame
import Ds4.Dist.Slice

/- WORK frames of ds4_distributed.c: what the coordinator or a hop sends, and what the
   worker at the other end makes of it before it evaluates.

   What is proved:
     1. `parseWork_sent` — a worker takes from a frame what was sent, or refuses what
        was sent.
     2. `handleWork_boundary` — whatever a frame holds, the worker reads it to its end.
     3. `frames_round_trip` — both kinds of frames through every hop.

   Correspondence (C ↔ Lean):
     `dist_send_work_frame`                        ↔ `sendWork`
     `dist_worker_handle_work`                     ↔ `handleWork`
     `dist_worker_process_work_payload`            ↔ `parseWork`, up to the session
   The buffers of the sender hold what the record says of them; allocation and writing
   succeed. -/
namespace Ds4.Dist.Route
open Ds4 Bytes

structure WorkFixed where
  modelId : UInt32
  sessionHi : UInt32
  sessionLo : UInt32
  requestHi : UInt32
  requestLo : UInt32
  prefixHashHi : UInt32
  prefixHashLo : UInt32
  resultHashHi : UInt32
  resultHashLo : UInt32
  pos0 : UInt32
  nTokens : UInt32
  layerStart : UInt32
  layerEnd : UInt32
  flags : UInt32
  tokenBytes : UInt32
  inputHcBytes : UInt32
  inputHcBits : UInt32
  routeCount : UInt32
  routeIndex : UInt32
  routeBytes : UInt32

/-- `sizeof(ds4_dist_work_fixed)`. -/
def workFixedBytes : Nat := 80

def workInputHc : UInt32 := 1
def workOutputLogits : UInt32 := 2
/-- `DS4_DIST_WORK_F_VALID_MASK`. -/
def workValidMask : UInt32 := 15

def WorkFixed.words (w : WorkFixed) : List UInt32 :=
  [w.modelId, w.sessionHi, w.sessionLo, w.requestHi, w.requestLo, w.prefixHashHi, w.prefixHashLo, w.resultHashHi, w.resultHashLo,
   w.pos0, w.nTokens, w.layerStart, w.layerEnd, w.flags, w.tokenBytes, w.inputHcBytes, w.inputHcBits, w.routeCount, w.routeIndex,
   w.routeBytes]

def WorkFixed.ofWords : List UInt32 → Option WorkFixed
  | [a, b, c, d, e, f, g, h, i, j, k, l, m, n, o, p, q, r, s, t] =>
    some ⟨a, b, c, d, e, f, g, h, i, j, k, l, m, n, o, p, q, r, s, t⟩
  | _ => none

def WorkFixed.request (w : WorkFixed) : UInt64 := u64FromHalves w.requestHi w.requestLo
def WorkFixed.prefixHash (w : WorkFixed) : UInt64 := u64FromHalves w.prefixHashHi w.prefixHashLo
def WorkFixed.resultHash (w : WorkFixed) : UInt64 := u64FromHalves w.resultHashHi w.resultHashLo
def WorkFixed.has (w : WorkFixed) (flag : UInt32) : Bool := w.flags &&& flag != 0

def readWorkFixed (p : Bytes) : Option (WorkFixed × Bytes) :=
  match readFull workFixedBytes p with
  | none => none
  | some (b, p) => (WorkFixed.ofWords (unwords 20 b)).map fun w => (w, p)

/-! ## Sending -/

def workFrame (w : WorkFixed) (tokens : List UInt32) (hidden route : Bytes) : Bytes :=
  wireWords w.words ++ (wireWords tokens ++ (hidden ++ route))

def sendWork (k : Kernels) (w : WorkFixed) (tokens : List UInt32) (inputHc route : Bytes) : Option Bytes :=
  if w.nTokens = 0 then none
  else if 4294967295 < w.nTokens.toNat * 4 ∨ w.tokenBytes.toNat ≠ w.nTokens.toNat * 4 then none
  else
    let values := activationValues w.inputHcBits w.inputHcBytes.toNat
    if w.inputHcBytes ≠ 0 ∧ values = none then none
    else
      let frameBytes := workFixedBytes + w.tokenBytes.toNat + w.inputHcBytes.toNat + w.routeBytes.toNat
      if 4294967295 < frameBytes then none
      else
        let hidden := if w.inputHcBytes ≠ 0 then encodeActivation k inputHc (values.getD 0) w.inputHcBits else []
        some (frameHeader msgWork (UInt32.ofNat frameBytes) ++ workFrame w tokens hidden route)

/-! ## The worker -/

structure WorkerConfig where
  modelId : UInt32
  layerStart : UInt32
  layerEnd : UInt32
  hasOutput : Bool
  ctxSize : Nat
  nLayers : Nat
  vocabSize : Nat
  hiddenValues : Nat

structure ParsedWork where
  work : WorkFixed
  tokens : List UInt32
  inputHc : Bytes
  routeBlob : Bytes
  currentRoute : RouteEntry
  nextRoute : Option RouteEntry

/-- A frame is answered with an error, the connection is given up, or the work is taken on. -/
inductive WorkOutcome where
  | refused (request : UInt64) (err : String)
  | unusable
  | accepted (p : ParsedWork)

/-- The checks of the record, with `remaining` bytes behind it. -/
def headerError (cfg : WorkerConfig) (w : WorkFixed) (remaining : Nat) : Option String :=
  if w.tokenBytes.toNat ≠ w.nTokens.toNat * 4 ∨ w.tokenBytes.toNat + w.inputHcBytes.toNat + w.routeBytes.toNat ≠ remaining then
    some "invalid distributed WORK payload sizes"
  else if w.routeCount = 0 then some "WORK frame is missing distributed route"
  else if w.routeCount ≤ w.routeIndex then some "invalid distributed WORK route metadata"
  else if w.modelId ≠ cfg.modelId then
    some ("model id mismatch: work=" ++ toString w.modelId.toNat ++ " worker=" ++ toString cfg.modelId.toNat)
  else if w.layerStart ≠ cfg.layerStart ∨ w.layerEnd ≠ cfg.layerEnd then
    some ("worker is assigned layers " ++ toString cfg.layerStart.toNat ++ ":" ++ toString cfg.layerEnd.toNat ++
      " but request asked for " ++ toString w.layerStart.toNat ++ ":" ++ toString w.layerEnd.toNat)
  else if w.flags &&& ~~~workValidMask ≠ 0 then some "invalid distributed WORK flags"
  else if w.nTokens = 0 then some "WORK frame has no tokens"
  else if cfg.ctxSize < w.pos0.toNat ∨ cfg.ctxSize - w.pos0.toNat < w.nTokens.toNat then
    some "WORK token span exceeds worker context"
  else if w.has workInputHc && w.layerStart == 0 then some "layer 0 WORK must not provide input hidden-state"
  else if !w.has workInputHc && w.layerStart != 0 then some "nonzero layer WORK requires input hidden-state"
  else if w.has workOutputLogits && !cfg.hasOutput then some "worker was not assigned the output head"
  else if w.has workOutputLogits && (w.layerEnd + 1).toNat != cfg.nLayers then
    some "WORK logits require final transformer layer"
  else none

inductive TokenRead where
  | unusable
  | outside
  | read (tokens : List UInt32) (rest : Bytes)

def readTokens (vocabSize : Nat) : Nat → Bytes → TokenRead
  | 0, p => .read [] p
  | n + 1, p =>
    match readFull 4 p with
    | none => .unusable
    | some (b, p) =>
      let token := UInt32.ofNat (ntohl b)
      if 2147483647 < token.toNat ∨ vocabSize ≤ token.toNat then .outside
      else
        match readTokens vocabSize n p with
        | .read tokens rest => .read (token :: tokens) rest
        | r => r

def hiddenError (cfg : WorkerConfig) (w : WorkFixed) : Option String :=
  let values := w.nTokens.toNat * cfg.hiddenValues
  if 4294967295 < values * 4 then some "distributed hidden-state payload is too large"
  else if w.has workInputHc then
    match activationWireBytes w.inputHcBits values with
    | none => some "invalid distributed activation width"
    | some expected =>
      if w.inputHcBytes.toNat ≠ expected then some "input hidden-state size does not match token span" else none
  else if w.inputHcBytes ≠ 0 then some "WORK frame has hidden bytes without input flag"
  else none

/-- The route's entry for this worker, and the next one if there is one. -/
def parseRoute (cfg : WorkerConfig) (w : WorkFixed) (blob : Bytes) : Except String (RouteEntry × Option RouteEntry) := do
  let count := w.routeCount.toNat
  let index := w.routeIndex.toNat
  validateBlob blob count cfg.nLayers
  let current ← getEntry blob count index
  if current.layerStart ≠ w.layerStart.toNat ∨ current.layerEnd ≠ w.layerEnd.toNat then
    .error "WORK layer range does not match route entry"
  else if decide (current.flags % 2 ≠ 0) != w.has workOutputLogits then .error "WORK logits flag does not match route entry"
  else if index + 1 < count then do
    let next ← getEntry blob count (index + 1)
    if w.has workOutputLogits then .error "non-final route entry requested logits" else return (current, some next)
  else do
    let ret ← getReturnTarget blob count
    if ret.kind ≠ routeReturnUpstream then .error "unsupported final result destination" else return (current, none)

def decodeHidden (k : Kernels) (cfg : WorkerConfig) (w : WorkFixed) (wire : Bytes) : Except String Bytes :=
  if w.has workInputHc then do
    let decoded ← decodeActivation k wire w.inputHcBits
    if decoded.length ≠ w.nTokens.toNat * cfg.hiddenValues * 4 then
      .error "decoded input hidden-state size does not match token span"
    else return decoded
  else return []

def parseSections (k : Kernels) (cfg : WorkerConfig) (w : WorkFixed) (tokens : List UInt32) (p : Bytes) : WorkOutcome :=
  match readFull (if w.has workInputHc then w.inputHcBytes.toNat else 0) p with
  | none => .unusable
  | some (wire, p) =>
    match readFull w.routeBytes.toNat p with
    | none => .unusable
    | some (blob, _) =>
      match parseRoute cfg w blob with
      | .error err => .refused w.request err
      | .ok (current, next) =>
        match decodeHidden k cfg w wire with
        | .error err => .refused w.request err
        | .ok hidden => .accepted ⟨w, tokens, hidden, blob, current, next⟩

def hashOk (w : WorkFixed) (tokens : List UInt32) : Bool :=
  fnv.updateSpan w.prefixHash (tokens.map UInt32.toNat) == w.resultHash

def parseWork (k : Kernels) (cfg : WorkerConfig) (payload : Bytes) : WorkOutcome :=
  match readWorkFixed payload with
  | none => .refused 0 "truncated distributed WORK frame"
  | some (w, p) =>
    match headerError cfg w p.length with
    | some err => .refused w.request err
    | none =>
      match readTokens cfg.vocabSize w.nTokens.toNat p with
      | .unusable => .unusable
      | .outside => .refused w.request "WORK token id is outside the model vocabulary"
      | .read tokens p =>
        if !hashOk w tokens then .refused w.request "WORK token prefix hash metadata mismatch"
        else
          match hiddenError cfg w with
          | some err => .refused w.request err
          | none => parseSections k cfg w tokens p

/-- The outcome of a frame of `bytes` bytes, and the stream behind it; nothing where the stream ends before. -/
def handleWork (k : Kernels) (cfg : WorkerConfig) (bytes : UInt32) (fd : Bytes) : Option (WorkOutcome × Bytes) :=
  match readFull bytes.toNat fd with
  | none => none
  | some (payload, fd) => some (parseWork k cfg payload, fd)

/-- A worker's turn at a WORK frame. -/
def receiveWork (k : Kernels) (cfg : WorkerConfig) (fd : Bytes) : Option (WorkOutcome × Bytes) :=
  match readFrameHeader fd with
  | .frame type bytes fd => if type = msgWork then handleWork k cfg bytes fd else none
  | _ => none

theorem handleWork_boundary (k : Kernels) (cfg : WorkerConfig) {bytes : UInt32} {body : Bytes} (hlen : body.length = bytes.toNat)
    (rest : Bytes) : handleWork k cfg bytes (body ++ rest) = some (parseWork k cfg body, rest) := by
  rw [handleWork, readFull_append hlen]

/-! ## A frame is parsed as it was sent -/

/-- The hidden state the worker computes with. -/
def WorkFixed.hidden (k : Kernels) (cfg : WorkerConfig) (w : WorkFixed) (inputHc : Bytes) : Bytes :=
  if w.has workInputHc then transcode k inputHc (w.nTokens.toNat * cfg.hiddenValues) w.inputHcBits else []

/-- The worker's checks made on what was sent. -/
def judge (k : Kernels) (cfg : WorkerConfig) (w : WorkFixed) (tokens : List UInt32) (inputHc route : Bytes) : WorkOutcome :=
  match headerError cfg w (w.tokenBytes.toNat + w.inputHcBytes.toNat + w.routeBytes.toNat) with
  | some err => .refused w.request err
  | none =>
    if tokens.any fun t => decide (2147483647 < t.toNat) || decide (cfg.vocabSize ≤ t.toNat) then
      .refused w.request "WORK token id is outside the model vocabulary"
    else if !hashOk w tokens then .refused w.request "WORK token prefix hash metadata mismatch"
    else
      match hiddenError cfg w with
      | some err => .refused w.request err
      | none =>
        match parseRoute cfg w route with
        | .error err => .refused w.request err
        | .ok (current, next) => .accepted ⟨w, tokens, w.hidden k cfg inputHc, route, current, next⟩

/-- The buffers hold what the record says of them. -/
structure SentBuffers (w : WorkFixed) (tokens : List UInt32) (inputHc route : Bytes) : Prop where
  tokens : tokens.length = w.nTokens.toNat
  inputHc : ∀ values, activationValues w.inputHcBits w.inputHcBytes.toNat = some values → 4 * values ≤ inputHc.length
  route : route.length = w.routeBytes.toNat

theorem readWorkFixed_words (w : WorkFixed) (rest : Bytes) : readWorkFixed (wireWords w.words ++ rest) = some (w, rest) := by
  have hwords : unwords 20 (wireWords w.words) = w.words := unwords_words' rfl
  have hlen : (wireWords w.words).length = workFixedBytes := length_wireWords _
  rw [readWorkFixed, readFull_append hlen]
  dsimp only
  rw [hwords]
  rfl

theorem readTokens_words (vocabSize : Nat) (rest : Bytes) : ∀ tokens : List UInt32,
    readTokens vocabSize tokens.length (wireWords tokens ++ rest) =
      if tokens.any fun t => decide (2147483647 < t.toNat) || decide (vocabSize ≤ t.toNat) then .outside else .read tokens rest
  | [] => rfl
  | t :: tokens => by
    have ih := readTokens_words vocabSize rest tokens
    have hword : UInt32.ofNat (ntohl (word t)) = t := by
      have h := ntohl_word t []
      rwa [List.append_nil] at h
    rw [wireWords, List.flatMap_cons, List.append_assoc, ← wireWords, List.length_cons, readTokens,
      readFull_append (length_word t)]
    dsimp only
    rw [hword, List.any_cons]
    by_cases hout : 2147483647 < t.toNat ∨ vocabSize ≤ t.toNat
    · have htrue : (decide (2147483647 < t.toNat) || decide (vocabSize ≤ t.toNat)) = true := by simpa using hout
      rw [if_pos hout, htrue, Bool.true_or, if_pos rfl]
    · have hfalse : (decide (2147483647 < t.toNat) || decide (vocabSize ≤ t.toNat)) = false := by simpa using hout
      rw [if_neg hout, hfalse, Bool.false_or, ih]
      by_cases hany : (tokens.any fun t => decide (2147483647 < t.toNat) || decide (vocabSize ≤ t.toNat)) = true
      · rw [if_pos hany, if_pos hany]
      · rw [if_neg hany, if_neg hany]

theorem length_transcode {k : Kernels} {src : Bytes} {values : Nat} (bits : UInt32) (hsrc : 4 * values ≤ src.length) :
    (transcode k src values bits).length = values * 4 := by
  have hfloats := length_floats src
  have hmap : ∀ g : UInt32 → UInt32, (((floats src).take values).flatMap fun f => floatBytes (g f)).length = values * 4 := fun g => by
    have hfour : ∀ l : List UInt32, (l.flatMap fun f => floatBytes (g f)).length = l.length * 4 := fun l => by
      induction l with
      | nil => rfl
      | cons f l ih =>
        rw [List.flatMap_cons, List.length_append, ih, List.length_cons, floatBytes]
        simp only [List.length_cons, List.length_nil]
        omega
    rw [hfour, List.length_take]
    omega
  rw [transcode]
  split_ifs
  · rw [List.length_take]
    omega
  · exact hmap fun f => k.f16ToF32 (k.f32ToF16 f)
  · exact hmap fun f => k.f8ToF32 (k.f32ToF8 f)

/-- What stands for the hidden state in the frame. -/
def sentHidden (k : Kernels) (w : WorkFixed) (inputHc : Bytes) : Bytes :=
  if w.inputHcBytes ≠ 0 then
    encodeActivation k inputHc ((activationValues w.inputHcBits w.inputHcBytes.toNat).getD 0) w.inputHcBits
  else []

section
variable {k : Kernels} {cfg : WorkerConfig} {w : WorkFixed} {tokens : List UInt32} {inputHc route : Bytes}

theorem length_sentHidden (hbuf : SentBuffers w tokens inputHc route)
    (hvalues : w.inputHcBytes ≠ 0 → activationValues w.inputHcBits w.inputHcBytes.toNat ≠ none) :
    (sentHidden k w inputHc).length = w.inputHcBytes.toNat := by
  rw [sentHidden]
  by_cases hzero : w.inputHcBytes = 0
  · rw [if_neg (not_not_intro hzero), hzero]
    rfl
  · obtain ⟨values, hv⟩ := Option.ne_none_iff_exists'.mp (hvalues hzero)
    have hsrc := hbuf.inputHc values hv
    rw [if_pos hzero, hv, Option.getD_some]
    rw [activationValues] at hv
    cases hn : activationBytes w.inputHcBits with
    | none => rw [hn] at hv; exact nomatch hv
    | some n =>
      rw [hn] at hv
      dsimp only at hv
      split at hv
      · exact nomatch hv
      · next hmod =>
        obtain rfl := Option.some.inj hv
        rw [length_encode hn hsrc]
        exact Nat.div_mul_cancel (Nat.dvd_of_mod_eq_zero (not_not.mp hmod))

theorem decodeHidden_sent (hbuf : SentBuffers w tokens inputHc route) (herr : hiddenError cfg w = none) :
    (if w.has workInputHc then w.inputHcBytes.toNat else 0) = w.inputHcBytes.toNat ∧
    decodeHidden k cfg w (sentHidden k w inputHc) = .ok (w.hidden k cfg inputHc) := by
  rw [hiddenError] at herr
  split at herr
  · cases herr
  next hmax =>
  rw [decodeHidden, WorkFixed.hidden]
  cases hhas : w.has workInputHc with
  | false =>
    rw [hhas, if_neg (by decide)] at herr
    split at herr
    · cases herr
    · next hzero =>
      rw [not_not.mp hzero]
      exact ⟨rfl, rfl⟩
  | true =>
    refine ⟨rfl, ?_⟩
    rw [hhas, if_pos rfl, activationWireBytes] at herr
    cases hn : activationBytes w.inputHcBits with
    | none => rw [hn] at herr; cases herr
    | some n =>
      rw [hn] at herr
      dsimp only at herr
      by_cases hbig : 4294967295 < w.nTokens.toNat * cfg.hiddenValues * n
      · rw [if_pos hbig] at herr; cases herr
      rw [if_neg hbig] at herr
      dsimp only at herr
      split at herr
      · cases herr
      next hbytes =>
      rw [not_not] at hbytes
      have hpos : 0 < n := by
        rcases activationBytes_cases hn with ⟨rfl, -⟩ | ⟨rfl, -⟩ | ⟨rfl, -⟩ <;> decide
      have hv : activationValues w.inputHcBits w.inputHcBytes.toNat = some (w.nTokens.toNat * cfg.hiddenValues) := by
        rw [activationValues, hn, hbytes]
        dsimp only
        rw [Nat.mul_mod_left, if_neg (not_not_intro rfl), Nat.mul_div_left _ hpos]
      have hsrc := hbuf.inputHc _ hv
      have hsent : sentHidden k w inputHc = encodeActivation k inputHc (w.nTokens.toNat * cfg.hiddenValues) w.inputHcBits := by
        rw [sentHidden, hv, Option.getD_some]
        by_cases hzero : w.inputHcBytes = 0
        · have hnil := @length_encode k inputHc _ n w.inputHcBits hn hsrc
          rw [← hbytes, hzero] at hnil
          rw [if_neg (not_not_intro hzero)]
          exact (List.length_eq_zero_iff.mp hnil).symm
        · rw [if_pos hzero]
      rw [if_pos rfl, if_pos rfl, hsent, decode_encode k hn hsrc (Nat.not_lt.mp hmax)]
      simp only [bind, Except.bind]
      rw [length_transcode _ hsrc, if_neg (not_not_intro rfl)]
      rfl

theorem parseWork_sent (hbuf : SentBuffers w tokens inputHc route) (htokens : w.tokenBytes.toNat = w.nTokens.toNat * 4)
    (hvalues : w.inputHcBytes ≠ 0 → activationValues w.inputHcBits w.inputHcBytes.toNat ≠ none) :
    parseWork k cfg (workFrame w tokens (sentHidden k w inputHc) route) = judge k cfg w tokens inputHc route := by
  have hhidden := length_sentHidden (k := k) hbuf hvalues
  have hrest : (wireWords tokens ++ (sentHidden k w inputHc ++ route)).length =
      w.tokenBytes.toNat + w.inputHcBytes.toNat + w.routeBytes.toNat := by
    rw [List.length_append, List.length_append, length_wireWords, hhidden, hbuf.tokens, hbuf.route, htokens]
    omega
  rw [parseWork, workFrame, readWorkFixed_words]
  dsimp only
  rw [hrest, judge]
  cases headerError cfg w (w.tokenBytes.toNat + w.inputHcBytes.toNat + w.routeBytes.toNat) with
  | some err => rfl
  | none =>
    dsimp only
    rw [← hbuf.tokens, readTokens_words]
    by_cases hout : (tokens.any fun t => decide (2147483647 < t.toNat) || decide (cfg.vocabSize ≤ t.toNat)) = true
    · rw [if_pos hout, if_pos hout]
    · rw [if_neg hout, if_neg hout]
      dsimp only
      by_cases hhash : (!hashOk w tokens) = true
      · rw [if_pos hhash, if_pos hhash]
      · rw [if_neg hhash, if_neg hhash]
        cases herr : hiddenError cfg w with
        | some err => rfl
        | none =>
          obtain ⟨hsize, hdecode⟩ := decodeHidden_sent (k := k) hbuf herr
          dsimp only
          have hroute := readFull_append hbuf.route []
          rw [List.append_nil] at hroute
          rw [parseSections, hsize, readFull_append hhidden]
          dsimp only
          rw [hroute, hdecode]

/-- A work that could be sent, as the worker at the other end takes it. -/
theorem receiveWork_sent {frame : Bytes} (hbuf : SentBuffers w tokens inputHc route)
    (hsent : sendWork k w tokens inputHc route = some frame) (rest : Bytes) :
    receiveWork k cfg (frame ++ rest) = some (judge k cfg w tokens inputHc route, rest) := by
  rw [sendWork] at hsent
  split at hsent
  · exact nomatch hsent
  split at hsent
  · exact nomatch hsent
  next htokens =>
  rw [not_or, not_not] at htokens
  dsimp only at hsent
  split at hsent
  · exact nomatch hsent
  next hvalues =>
  split at hsent
  · exact nomatch hsent
  next hmax =>
  obtain rfl := Option.some.inj hsent
  have hvals : w.inputHcBytes ≠ 0 → activationValues w.inputHcBits w.inputHcBytes.toNat ≠ none := fun h hn => hvalues ⟨h, hn⟩
  have hlen : (workFrame w tokens (sentHidden k w inputHc) route).length =
      workFixedBytes + w.tokenBytes.toNat + w.inputHcBytes.toNat + w.routeBytes.toNat := by
    rw [workFrame, List.length_append, List.length_append, List.length_append, length_wireWords, length_wireWords,
      length_sentHidden hbuf hvals, hbuf.tokens, hbuf.route, htokens.2, workFixedBytes]
    simp only [WorkFixed.words, List.length_cons, List.length_nil]
    omega
  rw [receiveWork, List.append_assoc, readFrameHeader_frame]
  dsimp only
  rw [if_pos rfl, ← sentHidden, handleWork_boundary k cfg (hlen.trans (toNat_word (Nat.not_lt.mp hmax)).symm),
    parseWork_sent hbuf htokens.2 hvals]

end

/-! ## Frames through every hop -/

/-- A work reaches the worker as it was sent, and is taken on or refused for what was sent; a result passes every
    relay that waits for it and reaches the coordinator with the relays' records behind its own; and whatever
    a frame holds, it is read to its end and not beyond. -/
theorem frames_round_trip (k : Kernels) :
    (∀ cfg w tokens inputHc route frame, SentBuffers w tokens inputHc route →
      sendWork k w tokens inputHc route = some frame → ∀ rest,
      receiveWork k cfg (frame ++ rest) = some (judge k cfg w tokens inputHc route, rest)) ∧
    (∀ errlen debug request hash status kind bits ts payload frame hops, payload.length ≤ 4294967295 →
      sendWorkResult k request hash status kind bits ts payload = some frame →
      (∀ h : Hop, h ∈ hops → h.pending.request = request) →
      frame.length + telemetryFixedBytes * hops.length ≤ headerBytes + 4294967295 → ∀ rest,
      recvResult k errlen debug request (relays k hops frame ++ rest) =
        (resultAnswer k errlen hash status kind bits (if debug then ts ++ hops.map Hop.own else []) payload, rest)) ∧
    ∀ (type bytes : UInt32) (body : Bytes), body.length = bytes.toNat →
      (∀ cfg, ∃ outcome, ∀ rest, handleWork k cfg bytes (body ++ rest) = some (outcome, rest)) ∧
      (∀ errlen debug request, ∃ a, ∀ rest,
        recvResult k errlen debug request (frameHeader type bytes ++ (body ++ rest)) = (a, rest)) ∧
      ∀ wait queue, ∃ (written : Bytes) (queue' : List Pending) (goesOn : Bool), ∀ rest,
        relay k wait queue (frameHeader type bytes ++ (body ++ rest)) = ⟨written, queue', if goesOn then some rest else none⟩ := by
  refine ⟨?_, ?_, ?_⟩
  · intro cfg w tokens inputHc route frame hbuf hsent rest
    exact receiveWork_sent hbuf hsent rest
  · intro errlen debug request hash status kind bits ts payload frame hops hlen hsent hreq hfit rest
    exact result_through_relays k errlen debug hlen hsent hops hreq hfit rest
  · intro type bytes body hlen
    refine ⟨fun cfg => ⟨_, handleWork_boundary k cfg hlen⟩, ?_, ?_⟩
    · exact fun errlen debug request => recvResult_boundary k hlen errlen debug request
    · exact fun wait queue => relay_boundary k hlen wait queue

/-! ## Two layers on two machines -/

def truncating : Kernels where
  f32ToF16 f := UInt16.ofNat (f.toNat / 65536)
  f16ToF32 h := UInt32.ofNat (h.toNat * 65536)
  f32ToF8 f := UInt8.ofNat (f.toNat / 16777216)
  f8ToF32 b := UInt32.ofNat (b.toNat * 16777216)

/-- The worker of the second layer, a route to it, and one token for it. -/
def secondWorker : WorkerConfig :=
  { modelId := 1, layerStart := 1, layerEnd := 1, hasOutput := true, ctxSize := 8, nLayers := 2, vocabSize := 10, hiddenValues := 1 }

def oneHop : Bytes := records [⟨[65], 5000, 1, 1, 1⟩] ++ returnRecord

def oneToken : WorkFixed :=
  { modelId := 1, sessionHi := 0, sessionLo := 1, requestHi := 0, requestLo := 7
    prefixHashHi := hi32 fnv.init, prefixHashLo := lo32 fnv.init
    resultHashHi := hi32 (fnv.updateSpan fnv.init [5]), resultHashLo := lo32 (fnv.updateSpan fnv.init [5])
    pos0 := 0, nTokens := 1, layerStart := 1, layerEnd := 1, flags := 3, tokenBytes := 4, inputHcBytes := 4, inputHcBits := 32
    routeCount := 1, routeIndex := 0, routeBytes := 33 }

/-- The record of the worker at a place of the route. -/
def recordOf (routeIndex : UInt32) : Telemetry := ⟨routeIndex, routeIndex, routeIndex, 0, 1, 0, 0, 0, 4, 0⟩

def WorkOutcome.taken : WorkOutcome → Bool
  | .accepted _ => true
  | _ => false

theorem frames_one_token : (∃ frame, sendWork truncating oneToken [5] [1, 2, 3, 4] oneHop = some frame ∧
      ∀ rest, ∃ outcome, receiveWork truncating secondWorker (frame ++ rest) = some (outcome, rest) ∧ outcome.taken = true) ∧
    ∃ frame, sendWorkResult truncating 7 9 0 resultLogits 32 [recordOf 1] [1, 2, 3, 4] = some frame ∧
      ∀ rest, recvResult truncating 256 true 7 (relays truncating [⟨0, ⟨7, recordOf 0⟩, []⟩] frame ++ rest) =
        (.result resultLogits 9 [recordOf 1, recordOf 0] [1, 2, 3, 4], rest) := by
  have hsent : sendWorkResult truncating 7 9 0 resultLogits 32 [recordOf 1] [1, 2, 3, 4] =
      some (resultFrame ⟨0, 7, 0, 9, 0, resultLogits, 0, 0, 0, 32⟩ [recordOf 1] [1, 2, 3, 4]) := rfl
  refine ⟨⟨_, rfl, fun rest => ⟨judge truncating secondWorker oneToken [5] [1, 2, 3, 4] oneHop, ?_, ?_⟩⟩, _, hsent, fun rest => ?_⟩
  · exact (frames_round_trip truncating).1 secondWorker oneToken [5] [1, 2, 3, 4] oneHop _
      ⟨rfl, fun values h => by
        obtain rfl := Option.some.inj h
        decide, rfl⟩ rfl rest
  · decide
  · exact (frames_round_trip truncating).2.1 256 true 7 9 0 resultLogits 32 [recordOf 1] [1, 2, 3, 4] _ [⟨0, ⟨7, recordOf 0⟩, []⟩]
      (by decide) hsent (by decide) (by decide) rest

/-- The records stand in the order in which the result passes the workers, and a worker that refuses its work
    sends none. -/
theorem telemetry_not_per_worker :
    (∃ frame, sendWorkResult truncating 7 9 0 resultAck 0 [recordOf 1] [] = some frame ∧
      recvResult truncating 256 true 7 (relays truncating [⟨0, ⟨7, recordOf 0⟩, []⟩] frame) =
        (.result resultAck 9 [recordOf 1, recordOf 0] [], [])) ∧
    ∃ r, relays truncating [⟨0, ⟨7, recordOf 0⟩, []⟩] (sendWorkError truncating 7 "WORK frame has no tokens") =
      resultFrame r [recordOf 0] (utf8 "WORK frame has no tokens") := by
  constructor
  · have hsent : sendWorkResult truncating 7 9 0 resultAck 0 [recordOf 1] [] =
        some (resultFrame ⟨0, 7, 0, 9, 0, resultAck, 0, 0, 0, 0⟩ [recordOf 1] []) := rfl
    have h := result_through_relays truncating 256 true (by decide) hsent [⟨0, ⟨7, recordOf 0⟩, []⟩] (by decide) (by decide) []
    rw [List.append_nil] at h
    exact ⟨_, hsent, h⟩
  · refine ⟨⟨0, 7, 0, 0, 1, resultAck, 0, 0, 0, 0⟩, ?_⟩
    have hsent : sendWorkError truncating 7 "WORK frame has no tokens" =
        resultFrame ⟨0, 7, 0, 0, 1, resultAck, 0, 0, 0, 0⟩ [] (utf8 "WORK frame has no tokens") := by
      rfl
    have hfit : FrameFits ([] ++ [recordOf 0]) (utf8 "WORK frame has no tokens") := by
      rw [FrameFits]
      decide
    rw [hsent]
    exact relays_frame truncating [⟨0, ⟨7, recordOf 0⟩, []⟩] [] (by decide) hfit

end Ds4.Dist.Route
