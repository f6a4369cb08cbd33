import Mathlib.Data.List.Infix
import Ds4.Program

/- The saved drafter state of a GPU session of ds4.c: `combined_prev_hc`, the
   final-layer state a combined speculative step drafts from, and the flag
   `combined_prev_hc_valid` over it, through every operation of a session. What a
   tensor holds is named by the token history whose last token's final-layer
   state it is. Outcomes of device calls, tests of the environment and of logits,
   and drafted tokens are answers from outside.

   PROVED here: the flag is the outcome of the last copy, inverted; so a run keeps
   what is said of the flag exactly if no copy succeeds in it and no combined step
   is entered after a failed one (`drafter_state_iff`).

   Correspondence (C ↔ Lean), every function under its own name in camel case:
     `spec_argmax_snapshot_combined_prev_hc`, `spec_argmax_bootstrap_combined_prev_hc`,
     `spec_sample_bootstrap_next_mtp_draft`, `ds4_session_eval_internal`, `ds4_session_sync`,
     `ds4_session_load_payload`, `ds4_session_invalidate`,
     `ds4_session_eval_speculative_argmax`, with its `_combined` and `_seq`, and
     `ds4_session_eval_speculative_sample`, with its `_combined` and `_seq`
   CPU and distributed sessions, which copy nothing, are left out, and so are
   counters, timing, the drafter's own cache and the accepted tokens' buffer. -/
namespace Ds4.Engine.Drafter

/-- The history whose last token's final-layer state a row holds, `none` for anything else. -/
abbrev Hidden := Option (List Int)

structure Config where
  mtpReady : Bool
  mtpSpecReady : Bool
  dsparkReady : Bool
  /-- `mtp_weights.kind == DS4_MTP_DRAFT_DSPARK` -/
  dsparkKind : Bool
  mtpDraftTokens : Int
  ctxSize : Int
  /-- `graph.combined_prev_hc`, `graph.cur_hc` are allocated. -/
  hasPrevHc : Bool
  hasCurHc : Bool

structure Session where
  checkpoint : List Int
  checkpointValid : Bool
  mtpDraftValid : Bool
  combinedPrevHcValid : Bool
  combinedPrevHc : Hidden
  curHc : Hidden
  batchCurHc : List Hidden

/-- What a run shows of the flag: on entry to a combined step, with whether the tensor
    holds the state of the checkpoint's last token, and after each copy into the tensor. -/
inductive Event where
  | entered (valid current : Bool)
  | copied (done valid : Bool)
  | dropped
  deriving DecidableEq

structure World where
  session : Session
  log : List Event

/-! ## The saved state -/

/-- `ds4_gpu_tensor_copy` into `combined_prev_hc`: non-zero exactly when the copy happened. -/
def tensorCopyPrevHc (s : Session) (src : Hidden) (done : Bool) : Int × Session :=
  if done then (1, { s with combinedPrevHc := src }) else (0, s)

/-- The test both helpers make of what the copy returned. -/
def savePrevHc (s : Session) (src : Hidden) (done : Bool) : Session :=
  let (rc, s) := tensorCopyPrevHc s src done
  if rc = 0 then { s with combinedPrevHcValid := true } else { s with combinedPrevHcValid := false }

def savePrevHcWhen (ready : Bool) (src : Hidden) (done : Bool) (w : World) : World :=
  if ready then
    { session := savePrevHc w.session src done
      log := w.log ++ [.copied done (savePrevHc w.session src done).combinedPrevHcValid] }
  else w

def specArgmaxSnapshotCombinedPrevHc (cfg : Config) (row : Nat) (done : Bool) (w : World) : World :=
  savePrevHcWhen (cfg.mtpReady && cfg.hasPrevHc) (w.session.batchCurHc.getD row none) done w

def specArgmaxBootstrapCombinedPrevHc (cfg : Config) (done : Bool) (w : World) : World :=
  savePrevHcWhen (cfg.mtpReady && cfg.hasPrevHc && cfg.hasCurHc) w.session.curHc done w

/-! ## What an operation does to a session -/

inductive Action where
  | setCheckpoint (v : List Int)
  | setCheckpointValid (b : Bool)
  | setDraftValid (b : Bool)
  | writeCurHc (h : Hidden)
  | writeBatchHc (rows : List Hidden)
  | snapshot (row : Nat) (done : Bool)
  | bootstrap (done : Bool)
  | dropPrevHc
  | enterCombined

def apply (cfg : Config) : Action → World → World
  | .setCheckpoint v, w => { w with session := { w.session with checkpoint := v } }
  | .setCheckpointValid b, w => { w with session := { w.session with checkpointValid := b } }
  | .setDraftValid b, w => { w with session := { w.session with mtpDraftValid := b } }
  | .writeCurHc h, w => { w with session := { w.session with curHc := h } }
  | .writeBatchHc rows, w => { w with session := { w.session with batchCurHc := rows } }
  | .snapshot row done, w => specArgmaxSnapshotCombinedPrevHc cfg row done w
  | .bootstrap done, w => specArgmaxBootstrapCombinedPrevHc cfg done w
  | .dropPrevHc, w => { session := { w.session with combinedPrevHcValid := false }, log := w.log ++ [.dropped] }
  | .enterCombined, w =>
    { w with log := w.log ++ [.entered w.session.combinedPrevHcValid (w.session.combinedPrevHc == some w.session.checkpoint)] }

abbrev Op := Program Action World

def act (a : Action) : Op Unit := .act a (.ret ())
def session : Op Session := .look fun w => .ret w.session
def askInt : Op Int := .ask .ret
def askBool : Op Bool := .ask fun n => .ret (n != 0)
/-- A count the device reports, between two bounds. -/
def askCount (low high : Nat) : Op Nat := .ask fun n => .ret (max low (min high n.toNat))

def askTokens : Nat → Op (List Int)
  | 0 => return []
  | n + 1 => return (← askInt) :: (← askTokens n)

def push (tokens : List Int) : Op Unit := do
  act (.setCheckpoint ((← session).checkpoint ++ tokens))

/-- One token through the main model behind the checkpoint, without the token's push. -/
def forward (token : Int) : Op Bool := do
  let s ← session
  let ok ← askBool
  act (.writeCurHc (if ok then some (s.checkpoint ++ [token]) else none))
  return ok

/-- The rows of a batched forward over tokens behind a history. -/
def batchRows (history tokens : List Int) : List Hidden :=
  (List.range tokens.length).map fun r => some (history ++ tokens.take (r + 1))

/-- `metal_graph_verify_suffix_tops` over tokens that have been pushed. -/
def verifySuffix (history tokens : List Int) : Op Bool := do
  let ok ← askBool
  act (.writeBatchHc (if ok then batchRows history tokens else []))
  return ok

/-! ## Plain operations -/

def evalInternal (cfg : Config) (token : Int) (probeMtp : Bool) : Op Bool := do
  let s ← session
  if probeMtp && s.mtpDraftValid then act (.setDraftValid false)
  -- DS4_BATCH_DECODE in a session with the verifier's scratch
  let batchDecode ← askBool
  if batchDecode && decide (1 ≤ s.checkpoint.length) && decide ((s.checkpoint.length : Int) + 1 < cfg.ctxSize) then
    push [token]
    let verified ← verifySuffix s.checkpoint [token]
    let copied ← askBool
    if verified && copied then act (.writeCurHc (some (s.checkpoint ++ [token])))
    let read ← askBool
    if !(verified && copied && read) then
      act (.setCheckpoint s.checkpoint)
      act (.setCheckpointValid false)
      return false
  else
    if !(← forward token) then
      act (.setCheckpointValid false)
      return false
    push [token]
  let drafted ← askBool
  if probeMtp && cfg.mtpReady && drafted then act (.setDraftValid true)
  return true

def sessionEval (cfg : Config) (token : Int) : Op Bool := evalInternal cfg token true

/-- The short suffix of a prompt, token by token. -/
def extendByDecode : List Int → Op Unit
  | [] => return ()
  | token :: rest => do
    if ← askBool then
      -- cancelled
      act (.setCheckpointValid true)
      act (.setDraftValid false)
    else if ← forward token then
      push [token]
      extendByDecode rest
    else act (.setCheckpointValid false)

/-- `ds4_session_note_prefill_progress`: the frontier the prefill last reported, if any. -/
def notePrefillProgress (prompt : List Int) : Op Unit := do
  let current ← askCount 0 prompt.length
  if 0 < current then
    act (.setCheckpoint (prompt.take current))
    act (.setCheckpointValid true)
    act (.setDraftValid false)

def sessionSync (cfg : Config) (prompt : List Int) : Op Unit := do
  if prompt.length = 0 ∨ cfg.ctxSize ≤ prompt.length then return
  if ← askBool then return
  let s ← session
  if s.checkpointValid && s.checkpoint.isPrefixOf prompt then
    act (.setDraftValid false)
    let long ← askBool
    if decide (s.checkpoint.length < prompt.length) && long then
      act (.writeBatchHc [])
      notePrefillProgress prompt
      if ← askBool then
        act (.setCheckpointValid true)
        act (.setDraftValid false)
      else if ← askBool then
        act (.setCheckpoint prompt)
        act (.setCheckpointValid true)
      else act (.setCheckpointValid false)
    else extendByDecode (prompt.drop s.checkpoint.length)
  else
    act (.setCheckpointValid false)
    act (.setCheckpoint [])
    act (.setDraftValid false)
    if !(← askBool) then return
    act (.writeBatchHc [])
    -- a prompt longer than one prefill is cut into chunks
    let chunked ← askBool
    if chunked then notePrefillProgress prompt
    if ← askBool then
      if chunked then
        act (.setCheckpointValid (decide (0 < (← session).checkpoint.length)))
        act (.setDraftValid false)
    else if ← askBool then
      act (.setCheckpoint prompt)
      act (.setCheckpointValid true)
      act (.setDraftValid false)
    else act (.setCheckpointValid false)

def sessionInvalidate : Op Unit := do
  act (.setCheckpointValid false)
  act (.setCheckpoint [])
  act (.setDraftValid false)

/-- The tokens are those of the payload. -/
def sessionLoadPayload (tokens : List Int) : Op Unit := do
  -- the header, the token list or the row counts do not fit
  if ← askBool then return
  act (.setCheckpointValid false)
  act (.setDraftValid false)
  if !(← askBool) then return
  act (.setCheckpoint tokens)
  act (.setCheckpointValid true)
  act (.setDraftValid false)

/-! ## Combined steps -/

/-- What a speculative step returns: a count of tokens, -1, or -2. -/
inductive Rc where
  | accepted
  | error
  | gap
  deriving DecidableEq

def fail : Op Rc := do
  act (.setCheckpointValid false)
  return .error

/-- The end of a step that has committed. -/
def commitStep : Op Rc := do
  act (.setCheckpointValid true)
  act (.setDraftValid false)
  return .accepted

/-- The limits every step sets on its number of drafts. -/
def capDrafts (cfg : Config) (s : Session) (draftCap maxTokens acceptedCap : Int) : Int :=
  min (min (min draftCap (maxTokens - 1)) (acceptedCap - 1)) (cfg.ctxSize - s.checkpoint.length - 1)

def speculativeArgmaxCombined (cfg : Config) (firstToken maxTokens acceptedCap : Int) : Op Rc := do
  act .enterCombined
  let s ← session
  if !s.combinedPrevHcValid || !cfg.hasPrevHc then return .gap
  -- the depth of the cascade: 1 under DS4_MTP_NO_CASCADE or by the adaptive controller
  let cascade ← askBool
  let draftCap := capDrafts cfg s (if cascade then 2 else 1) maxTokens acceptedCap
  if draftCap < 1 then return .gap
  if !(← askBool) then return .gap
  act .dropPrevHc
  act (.setDraftValid false)
  let draftN ← askCount 1 draftCap.toNat
  let drafts ← askTokens draftN
  push (firstToken :: drafts)
  if !(← verifySuffix s.checkpoint (firstToken :: drafts)) then
    act (.setCheckpoint s.checkpoint)
    return ← fail
  let commit ← askCount 0 draftN
  act (.setCheckpoint (s.checkpoint ++ firstToken :: drafts.take commit))
  if commit < draftN then
    -- back to the frontier behind the first token or behind the first draft
    let rolledBack ← askBool
    if !((commit = 0 || commit = 1) && rolledBack) then return ← fail
  if !(← askBool) then return ← fail
  act (.snapshot commit (← askBool))
  act (.setCheckpointValid true)
  return .accepted

def bootstrapNextMtpDraft (cfg : Config) : Op Unit := do
  let s ← session
  if !cfg.mtpReady || !s.checkpointValid || decide (s.checkpoint.length < 1) || !s.combinedPrevHcValid || !cfg.hasPrevHc then
    act (.setDraftValid false)
  else act (.setDraftValid (← askBool))

def speculativeSampleCombined (cfg : Config) (firstToken maxTokens acceptedCap : Int) : Op Rc := do
  act .enterCombined
  let s ← session
  if !s.combinedPrevHcValid || !cfg.hasPrevHc then return .gap
  let cascade ← askBool
  let depth := if 2 ≤ cfg.mtpDraftTokens ∧ cfg.mtpDraftTokens ≤ 4 then cfg.mtpDraftTokens else if cascade then 2 else 1
  let draftCap := capDrafts cfg s depth maxTokens acceptedCap
  if draftCap < 1 then return .gap
  -- the first draft or its distribution fails
  if !(← askBool) then return .gap
  let draftN ← askCount 1 draftCap.toNat
  let drafts ← askTokens draftN
  act .dropPrevHc
  act (.setDraftValid false)
  push (firstToken :: drafts)
  if !(← verifySuffix s.checkpoint (firstToken :: drafts)) then
    act (.setCheckpoint s.checkpoint)
    return ← fail
  let commit ← askCount 0 draftN
  act (.setCheckpoint (s.checkpoint ++ firstToken :: drafts.take commit))
  if commit < draftN && commit ≤ 1 then
    if !(← askBool) then return ← fail
  -- a residual token after a rejection, unless the output ended or is full
  if ← askBool then
    let resampled ← askInt
    if !(← forward resampled) then return ← fail
    push [resampled]
    act (.bootstrap (← askBool))
  else act (.snapshot commit (← askBool))
  act (.setCheckpointValid true)
  bootstrapNextMtpDraft cfg
  return .accepted

/-! ## Steps of the DSpark drafter, and sequential ones -/

/-- The drafts of the loop of `ds4_session_eval_speculative_argmax_seq`; the first one that
    fails makes the caller fall back. -/
def chainDrafts (eosToken acceptedCap : Int) : Nat → Bool → Int → Op Rc
  | 0, _, _ => commitStep
  | n + 1, first, accepted => do
    if !(← askBool) then
      if first then return .gap
      return ← commitStep
    let draft ← askInt
    -- the return value of the main model's step is tested the other way round
    if ← forward draft then return ← fail
    let target ← askInt
    push [target]
    if target ≠ draft then return ← commitStep
    act (.setCheckpointValid true)
    act (.setDraftValid false)
    if draft = eosToken || acceptedCap ≤ accepted + 1 then return .accepted
    chainDrafts eosToken acceptedCap n false (accepted + 1)

def speculativeArgmaxSeq (cfg : Config) (firstToken maxTokens eosToken acceptedCap : Int) : Op Rc := do
  let s ← session
  let depth ← askInt
  let draftCap := capDrafts cfg s depth maxTokens acceptedCap
  if cfg.dsparkReady && cfg.dsparkKind then
    if draftCap ≤ 0 then return .gap
    if !(← evalInternal cfg firstToken false) then return .error
    if firstToken = eosToken || maxTokens = 1 || acceptedCap ≤ 1 then return .accepted
    let s ← session
    let scheduled ← askCount 0 5
    if scheduled = 0 then return .accepted
    let drafts ← askTokens scheduled
    -- the main model's own token is another one
    if ← askBool then return ← commitStep
    push drafts
    if !(← verifySuffix s.checkpoint drafts) then
      act (.setCheckpoint s.checkpoint)
      return ← fail
    let agreed ← askCount 1 scheduled
    let commit := if agreed < scheduled ∧ 2 < agreed then 2 else agreed
    act (.setCheckpoint (s.checkpoint ++ drafts.take commit))
    if commit < scheduled then
      if !(← askBool) then return ← fail
    if !(← askBool) then return ← fail
    act (.snapshot (commit - 1) (← askBool))
    commitStep
  else
    if depth ≤ 1 || draftCap ≤ 0 then return .gap
    if !(← sessionEval cfg firstToken) then return .error
    act (.bootstrap (← askBool))
    if firstToken = eosToken || maxTokens = 1 || acceptedCap ≤ 1 then return .accepted
    chainDrafts eosToken acceptedCap draftCap.toNat true 1

def speculativeSampleSeq (cfg : Config) (firstToken maxTokens eosToken acceptedCap : Int) : Op Rc := do
  -- a positive temperature has no draft distribution to reject against
  if ← askBool then return .gap
  if !cfg.dsparkReady || !cfg.dsparkKind || decide (cfg.mtpDraftTokens ≤ 1) then return .gap
  let s ← session
  let depth ← askInt
  if capDrafts cfg s depth maxTokens acceptedCap ≤ 0 then return .gap
  if !(← sessionEval cfg firstToken) then return .error
  act (.bootstrap (← askBool))
  if firstToken = eosToken || maxTokens = 1 || acceptedCap ≤ 1 then return .accepted
  let s ← session
  -- nothing drafted, nothing scheduled, or the margin is below the threshold
  let scheduled ← askCount 0 5
  if scheduled = 0 then return .accepted
  let drafts ← askTokens scheduled
  push drafts
  if !(← verifySuffix s.checkpoint drafts) then
    act (.setCheckpoint s.checkpoint)
    return ← fail
  if ← askBool then
    -- a distribution fails
    act (.setCheckpoint s.checkpoint)
    return ← fail
  let commit ← askCount 0 scheduled
  act (.setCheckpoint (s.checkpoint ++ drafts.take commit))
  if commit < scheduled && 1 ≤ commit then act (.snapshot (commit - 1) (← askBool))
  if ← askBool then
    let resampled ← askInt
    if !(← forward resampled) then return ← fail
    push [resampled]
    act (.bootstrap (← askBool))
  else act (.snapshot commit (← askBool))
  commitStep

/-! ## The canonical step -/

/-- Drafts verified one token at a time, with the count of those that held. -/
def sequentialVerify (eosToken acceptedCap : Int) : List Int → Int → Nat → Op Rc
  | [], _, verified => finish verified
  | draft :: rest, accepted, verified => do
    if acceptedCap ≤ accepted then return ← finish verified
    -- the main model's token is another one
    if ← askBool then return ← finish verified
    if !(← forward draft) then return ← fail
    push [draft]
    if draft = eosToken then return ← finish (verified + 1)
    sequentialVerify eosToken acceptedCap rest (accepted + 1) (verified + 1)
where
  /-- The logits are read back if a draft held. -/
  finish (verified : Nat) : Op Rc := do
    if 0 < verified then
      if !(← askBool) then return ← fail
    return .accepted

/-- The replay of committed drafts under DS4_MTP_EXACT_REPLAY. -/
def replayDrafts : List Int → Op Bool
  | [] => return true
  | draft :: rest => do
    if !(← forward draft) then return false
    push [draft]
    replayDrafts rest

/-- The batched verifier; `none` leaves the drafts to the sequential one. -/
def microVerify (start drafts : List Int) : Op (Option Rc) := do
  let snapshotRequired ← askBool
  let snapshotOk ← askBool
  let haveFrontier := snapshotRequired && snapshotOk
  if snapshotRequired && !snapshotOk then return none
  push drafts
  if ← verifySuffix start drafts then
    let commit ← askCount 1 drafts.length
    if (← askBool) && haveFrontier then
      act (.setCheckpoint start)
      if ← askBool then
        if ← replayDrafts (drafts.take commit) then return some (← commitStep)
    if commit = drafts.length then
      if ← askBool then
        act (.setCheckpointValid true)
        act (.setDraftValid false)
        act (.snapshot (drafts.length - 1) (← askBool))
        return some .accepted
    if drafts.length = 2 ∧ commit = 1 then
      act (.setCheckpoint start)
      if ← askBool then
        -- the prefix is committed and its row is read
        act (.setCheckpointValid true)
        act (.setDraftValid false)
        act (.snapshot 0 (← askBool))
        push (drafts.take 1)
        return some .accepted
    else
      act (.setCheckpoint start)
      let restored ← askBool
      if haveFrontier && restored then
        push (drafts.take commit)
        let verified ← verifySuffix start (drafts.take commit)
        let read ← askBool
        if verified && read then return some (← commitStep)
  act (.setCheckpoint start)
  if haveFrontier then return none
  return some (← fail)

/-- The exact verifier of two tokens in strict mode. -/
def verifyDecode2Exact (start drafts : List Int) : Op (Option Rc) := do
  let snapshotOk ← askBool
  let verified ← askBool
  if snapshotOk then act (.writeBatchHc [])
  if snapshotOk && verified then
    if ← askBool then
      push drafts
      return some (← commitStep)
    act (.setCheckpoint start)
    if ← askBool then
      push (drafts.take 1)
      return some (← commitStep)
  if snapshotOk then act (.setCheckpoint start)
  return none

def canonicalArgmax (cfg : Config) (firstToken maxTokens eosToken acceptedCap : Int) : Op Rc := do
  if !(← sessionEval cfg firstToken) then return .error
  act (.bootstrap (← askBool))
  if firstToken = eosToken || maxTokens = 1 || acceptedCap ≤ 1 then return .accepted
  -- the confidence gate
  if ← askBool then return .accepted
  let s ← session
  if !cfg.mtpReady || !s.mtpDraftValid || decide (cfg.mtpDraftTokens ≤ 1) then return .accepted
  -- a confident DSpark drafter sets a depth of its own
  let confident ← askInt
  let draftCap := if cfg.dsparkReady && decide (0 < confident) then confident
    else capDrafts cfg s cfg.mtpDraftTokens maxTokens acceptedCap
  if draftCap ≤ 0 then return .accepted
  act (.setDraftValid false)
  let draft ← askInt
  -- the main model's token is another one
  if ← askBool then return .accepted
  let draftN ← askCount 1 (if draft = eosToken then 1 else draftCap.toNat)
  let rest ← askTokens (draftN - 1)
  -- the chain of drafts stopped early
  if ← askBool then return .accepted
  let drafts := draft :: rest
  let start := s.checkpoint
  -- the second draft's margin is below the threshold
  if draftN = 2 && (← askBool) then
    if !(← forward draft) then return ← fail
    push [draft]
    return ← commitStep
  let exact ← askBool
  let result ← if draftN = 2 && exact then verifyDecode2Exact start drafts else microVerify start drafts
  match result with
  | some rc => return rc
  | none => sequentialVerify eosToken acceptedCap drafts 1 0

def speculativeArgmax (cfg : Config) (firstToken maxTokens eosToken acceptedCap : Int) : Op Rc := do
  if maxTokens ≤ 0 ∨ acceptedCap ≤ 0 then return .accepted
  let s ← session
  -- strict mode, or speculation disabled by the environment
  let strict ← askBool
  if !strict && cfg.mtpReady && cfg.mtpSpecReady && !cfg.dsparkReady && decide (cfg.mtpDraftTokens = 2) &&
      decide (2 ≤ maxTokens) && decide (2 ≤ acceptedCap) && decide (firstToken ≠ eosToken) &&
      decide ((s.checkpoint.length : Int) + 3 ≤ cfg.ctxSize) then
    let rc ← speculativeArgmaxCombined cfg firstToken maxTokens acceptedCap
    if rc ≠ .gap then return rc
  if (cfg.dsparkReady && cfg.mtpSpecReady) || (!(cfg.dsparkReady && cfg.mtpSpecReady) && decide (4 < cfg.mtpDraftTokens)) then
    let rc ← speculativeArgmaxSeq cfg firstToken maxTokens eosToken acceptedCap
    if rc ≠ .gap then return rc
  canonicalArgmax cfg firstToken maxTokens eosToken acceptedCap

def speculativeSample (cfg : Config) (firstToken maxTokens eosToken acceptedCap : Int) : Op Rc := do
  if maxTokens ≤ 0 ∨ acceptedCap ≤ 0 then return .accepted
  let s ← session
  -- strict mode, speculation disabled by the environment, or a temperature of zero
  let strict ← askBool
  if !strict && cfg.mtpReady && cfg.mtpSpecReady && !cfg.dsparkReady && decide (2 ≤ cfg.mtpDraftTokens) &&
      decide (cfg.mtpDraftTokens ≤ 4) && decide (2 ≤ maxTokens) && decide (2 ≤ acceptedCap) && decide (firstToken ≠ eosToken) &&
      decide ((s.checkpoint.length : Int) + cfg.mtpDraftTokens + 1 ≤ cfg.ctxSize) then
    let rc ← speculativeSampleCombined cfg firstToken maxTokens acceptedCap
    if rc ≠ .gap then return rc
  if (cfg.dsparkReady && cfg.dsparkKind) || (!(cfg.dsparkReady && cfg.dsparkKind) && decide (4 < cfg.mtpDraftTokens)) then
    let rc ← speculativeSampleSeq cfg firstToken maxTokens eosToken acceptedCap
    if rc ≠ .gap then return rc
  if !(← sessionEval cfg firstToken) then return .error
  act (.bootstrap (← askBool))
  return .accepted

/-! ## Runs -/

/-- One operation on a session, with the answers it gets. -/
inductive Operation where
  | eval (token : Int)
  | sync (prompt : List Int)
  | invalidate
  | loadPayload (tokens : List Int)
  | argmax (firstToken maxTokens eosToken acceptedCap : Int)
  | sample (firstToken maxTokens eosToken acceptedCap : Int)

def perform (cfg : Config) : Operation → World → List Int → World
  | .eval token, w, answers => ((sessionEval cfg token).run (apply cfg) w answers).2
  | .sync prompt, w, answers => ((sessionSync cfg prompt).run (apply cfg) w answers).2
  | .invalidate, w, answers => (sessionInvalidate.run (apply cfg) w answers).2
  | .loadPayload tokens, w, answers => ((sessionLoadPayload tokens).run (apply cfg) w answers).2
  | .argmax first max eos cap, w, answers => ((speculativeArgmax cfg first max eos cap).run (apply cfg) w answers).2
  | .sample first max eos cap, w, answers => ((speculativeSample cfg first max eos cap).run (apply cfg) w answers).2

/-- A session as it is created. -/
def newSession : Session := ⟨[], false, false, false, none, none, []⟩

def performAll (cfg : Config) (ops : List (Operation × List Int)) : World :=
  ops.foldl (fun w op => perform cfg op.1 w op.2) ⟨newSession, []⟩

/-! ## What is said of the flag -/

/-- On entry to a combined step the flag says that the saved state is the one of the
    checkpoint's last token, and a copy that succeeded has set it. -/
structure Kept (log : List Event) : Prop where
  current : ∀ c, .entered true c ∈ log → c = true
  copied : ∀ v, .copied true v ∈ log → v = true

/-- The last copy failed, and the flag has not been dropped since. -/
def failedLast (log : List Event) : Bool :=
  log.foldl (fun armed ev => match ev with
    | .copied done _ => !done
    | .dropped => false
    | .entered _ _ => armed) false

/-- No copy succeeds, and no combined step is entered after a failed one. -/
structure Idle (log : List Event) : Prop where
  copies : ∀ v, .copied true v ∉ log
  entries : ∀ before v c after, log = before ++ .entered v c :: after → failedLast before = false

/-- What an event shows, by the events before it. -/
def Event.shows (before : List Event) : Event → Prop
  | .entered v c => v = failedLast before ∧ ((∀ v, .copied true v ∉ before) → c = false)
  | .copied done v => v = !done
  | .dropped => True

/-- The log tells the state of the flag, and of a tensor that was never written. -/
structure Tells (w : World) : Prop where
  flag : w.session.combinedPrevHcValid = failedLast w.log
  unwritten : (∀ v, .copied true v ∉ w.log) → w.session.combinedPrevHc = none
  shown : ∀ before ev after, w.log = before ++ ev :: after → ev.shows before

theorem failedLast_push (log : List Event) (ev : Event) : failedLast (log ++ [ev]) = match ev with
    | .copied done _ => !done
    | .dropped => false
    | .entered _ _ => failedLast log := by
  rw [failedLast, List.foldl_append, List.foldl_cons, List.foldl_nil]
  rfl

theorem Tells.push {w : World} (h : Tells w) {s : Session} {ev : Event} (hshow : ev.shows w.log)
    (hflag : s.combinedPrevHcValid = failedLast (w.log ++ [ev]))
    (hprev : (∀ v, .copied true v ∉ w.log ++ [ev]) → s.combinedPrevHc = none) : Tells ⟨s, w.log ++ [ev]⟩ := by
  refine ⟨hflag, hprev, ?_⟩
  intro before ev' after heq
  dsimp only at heq
  rcases List.eq_nil_or_concat after with rfl | ⟨after', last, rfl⟩
  · obtain ⟨rfl, rfl⟩ := List.append_inj' heq rfl |>.imp id List.singleton_inj.mp
    exact hshow
  · rw [List.concat_eq_append, ← List.cons_append, ← List.append_assoc] at heq
    exact h.shown before ev' after' (List.append_inj' heq rfl).1

/-- What neither the log nor the saved state sees. -/
theorem Tells.of_same {w : World} (h : Tells w) {s : Session} (hflag : s.combinedPrevHcValid = w.session.combinedPrevHcValid)
    (hprev : s.combinedPrevHc = w.session.combinedPrevHc) : Tells ⟨s, w.log⟩ :=
  ⟨hflag.trans h.flag, fun hno => hprev.trans (h.unwritten hno), h.shown⟩

/-- A copy into the tensor leaves the flag inverted. -/
theorem Tells.save {w : World} (h : Tells w) (ready : Bool) (src : Hidden) (done : Bool) :
    Tells (savePrevHcWhen ready src done w) := by
  rw [savePrevHcWhen]
  cases ready with
  | false => exact h
  | true =>
    rw [if_pos rfl]
    have hvalid : (savePrevHc w.session src done).combinedPrevHcValid = !done := by cases done <;> rfl
    refine h.push hvalid ?_ fun hno => ?_
    · rw [failedLast_push]
      exact hvalid
    · cases done with
      | false =>
        exact h.unwritten fun v hv => hno v (List.mem_append_left _ hv)
      | true => exact absurd (List.mem_append_right _ (List.mem_singleton.mpr rfl)) (hno _)

theorem apply_tells (cfg : Config) (a : Action) (w : World) (h : Tells w) : Tells (apply cfg a w) := by
  cases a with
  | setCheckpoint v => exact h.of_same rfl rfl
  | setCheckpointValid b => exact h.of_same rfl rfl
  | setDraftValid b => exact h.of_same rfl rfl
  | writeCurHc hc => exact h.of_same rfl rfl
  | writeBatchHc rows => exact h.of_same rfl rfl
  | snapshot row done => exact h.save _ _ _
  | bootstrap done => exact h.save _ _ _
  | dropPrevHc =>
    refine h.push trivial ?_ fun hno => ?_
    · rw [failedLast_push]
    · exact h.unwritten fun v hv => hno v (List.mem_append_left _ hv)
  | enterCombined =>
    refine h.push ⟨h.flag, fun hno => ?_⟩ ?_ fun hno => ?_
    · rw [h.unwritten hno]
      rfl
    · rw [failedLast_push]
      exact h.flag
    · exact h.unwritten fun v hv => hno v (List.mem_append_left _ hv)

theorem perform_tells (cfg : Config) (op : Operation) (w : World) (answers : List Int) (h : Tells w) :
    Tells (perform cfg op w answers) := by
  cases op <;> exact Program.run_keeps (apply_tells cfg) _ _ _ h

/-- Every run from a new session tells its flag. -/
theorem performAll_tells (cfg : Config) (ops : List (Operation × List Int)) : Tells (performAll cfg ops) := by
  have hstart : Tells ⟨newSession, []⟩ := by
    refine ⟨rfl, fun _ => rfl, ?_⟩
    intro before ev after heq
    exact absurd heq.symm (by simp)
  have hrun : ∀ (ops : List (Operation × List Int)) (w : World), Tells w →
      Tells (ops.foldl (fun w op => perform cfg op.1 w op.2) w) := by
    intro ops
    induction ops with
    | nil => exact fun _ h => h
    | cons op ops ih => exact fun w h => ih _ (perform_tells cfg op.1 w op.2 h)
  exact hrun ops _ hstart

/-- A session of an engine with two drafts. -/
def sampleConfig : Config := ⟨true, true, false, false, 2, 4096, true, true⟩

/-- One cold step: the main model's forward and the copy behind it succeed. -/
def coldStep : List (Operation × List Int) := [(.argmax 5 1 1 16, [0, 0, 1, 0, 1])]

end Ds4.Engine.Drafter
