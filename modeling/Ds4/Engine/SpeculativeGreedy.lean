import Ds4.Engine.DrafterState

/- The tokens of speculative greedy decoding in ds4.c: what a step of
   `ds4_session_eval_speculative_argmax` accepts, and what its session stands at
   afterwards. The graph's caches are named by the history they were filled with, a
   vector of logits by how it was computed: by a one-token step, or in a row of a
   batched forward, which need not agree. Drafts, outcomes of device calls and tests of
   the environment are answers from outside.

   Correspondence (C ↔ Lean), every function under its own name in camel case:
     `ds4_session_eval_speculative_argmax`, with its `_combined` and `_seq`,
     `ds4_session_eval_internal`, `metal_graph_verify_suffix_tops`,
     `metal_graph_verify_decode2_exact`, `metal_graph_eval_token_raw_swa`,
     `metal_graph_read_spec_logits_row`, `spec_frontier_snapshot`, `spec_frontier_restore`,
     `spec_frontier_commit_prefix1`, `spec_frontier_commit_prefix2`
     the greedy loop of `run_sampled_generation` in ds4_cli.c ↔ `generate`, `decodeStep`
   CPU and distributed sessions, which take one token a step, are left out, and so are
   counters, timing and the drafter's own state. What a roll-back does to each layer is
   not part of this model. -/
namespace Ds4.Engine.Greedy
open Drafter (Config)

/-- How a vector of logits was computed. -/
inductive Logits where
  | step (history : List Int)
  | row (base window : List Int) (i : Nat)

/-- The tokens whose continuation a vector of logits is about. -/
def Logits.history : Logits → List Int
  | .step h => h
  | .row base window i => base ++ window.take (i + 1)

structure Session where
  checkpoint : List Int
  checkpointValid : Bool
  /-- `s->logits`; `none` where a read has failed. -/
  logits : Option Logits
  /-- What the caches were filled with. -/
  frontier : Option (List Int)
  prefix1 : Option (List Int)
  prefix2 : Option (List Int)
  snapshot : Option (List Int)
  specLogits : List (Option Logits)
  mtpDraft : Option Int
  combinedPrevHcValid : Bool

/-- `missed`: a call of the device has failed and the code went on regardless. -/
structure World where
  session : Session
  missed : Bool

inductive Action where
  | set (f : Session → Session)
  | miss

def apply : Action → World → World
  | .set f, w => { w with session := f w.session }
  | .miss, w => { w with missed := true }

abbrev Op := Program Action World

def set (f : Session → Session) : Op Unit := .act (.set f) (.ret ())
def miss : Op Unit := .act .miss (.ret ())
def session : Op Session := .look fun w => .ret w.session
def askInt : Op Int := .ask .ret
def askBool : Op Bool := .ask fun n => .ret (n != 0)
/-- A count from outside, between two bounds. -/
def askCount (low high : Nat) : Op Nat := .ask fun n => .ret (max low (min high n.toNat))

def askTokens : Nat → Op (List Int)
  | 0 => return []
  | n + 1 => do
    let token ← askInt
    let tokens ← askTokens n
    return token :: tokens

/-! ## The device -/

/-- The caches, where they hold as many tokens as the call takes them for. -/
def Session.cacheAt (s : Session) (pos : Nat) : Option (List Int) := s.frontier.filter fun h => h.length == pos

/-- One token through the main model: whether the call succeeded, and the logits. -/
def evalToken (token : Int) (pos : Nat) : Op (Bool × Option Logits) := do
  let s ← session
  let ok ← askBool
  let filled := if ok then (s.cacheAt pos).map (· ++ [token]) else none
  set fun s => { s with frontier := filled }
  return (ok, filled.map .step)

def verifySuffix (start : Nat) (capturePrefix1 : Bool) : Op Bool := do
  let s ← session
  let ok ← askBool
  let base := if ok then s.cacheAt start else none
  let window := s.checkpoint.drop start
  set fun s =>
    { s with
      frontier := base.map (· ++ window)
      prefix1 := if capturePrefix1 && decide (2 ≤ window.length) then base.map (· ++ window.take 1) else s.prefix1
      prefix2 := if capturePrefix1 && decide (3 ≤ window.length) then base.map (· ++ window.take 2) else s.prefix2
      specLogits := (List.range window.length).map fun i => base.map (.row · window i) }
  return ok

/-- The exact verifier of two tokens: the logits behind the first one and behind both. -/
def verifyDecode2Exact (token0 token1 : Int) (start : Nat) : Op (Bool × Option Logits × Option Logits) := do
  let s ← session
  let ok ← askBool
  let base := if ok then s.cacheAt start else none
  set fun s => { s with frontier := base.map (· ++ [token0, token1]), prefix1 := base.map (· ++ [token0]) }
  return (ok, base.map fun h => .step (h ++ [token0]), base.map fun h => .step (h ++ [token0, token1]))

def readSpecLogitsRow (row : Nat) : Op (Bool × Option Logits) := do
  let s ← session
  let ok ← askBool
  return (ok, if ok then s.specLogits.getD row none else none)

def frontierSnapshot : Op Bool := do
  let ok ← askBool
  set fun s => { s with snapshot := if ok then s.frontier else none }
  return ok

def frontierRestore : Op Bool := do
  let ok ← askBool
  set fun s => { s with frontier := if ok then s.snapshot else none }
  return ok

def frontierCommitPrefix1 : Op Bool := do
  let ok ← askBool
  set fun s => { s with frontier := if ok then s.prefix1 else none }
  return ok

def frontierCommitPrefix2 : Op Bool := do
  let ok ← askBool
  set fun s => { s with frontier := if ok then s.prefix2 else none }
  return ok

/-- A restoration whose outcome the code does not look at. -/
def restoreUnseen : Op Unit := do
  let ok ← frontierRestore
  if ok then return () else miss

variable (top : Logits → Int)

/-- The arg max of logits; of logits that were never read it may be anything. -/
def topOf : Option Logits → Op Int
  | some l => return top l
  | none => askInt

/-- The loop over the row tops: how many drafts the rows agree with. -/
def agreeing : List (Option Logits) → List Int → Op Nat
  | row :: rows, draft :: drafts => do
    let rowTop ← topOf top row
    if rowTop = draft then
      let n ← agreeing rows drafts
      return n + 1
    else return 0
  | _, _ => return 0

/-! ## A token -/

/-- What a speculative step returns: the accepted tokens, -1, or -2. -/
inductive Rc where
  | accepted (tokens : List Int)
  | error
  | gap

def fail : Op Rc := do
  set fun s => { s with checkpointValid := false }
  return .error

/-- The drafter's guess behind an evaluated token. -/
def probeDraft (cfg : Config) (probeMtp : Bool) : Op Unit := do
  let drafted ← askBool
  let draft ← askInt
  set fun s => { s with mtpDraft := if probeMtp && cfg.mtpReady && drafted then some draft else s.mtpDraft }

def evalInternal (cfg : Config) (token : Int) (probeMtp : Bool) : Op Bool := do
  set fun s => { s with mtpDraft := if probeMtp then none else s.mtpDraft }
  let s ← session
  -- DS4_BATCH_DECODE in a session with the verifier's scratch
  let batchDecode ← askBool
  if batchDecode && decide (1 ≤ s.checkpoint.length) && decide ((s.checkpoint.length : Int) + 1 < cfg.ctxSize) then
    set fun t => { t with checkpoint := s.checkpoint ++ [token] }
    let verified ← verifySuffix s.checkpoint.length false
    let copied ← askBool
    let (read, logits) ← readSpecLogitsRow 0
    if verified && copied && read then
      set fun t => { t with logits := logits }
      probeDraft cfg probeMtp
      return true
    else
      set fun t => { t with checkpoint := s.checkpoint, logits := none, checkpointValid := false }
      return false
  else
    let (ok, logits) ← evalToken token s.checkpoint.length
    if ok then
      set fun t => { t with checkpoint := s.checkpoint ++ [token], logits := logits }
      probeDraft cfg probeMtp
      return true
    else
      set fun t => { t with logits := none, checkpointValid := false }
      return false

/-! ## Steps that verify drafts in one batch -/

/-- The accepted drafts, up to the end of the text and as many as there is room for. -/
def takeAccepted (eosToken : Int) : Nat → List Int → List Int
  | 0, _ => []
  | _, [] => []
  | n + 1, draft :: drafts => if draft = eosToken then [draft] else draft :: takeAccepted eosToken n drafts

/-- Back to the frontier behind a row of the batch; there is one behind the first two rows. -/
def rollBack (row : Nat) (all : Bool) : Op Bool :=
  if all then return true
  else if row = 0 then frontierCommitPrefix1
  else if row = 1 then frontierCommitPrefix2
  else return false

/-- The end of a batched step: `commit` drafts hold, the last of them in row `row`. -/
def commitBatch (base drafts : List Int) (commit row : Nat) : Op Bool := do
  set fun s => { s with checkpoint := base ++ drafts.take commit }
  let rolledBack ← rollBack row (decide (drafts.length ≤ commit))
  if rolledBack then
    let (read, logits) ← readSpecLogitsRow row
    let hcValid ← askBool
    if read then
      set fun s => { s with logits := logits, checkpointValid := true, mtpDraft := none, combinedPrevHcValid := hcValid }
      return true
    else return false
  else return false

def speculativeArgmaxCombined (cfg : Config) (firstToken maxTokens eosToken acceptedCap : Int) : Op Rc := do
  let s ← session
  let cascade ← askBool
  let drafted ← askBool
  let draftCap := min (min (min (if cascade then 2 else 1) (maxTokens - 1)) (acceptedCap - 1))
    (cfg.ctxSize - s.checkpoint.length - 1)
  if !s.combinedPrevHcValid || !cfg.hasPrevHc || decide (draftCap < 1) || !drafted then return .gap
  else
    let draftN ← askCount 1 draftCap.toNat
    let drafts ← askTokens draftN
    set fun t => { t with combinedPrevHcValid := false, mtpDraft := none, checkpoint := s.checkpoint ++ firstToken :: drafts }
    let ok ← verifySuffix s.checkpoint.length true
    if ok then
      let t ← session
      let commit ← agreeing top t.specLogits drafts
      let done ← commitBatch (s.checkpoint ++ [firstToken]) drafts commit commit
      if done then return .accepted (firstToken :: takeAccepted eosToken (acceptedCap - 1).toNat (drafts.take commit))
      else fail
    else
      set fun t => { t with checkpoint := s.checkpoint }
      fail

/-- The drafts that hold, where the logits in front of the batch have confirmed the first. -/
def commitDrafts (rows : List (Option Logits)) (drafts : List Int) : Op Nat := do
  let n ← agreeing top rows drafts.tail
  return n + 1

/-- `ds4_session_eval_speculative_argmax_seq` of an official DSpark drafter. -/
def speculativeArgmaxDspark (cfg : Config) (firstToken maxTokens eosToken acceptedCap : Int) : Op Rc := do
  let s ← session
  let depth ← askInt
  let draftCap := min (min (min depth (maxTokens - 1)) (acceptedCap - 1)) (cfg.ctxSize - s.checkpoint.length - 1)
  if draftCap ≤ 0 then return .gap
  else
    let evaluated ← evalInternal cfg firstToken false
    if !evaluated then return .error
    else if firstToken = eosToken ∨ maxTokens = 1 ∨ acceptedCap ≤ 1 then return .accepted [firstToken]
    else
      let s ← session
      -- what the drafter's confidence and the cost of a batch leave of the drafts
      let scheduled ← askCount 0 (min 5 draftCap.toNat)
      let drafts ← askTokens scheduled
      let target ← topOf top s.logits
      if drafts = [] then return .accepted [firstToken]
      else if drafts.head? ≠ some target then
        set fun t => { t with checkpointValid := true, mtpDraft := none }
        return .accepted [firstToken]
      else
        set fun t => { t with checkpoint := s.checkpoint ++ drafts }
        let ok ← verifySuffix s.checkpoint.length true
        if ok then
          let t ← session
          let agreed ← commitDrafts top t.specLogits drafts
          let commit := if agreed < scheduled ∧ 2 < agreed then 2 else agreed
          let done ← commitBatch s.checkpoint drafts commit (commit - 1)
          if done then
            return .accepted (firstToken :: takeAccepted eosToken (acceptedCap - 1).toNat (drafts.take commit))
          else fail
        else
          set fun t => { t with checkpoint := s.checkpoint }
          fail

/-- The loop of `ds4_session_eval_speculative_argmax_seq` for another drafter. The result of
    the main model's step is tested the other way round. -/
def chainDrafts (eosToken acceptedCap : Int) : Nat → Bool → List Int → Op Rc
  | 0, _, accepted => do
    set fun s => { s with checkpointValid := true, mtpDraft := none }
    return .accepted accepted
  | n + 1, first, accepted => do
    let drafted ← askBool
    let draft ← askInt
    if !drafted then
      if first then
        -- the step is left to the canonical one, which evaluates the first token again
        miss
        return .gap
      else chainDrafts eosToken acceptedCap 0 false accepted
    else
      let s ← session
      let (ok, logits) ← evalToken draft s.checkpoint.length
      if ok then
        set fun s => { s with logits := logits }
        fail
      else
        miss
        let target ← askInt
        set fun s =>
          { s with checkpoint := s.checkpoint ++ [target], logits := none, checkpointValid := true, mtpDraft := none }
        if target ≠ draft ∨ draft = eosToken ∨ acceptedCap ≤ accepted.length + 1 then
          return .accepted (accepted ++ [target])
        else chainDrafts eosToken acceptedCap n false (accepted ++ [target])

def speculativeArgmaxChain (cfg : Config) (firstToken maxTokens eosToken acceptedCap : Int) : Op Rc := do
  let s ← session
  let depth ← askInt
  let draftCap := min (min (min depth (maxTokens - 1)) (acceptedCap - 1)) (cfg.ctxSize - s.checkpoint.length - 1)
  if depth ≤ 1 ∨ draftCap ≤ 0 then return .gap
  else
    let evaluated ← evalInternal cfg firstToken true
    if !evaluated then return .error
    else
      let hcValid ← askBool
      set fun s => { s with combinedPrevHcValid := hcValid }
      if firstToken = eosToken ∨ maxTokens = 1 ∨ acceptedCap ≤ 1 then return .accepted [firstToken]
      else chainDrafts eosToken acceptedCap draftCap.toNat true [firstToken]

def speculativeArgmaxSeq (cfg : Config) (firstToken maxTokens eosToken acceptedCap : Int) : Op Rc :=
  if cfg.dsparkReady && cfg.dsparkKind then speculativeArgmaxDspark top cfg firstToken maxTokens eosToken acceptedCap
  else speculativeArgmaxChain cfg firstToken maxTokens eosToken acceptedCap

/-! ## The canonical step -/

/-- Drafts that hold are kept, and the step ends. -/
def keep (logits : Option Logits) (hcValid : Option Bool) : Op Unit :=
  set fun s =>
    { s with
      logits := logits
      checkpointValid := true
      mtpDraft := none
      combinedPrevHcValid := hcValid.getD s.combinedPrevHcValid }

/-- The replay of drafts one by one under DS4_MTP_EXACT_REPLAY, with the last logits. -/
def replayDrafts : List Int → Option Logits → Op (Bool × Option Logits)
  | [], logits => return (true, logits)
  | draft :: drafts, _ => do
    let s ← session
    let (ok, logits) ← evalToken draft s.checkpoint.length
    if ok then
      set fun s => { s with checkpoint := s.checkpoint ++ [draft] }
      replayDrafts drafts logits
    else return (false, logits)

/-- DS4_MTP_EXACT_REPLAY: the drafts that hold are evaluated again, one by one. -/
def exactReplay (start drafts : List Int) : Op Bool := do
  set fun s => { s with checkpoint := start }
  let restored ← frontierRestore
  if restored then
    let (ok, logits) ← replayDrafts drafts none
    if ok then
      keep logits none
      return true
    else
      miss
      return false
  else
    miss
    return false

/-- A batch that held to its end. -/
def commitAll (n : Nat) : Op Bool := do
  let (read, logits) ← readSpecLogitsRow (n - 1)
  let hcValid ← askBool
  if read then
    keep logits (some hcValid)
    return true
  else return false

/-- The first of two drafts held: back to the prefix behind it. -/
def commitPrefix (start drafts : List Int) : Op Bool := do
  set fun s => { s with checkpoint := start }
  let rolledBack ← frontierCommitPrefix1
  if rolledBack then
    let (read, logits) ← readSpecLogitsRow 0
    let hcValid ← askBool
    if read then
      keep logits (some hcValid)
      set fun s => { s with checkpoint := s.checkpoint ++ drafts.take 1 }
      return true
    else return false
  else return false

/-- The drafts that held are verified again, from the saved frontier. -/
def replayBatch (start drafts : List Int) : Op Bool := do
  set fun s => { s with checkpoint := start ++ drafts }
  let verified ← verifySuffix start.length false
  let (read, logits) ← readSpecLogitsRow (drafts.length - 1)
  if verified && read then
    keep logits none
    return true
  else return false

/-- The end of a batch that failed; `none` leaves the drafts to the sequential verifier. -/
def giveUp (start : List Int) (haveFrontier : Bool) : Op (Option Rc) := do
  set fun s => { s with checkpoint := start }
  if haveFrontier then
    restoreUnseen
    return none
  else
    let rc ← fail
    return some rc

/-- Where a batch has held in part. -/
def settleBatch (start drafts : List Int) (commit : Nat) (haveFrontier : Bool) : Op Bool :=
  if drafts.length = 2 ∧ commit = 1 then commitPrefix start drafts
  else do
    set fun s => { s with checkpoint := start }
    if haveFrontier then
      let restored ← frontierRestore
      if restored then replayBatch start (drafts.take commit)
      else return false
    else return false

/-- What a batch that verified commits. -/
def commitVerified (start drafts : List Int) (accepted : Nat → List Int) (commit : Nat) (haveFrontier : Bool) :
    Op (Option Rc) := do
  let all ← if commit = drafts.length then commitAll drafts.length else pure false
  if all then return some (.accepted (accepted commit))
  else
    let settled ← settleBatch start drafts commit haveFrontier
    if settled then return some (.accepted (accepted commit))
    else giveUp start haveFrontier

def microBatch (start drafts : List Int) (accepted : Nat → List Int) (haveFrontier : Bool) : Op (Option Rc) := do
  set fun s => { s with checkpoint := start ++ drafts }
  let ok ← verifySuffix start.length (decide (drafts.length = 2))
  if ok then
    let t ← session
    let commit ← commitDrafts top t.specLogits drafts
    let exactReplayDebug ← askBool
    let replayed ← if exactReplayDebug && haveFrontier then exactReplay start (drafts.take commit) else pure false
    if replayed then return some (.accepted (accepted commit))
    else commitVerified start drafts accepted commit haveFrontier
  else giveUp start haveFrontier

/-- The batched verifier. -/
def microVerify (start drafts : List Int) (accepted : Nat → List Int) : Op (Option Rc) := do
  let required ← askBool
  let snapshotRequired := required || decide (2 < drafts.length)
  if snapshotRequired then
    let haveFrontier ← frontierSnapshot
    if haveFrontier then microBatch top start drafts accepted true
    else return none
  else microBatch top start drafts accepted false

/-- Two drafts in strict mode. -/
def exactVerify (start : List Int) (draft0 draft1 : Int) (accepted : Nat → List Int) : Op (Option Rc) := do
  let haveFrontier ← frontierSnapshot
  if haveFrontier then
    let (ok, row0, row1) ← verifyDecode2Exact draft0 draft1 start.length
    let row0Top ← topOf top row0
    if ok && decide (row0Top = draft1) then
      keep row1 none
      set fun s => { s with checkpoint := start ++ [draft0, draft1] }
      return some (.accepted (accepted 2))
    else
      let committed ← if ok then frontierCommitPrefix1 else pure false
      if committed then
        keep row0 none
        set fun s => { s with checkpoint := start ++ [draft0] }
        return some (.accepted (accepted 1))
      else
        set fun s => { s with checkpoint := start }
        restoreUnseen
        return none
  else return none

/-- The end of the sequential verifier: the logits are read back if a draft held. -/
def sequentialEnd (accepted : List Int) (logits : Option Logits) (verified : Bool) : Op Rc := do
  if verified then
    let read ← askBool
    if read then
      set fun s => { s with logits := logits }
      return .accepted accepted
    else fail
  else return .accepted accepted

/-- Drafts verified one token at a time. -/
def sequentialVerify (eosToken acceptedCap : Int) : List Int → List Int → Option Logits → Bool → Op Rc
  | [], accepted, logits, verified => sequentialEnd accepted logits verified
  | draft :: drafts, accepted, logits, verified => do
    let target ← topOf top logits
    if acceptedCap ≤ accepted.length ∨ target ≠ draft then sequentialEnd accepted logits verified
    else
      let s ← session
      let (ok, next) ← evalToken draft s.checkpoint.length
      if ok then
        set fun s => { s with checkpoint := s.checkpoint ++ [draft] }
        if draft = eosToken then sequentialEnd (accepted ++ [draft]) next true
        else sequentialVerify eosToken acceptedCap drafts (accepted ++ [draft]) next true
      else fail

/-- The draft whose successor is too uncertain to verify. -/
def marginSkip (start : List Int) (firstToken draft : Int) : Op Rc := do
  let (ok, logits) ← evalToken draft start.length
  if ok then
    keep logits none
    set fun s => { s with checkpoint := start ++ [draft] }
    return .accepted [firstToken, draft]
  else fail

def canonicalArgmax (cfg : Config) (firstToken maxTokens eosToken acceptedCap : Int) : Op Rc := do
  let evaluated ← evalInternal cfg firstToken true
  if !evaluated then return .error
  else
    let hcValid ← askBool
    set fun s => { s with combinedPrevHcValid := hcValid }
    let s ← session
    -- the confidence gate, and the depth a confident DSpark drafter sets
    let skipped ← askBool
    let confident ← askCount 0 16
    let draftCap := if cfg.dsparkReady && decide (0 < confident) then (confident : Int)
      else min (min (min cfg.mtpDraftTokens (maxTokens - 1)) (acceptedCap - 1)) (cfg.ctxSize - s.checkpoint.length - 1)
    let target ← topOf top s.logits
    if firstToken = eosToken ∨ maxTokens = 1 ∨ acceptedCap ≤ 1 ∨ skipped = true ∨ cfg.mtpReady = false ∨
        cfg.mtpDraftTokens ≤ 1 ∨ draftCap ≤ 0 then return .accepted [firstToken]
    else
      match s.mtpDraft with
      | none => return .accepted [firstToken]
      | some draft =>
        set fun s => { s with mtpDraft := none }
        let draftN ← askCount 1 (if draft = eosToken then 1 else draftCap.toNat)
        let rest ← askTokens (draftN - 1)
        -- the chain of drafts stopped early
        let stopped ← askBool
        let uncertain ← askBool
        let exact ← askBool
        let start := s.checkpoint
        let accepted := fun commit =>
          firstToken :: takeAccepted eosToken (acceptedCap - 1).toNat ((draft :: rest).take commit)
        if target ≠ draft ∨ stopped = true then return .accepted [firstToken]
        else
          match rest with
          | [draft1] =>
            if uncertain then marginSkip start firstToken draft
            else
              let result ← if exact then exactVerify top start draft draft1 accepted
                else microVerify top start [draft, draft1] accepted
              match result with
              | some rc => return rc
              | none =>
                let t ← session
                sequentialVerify top eosToken acceptedCap [draft, draft1] [firstToken] t.logits false
          | rest =>
            let result ← microVerify top start (draft :: rest) accepted
            match result with
            | some rc => return rc
            | none =>
              let t ← session
              sequentialVerify top eosToken acceptedCap (draft :: rest) [firstToken] t.logits false

/-- A step that returned -2 is left to the next kind. -/
def Rc.orElse : Rc → Op Rc → Op Rc
  | .gap, next => next
  | rc, _ => return rc

def speculativeArgmax (cfg : Config) (firstToken maxTokens eosToken acceptedCap : Int) : Op Rc := do
  if maxTokens ≤ 0 ∨ acceptedCap ≤ 0 then return .accepted []
  else
    let s ← session
    -- strict mode, or speculation disabled by the environment
    let strict ← askBool
    let combined ← if !strict && cfg.mtpReady && cfg.mtpSpecReady && !cfg.dsparkReady && decide (cfg.mtpDraftTokens = 2) &&
        decide (2 ≤ maxTokens) && decide (2 ≤ acceptedCap) && decide (firstToken ≠ eosToken) &&
        decide ((s.checkpoint.length : Int) + 3 ≤ cfg.ctxSize)
      then speculativeArgmaxCombined top cfg firstToken maxTokens eosToken acceptedCap else pure .gap
    combined.orElse do
      let seq ← if (cfg.dsparkReady && cfg.mtpSpecReady) || decide (4 < cfg.mtpDraftTokens)
        then speculativeArgmaxSeq top cfg firstToken maxTokens eosToken acceptedCap else pure .gap
      seq.orElse (canonicalArgmax top cfg firstToken maxTokens eosToken acceptedCap)

/-! ## The greedy loop -/

def decodeStep (cfg : Config) (token maxTokens eosToken : Int) : Op Rc := do
  -- a drafter of two tokens or more, and no DS4_MTP_SPEC_DISABLE
  let speculative ← askBool
  if speculative then speculativeArgmax top cfg token maxTokens eosToken 17
  else
    let evaluated ← evalInternal cfg token true
    if evaluated then return .accepted [token] else return .error

/-- The tokens of a step that are printed, `n` at most, and whether the text has ended. -/
def printed (eosToken : Int) : Nat → List Int → List Int × Bool
  | 0, _ => ([], false)
  | _, [] => ([], false)
  | n + 1, token :: tokens =>
    if token = eosToken then ([], true)
    else (token :: (printed eosToken n tokens).1, (printed eosToken n tokens).2)

/-- Why the loop has stopped. -/
inductive Stop where
  | limit
  | eos
  | interrupted
  | failed

/-- `room` tokens at most; a step prints one at least, so that as many steps are enough. -/
def generate (cfg : Config) (eosToken : Int) : Nat → Nat → Op (List Int × Stop)
  | 0, _ => return ([], .limit)
  | _, 0 => return ([], .limit)
  | steps + 1, room + 1 => do
    let interrupted ← askBool
    let s ← session
    let token ← topOf top s.logits
    if interrupted then return ([], .interrupted)
    else if token = eosToken then return ([], .eos)
    else
      let rc ← decodeStep top cfg token (room + 1 : Nat) eosToken
      match rc with
      | .accepted tokens =>
        let shown := printed eosToken (room + 1) tokens
        if shown.2 then return (shown.1, .eos)
        else
          let rest ← generate cfg eosToken steps (room + 1 - shown.1.length)
          return (shown.1 ++ rest.1, rest.2)
      | _ => return ([], .failed)

end Ds4.Engine.Greedy
