import Ds4.Dist.Network

/- The coordinator's session API over the system of `Network`: sync, eval and load.
   What the outside decides during a call is the call's script: the route found, the
   chunk size, and the moves, in their order, of the network, of the local slice and
   of the result reader. A script that ends early is a call that gave up.

   Correspondence (C ↔ Lean):
     dist_coordinator_prefill_prompt_pipelined,
     the span loops of ds4_dist_session_sync and
     dist_coordinator_prefill_prompt             ↔ evalChunks
     dist_coordinator_can_pipeline_prefill       ↔ canPipeline
     dist_coordinator_rebuild_from_transcript    ↔ rebuildFromTranscript
     ds4_session_sync, ds4_dist_session_sync     ↔ sessionSync
     ds4_session_eval, ds4_dist_session_eval     ↔ sessionEval
     ds4_dist_session_load_payload               ↔ sessionLoadPayload -/
namespace Ds4.Dist

variable {H : Type} [DecidableEq H]

/-- Where `s->logits` come from. -/
inductive Logits where
  | unset
  | computed (trace : List Made)
  | restored (tokens : List Nat)
  deriving DecidableEq

/-- The coordinator's session on the distributed system. -/
structure Distributed (H : Type) where
  sys : System H
  logits : Logits

def Distributed.start : Distributed H := ⟨.start, .unset⟩

/-! ## Sending a list of spans -/

/-- What the network does on its own. -/
inductive Weather where
  | deliver (i : Nat) (fate : Fate)
  | lose (i : Nat)
  | reconnect (worker : Nat)

def Weather.event : Weather → Event
  | .deliver i fate => .deliver i fate
  | .lose i => .lose i
  | .reconnect worker => .reconnect worker

inductive Move where
  | net (w : Weather)
  /-- The local slice evaluates the next chunk, and the frame goes out. -/
  | send (resetOk : Bool) (outcome : Outcome)
  /-- The reader takes the `i`th result for the oldest chunk that waits; `headOk` is the
      local output head, where the route returns hidden states. -/
  | reply (i : Nat) (headOk : Bool)

/-- How the chunks of one call travel. -/
structure Attempt where
  route : List Nat
  reset : Bool
  pipelined : Bool

def sendChunk (cfg : Config H) (a : Attempt) (first resetOk : Bool) (chunk : List Nat) (outcome : Outcome)
    (st : Distributed H) : System H :=
  st.sys.submit cfg (a.reset && first) chunk a.route resetOk outcome

/-- The chunks still to send, the submissions that wait for their result, and whether all went well. -/
def evalChunks (cfg : Config H) (a : Attempt) (first : Bool) :
    List Move → List (List Nat) → List (Submission H) → Distributed H → Distributed H × Bool
  | [], todo, waiting, st => (st, todo.isEmpty && waiting.isEmpty)
  | .net w :: moves, todo, waiting, st =>
    evalChunks cfg a first moves todo waiting { st with sys := st.sys.step cfg w.event }
  | .send _ _ :: moves, [], waiting, st => evalChunks cfg a first moves [] waiting st
  | .send resetOk outcome :: moves, chunk :: todo, waiting, st =>
    -- without the pipeline the next chunk is evaluated after the result of the last
    if !a.pipelined && !waiting.isEmpty then evalChunks cfg a first moves (chunk :: todo) waiting st
    else
      let sys := sendChunk cfg a first resetOk chunk outcome st
      match sys.submitted.drop st.sys.submitted.length with
      | [] => ({ st with sys := sys }, false)
      | sub :: _ =>
        if a.route = [] then
          match sys.accepted.drop st.sys.accepted.length with
          | [] => ({ st with sys := sys }, false)
          | (_, result) :: _ => evalChunks cfg a false moves todo waiting ⟨sys, .computed result.trace⟩
        else evalChunks cfg a false moves todo (waiting ++ [sub]) { st with sys := sys }
  | .reply _ _ :: moves, todo, [], st => evalChunks cfg a first moves todo [] st
  | .reply i headOk :: moves, todo, sub :: waiting, st =>
    match st.sys.results[i]? with
    | none => (st, false)
    | some result =>
      if result.requestId = sub.requestId ∧ result.resultHash = sub.expectedHash then
        let st := { st with sys := { st.sys with accepted := st.sys.accepted ++ [(sub, result)] } }
        -- the pipeline keeps the result of its final chunk only
        if a.pipelined && !(todo.isEmpty && waiting.isEmpty) then evalChunks cfg a first moves todo waiting st
        else if headOk then evalChunks cfg a first moves todo waiting { st with logits := .computed result.trace }
        else (st, false)
      else (st, false)

/-- The tokens in chunks of `cap`, the last one shorter. -/
def spans (cap : Nat) : Nat → List Nat → List (List Nat)
  | 0, _ => []
  | _ + 1, [] => []
  | fuel + 1, token :: tokens => (token :: tokens).take cap :: spans cap fuel ((token :: tokens).drop cap)

def chunks (cap : Nat) (tokens : List Nat) : List (List Nat) := spans cap tokens.length tokens

/-! ## The calls -/

/-- `enabled` stands for the environment variable and the owner of the output head. -/
def canPipeline (enabled : Bool) (route : List Nat) (nTokens cap : Nat) : Bool :=
  enabled && cap != 0 && cap < nTokens && !route.isEmpty

/-- The outside of one attempt: the route, the pipeline switch and the moves. -/
structure Tries where
  route : List Nat
  pipeline : Bool
  moves : List Move

/-- The outside of one call: the first attempt where there is a route, the chunk size (0 where it
    is refused), and the replay where a new route is found after a failure. -/
structure Script where
  first : Option Tries
  chunkCap : Nat
  rebuild : Option Tries

def prefillPrompt (cfg : Config H) (cap : Nat) (t : Tries) (prompt : List Nat) (st : Distributed H) : Distributed H × Bool :=
  if cap = 0 then (st, false)
  else evalChunks cfg ⟨t.route, true, canPipeline t.pipeline t.route prompt.length cap⟩ true t.moves (chunks cap prompt) [] st

def rebuildFromTranscript (cfg : Config H) (script : Script) (transcript : List Nat) (st : Distributed H) :
    Distributed H × Bool :=
  match script.rebuild with
  | none => (st, false)
  | some t => prefillPrompt cfg script.chunkCap t transcript st

/-- An attempt, and a replay of the whole transcript where it fails. -/
def orRebuild (cfg : Config H) (script : Script) (transcript : List Nat) (tried : Distributed H × Bool) :
    Distributed H × Bool :=
  if tried.2 then tried else rebuildFromTranscript cfg script transcript tried.1

def sessionSync (cfg : Config H) (prompt : List Nat) (script : Script) (st : Distributed H) : Distributed H × Bool :=
  if prompt.length = 0 ∨ cfg.ctxSize ≤ prompt.length then (st, false)
  else
    match script.first with
    | none => (st, false)
    | some t =>
      let session := st.sys.coordinator
      if session.checkpointValid && session.checkpoint.isPrefixOf prompt then
        if session.checkpoint.length = prompt.length then (st, true)
        else if script.chunkCap = 0 then (st, false)
        else
          let suffix := prompt.drop session.checkpoint.length
          orRebuild cfg script prompt
            (evalChunks cfg ⟨t.route, false, canPipeline t.pipeline t.route suffix.length script.chunkCap⟩ true t.moves
              (chunks script.chunkCap suffix) [] st)
      else orRebuild cfg script prompt (prefillPrompt cfg script.chunkCap t prompt st)

def sessionEval (cfg : Config H) (token : Nat) (script : Script) (st : Distributed H) : Distributed H × Bool :=
  if !st.sys.coordinator.checkpointValid then (st, false)
  else
    match script.first with
    | none => (st, false)
    | some t =>
      orRebuild cfg script (st.sys.coordinator.checkpoint ++ [token])
        (evalChunks cfg ⟨t.route, false, false⟩ true t.moves [[token]] [] st)

/-- The shards of the workers, in the order of the route, up to the first that fails; `replyOk`
    is the answer on the snapshot connection. -/
def loadShards (cfg : Config H) (tokens : List Nat) : List (Nat × Fate × Bool) → System H → System H × Bool
  | [], sys => (sys, true)
  | (worker, fate, replyOk) :: shards, sys =>
    let sys := sys.step cfg (.loadRemote worker tokens fate)
    match fate with
    | .processed _ .done => if replyOk then loadShards cfg tokens shards sys else (sys, false)
    | _ => (sys, false)

/-- The outside of a load: whether the header and the tables are good, how the local shard
    ends, the remote shards, and whether the payload ends there. -/
structure LoadScript where
  headerOk : Bool
  outcome : Outcome
  shards : List (Nat × Fate × Bool)
  endOk : Bool

/-- A payload of the KV and the logits of `tokens`. -/
def sessionLoadPayload (cfg : Config H) (tokens : List Nat) (script : LoadScript) (st : Distributed H) :
    Distributed H × Bool :=
  if !script.headerOk || cfg.ctxSize ≤ tokens.length then (st, false)
  else
    let sys := st.sys.step cfg (.loadLocal tokens script.outcome)
    if script.outcome ≠ .done then ({ st with sys := sys }, false)
    else
      match loadShards cfg tokens script.shards sys with
      | (sys, false) => ({ st with sys := sys }, false)
      | (sys, true) => if script.endOk then (⟨sys, .restored tokens⟩, true) else ({ st with sys := sys }, false)

end Ds4.Dist
