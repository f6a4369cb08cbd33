import Ds4.Runs
import Ds4.Dist.Slice

/- The coordinator, the workers and the frames between them, for one distributed
   session. A hidden state travels as the record of how each hop made it, so that
   what a result was computed from can be read off the result. Frames are delivered
   in any order, lost at any time, and every evaluation, reset and restore may fail.

   Correspondence (C ↔ Lean):
     dist_worker_get_session_locked        ↔ getSession
     dist_worker_process_work_payload      ↔ processWork, System.deliver
     dist_forward_work_to_next             ↔ Work.forward
     dist_worker_handle_snapshot_load      ↔ handleSnapshotLoad
     dist_worker_clear_sessions            ↔ Event.reconnect
     dist_coordinator_eval_span,
     dist_coordinator_prefill_prompt_pipelined (one chunk)  ↔ System.submit
     dist_coordinator_eval_remote_on_fd (the result's side) ↔ System.accept -/
namespace Ds4.Dist

variable {H : Type} [DecidableEq H]

/-- What the parties are set up with: the hash and the context sizes. -/
structure Config (H : Type) where
  hash : TokenHash H
  ctxSize : Nat
  workerCtx : Nat → Nat

/-- How one hop made its output: who (`none` is the coordinator), from which KV, over
    which span. -/
structure Made where
  hop : Option Nat
  kv : Kv
  pos0 : Nat
  span : List Nat
  deriving DecidableEq

/-! ## Frames -/

/-- The part of `ds4_dist_work_fixed` that a hop acts on, with the route and the hidden state. -/
structure Work (H : Type) where
  requestId : Nat
  prefixHash : H
  resultHash : H
  pos0 : Nat
  tokens : List Nat
  resetSession : Bool
  route : List Nat
  routeIndex : Nat
  hidden : List Made

/-- The frame for the next hop: only its place on the route and the hidden state change. -/
def Work.forward (work : Work H) (made : Made) : Work H :=
  { work with routeIndex := work.routeIndex + 1, hidden := work.hidden ++ [made] }

structure Result (H : Type) where
  requestId : Nat
  resultHash : H
  trace : List Made

/-! ## A worker -/

/-- `token_hash` is there when `token_hash_valid` is set. -/
structure WorkerSession (H : Type) where
  session : SliceSession
  tokenHash : Option H

def getSession (ws : Option (WorkerSession H)) : WorkerSession H := ws.getD ⟨.create, none⟩

/-- What the worker's side leaves open: a frame refused before the session is looked up
    (layers, flags, vocabulary, the route, memory), else how the reset and the evaluation end. -/
inductive Fate where
  | refused
  | processed (resetOk : Bool) (outcome : Outcome)

/-- The frame's own checks: its span fits the worker and its two hashes belong together. -/
def Work.wellFormed (cfg : Config H) (worker : Nat) (work : Work H) : Bool :=
  work.tokens.length != 0 && work.pos0 ≤ cfg.workerCtx worker &&
    work.tokens.length ≤ cfg.workerCtx worker - work.pos0 &&
    cfg.hash.updateSpan work.prefixHash work.tokens == work.resultHash

/-- A WORK frame at its session, once the reset is done and `token_hash` is set. -/
def evalWork (cfg : Config H) (worker : Nat) (session : SliceSession) (tokenHash : H) (work : Work H)
    (outcome : Outcome) : WorkerSession H × Option Made :=
  if tokenHash ≠ work.prefixHash then (⟨session, some tokenHash⟩, none)
  else
    match session.evalLayerSlice (cfg.workerCtx worker) work.tokens work.pos0 outcome with
    | (after, true) => (⟨after, some work.resultHash⟩, some ⟨some worker, session.kv, work.pos0, work.tokens⟩)
    | (after, false) => (⟨after, none⟩, none)

/-- The session after a WORK frame, and how its output was made where there is one. -/
def processWork (cfg : Config H) (worker : Nat) (ws : Option (WorkerSession H)) (work : Work H) (fate : Fate) :
    Option (WorkerSession H) × Option Made :=
  match fate with
  | .refused => (ws, none)
  | .processed resetOk outcome =>
    if !work.wellFormed cfg worker then (ws, none)
    else
      let entry := getSession ws
      if work.resetSession then
        let session := entry.session.layerSliceReset resetOk
        -- a reset that fails leaves `token_hash` as it was
        if !resetOk then (some { entry with session := session }, none)
        else Prod.map some id (evalWork cfg worker session cfg.hash.init work outcome)
      else
        -- the timeline vouches for the hash again, whatever its own flag says
        let tokenHash := entry.tokenHash.getD (cfg.hash.ofPrefix entry.session.checkpoint)
        Prod.map some id (evalWork cfg worker entry.session tokenHash work outcome)

/-- The session after a snapshot, which may also be refused before the session is looked up. -/
def handleSnapshotLoad (cfg : Config H) (ws : Option (WorkerSession H)) (tokens : List Nat) (fate : Fate) :
    Option (WorkerSession H) :=
  match fate with
  | .refused => ws
  | .processed _ outcome =>
    match (getSession ws).session.loadLayerPayload tokens outcome with
    | (after, true) => some ⟨after, some (cfg.hash.ofPrefix tokens)⟩
    | (after, false) => some ⟨after, none⟩

/-! ## The whole system -/

/-- A span the coordinator sent out, with the tokens it stands on. -/
structure Submission (H : Type) where
  requestId : Nat
  before : List Nat
  span : List Nat
  expectedHash : H
  route : List Nat

structure System (H : Type) where
  coordinator : SliceSession
  nextRequest : Nat
  submitted : List (Submission H)
  workers : Nat → Option (WorkerSession H)
  works : List (Work H)
  results : List (Result H)
  accepted : List (Submission H × Result H)

def System.start : System H := ⟨.create, 1, [], fun _ => none, [], [], []⟩

inductive Event where
  /-- One span evaluated locally and sent down a route. -/
  | submit (reset : Bool) (span : List Nat) (route : List Nat) (resetOk : Bool) (outcome : Outcome)
  /-- The coordinator's own shard of a payload. -/
  | loadLocal (tokens : List Nat) (outcome : Outcome)
  /-- A worker's shard of a payload. -/
  | loadRemote (worker : Nat) (tokens : List Nat) (fate : Fate)
  /-- The `i`th WORK frame in flight reaches its worker. -/
  | deliver (i : Nat) (fate : Fate)
  /-- The `i`th WORK frame in flight is lost with its connection. -/
  | lose (i : Nat)
  /-- A worker drops its sessions. -/
  | reconnect (worker : Nat)
  /-- The coordinator, waiting for its `j`th request, reads the `i`th result. -/
  | accept (i j : Nat)

namespace System

/-- A span evaluated in `session` and, where there is a route, sent to its first worker. -/
def evalSpan (cfg : Config H) (sys : System H) (requestId : Nat) (session : SliceSession) (reset : Bool)
    (span route : List Nat) (outcome : Outcome) : System H :=
  let before := session.checkpoint
  let prefixHash := cfg.hash.ofPrefix before
  let resultHash := cfg.hash.updateSpan prefixHash span
  let sub : Submission H := ⟨requestId, before, span, resultHash, route⟩
  let made : Made := ⟨none, session.kv, before.length, span⟩
  match session.evalLayerSlice cfg.ctxSize span before.length outcome with
  | (after, false) => { sys with coordinator := after }
  | (after, true) =>
    let sys := { sys with coordinator := after, submitted := sys.submitted ++ [sub] }
    if route = [] then { sys with accepted := sys.accepted ++ [(sub, ⟨requestId, resultHash, [made]⟩)] }
    else { sys with works := sys.works ++ [⟨requestId, prefixHash, resultHash, before.length, span, reset, route, 0, [made]⟩] }

/-- A span stands on nothing after a reset, else on the whole timeline, which must be valid. -/
def submit (cfg : Config H) (sys : System H) (reset : Bool) (span route : List Nat) (resetOk : Bool)
    (outcome : Outcome) : System H :=
  let numbered := { sys with nextRequest := sys.nextRequest + 1 }
  if reset then
    let session := sys.coordinator.layerSliceReset resetOk
    if resetOk then numbered.evalSpan cfg sys.nextRequest session true span route outcome
    else { numbered with coordinator := session }
  else if sys.coordinator.checkpointValid then
    numbered.evalSpan cfg sys.nextRequest sys.coordinator false span route outcome
  else numbered

/-- The worker a frame is for. -/
def target (work : Work H) : Nat := work.route.getD work.routeIndex 0

/-- What a worker made goes to the next one, and from the last one back as the result. -/
def handOn (sys : System H) (work : Work H) (made : Made) : System H :=
  if work.routeIndex + 1 < work.route.length then { sys with works := sys.works ++ [work.forward made] }
  else { sys with results := sys.results ++ [⟨work.requestId, work.resultHash, work.hidden ++ [made]⟩] }

def deliver (cfg : Config H) (sys : System H) (i : Nat) (fate : Fate) : System H :=
  match sys.works[i]? with
  | none => sys
  | some work =>
    let out := processWork cfg (target work) (sys.workers (target work)) work fate
    let sys := { sys with works := sys.works.eraseIdx i, workers := Function.update sys.workers (target work) out.1 }
    match out.2 with
    | none => sys
    | some made => sys.handOn work made

def accept (sys : System H) (i j : Nat) : System H :=
  match sys.results[i]?, sys.submitted[j]? with
  | some result, some sub =>
    if result.requestId = sub.requestId ∧ result.resultHash = sub.expectedHash then
      { sys with accepted := sys.accepted ++ [(sub, result)] }
    else sys
  | _, _ => sys

def step (cfg : Config H) (sys : System H) : Event → System H
  | .submit reset span route resetOk outcome => sys.submit cfg reset span route resetOk outcome
  | .loadLocal tokens outcome => { sys with coordinator := (sys.coordinator.loadLayerPayload tokens outcome).1 }
  | .loadRemote worker tokens fate =>
    { sys with workers := Function.update sys.workers worker (handleSnapshotLoad cfg (sys.workers worker) tokens fate) }
  | .deliver i fate => sys.deliver cfg i fate
  | .lose i => { sys with works := sys.works.eraseIdx i }
  | .reconnect worker => { sys with workers := Function.update sys.workers worker none }
  | .accept i j => sys.accept i j

end System

end Ds4.Dist
