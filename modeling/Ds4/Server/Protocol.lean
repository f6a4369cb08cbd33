/- The lifecycle of a request: the state machine of ds4_protocol_state.c, the
   server's use of it, and the worker's path through `generate_job`.

   Correspondence (C ↔ Lean):
     `ds4_protocol_phase`, `ds4_protocol_state`         ↔ `Phase`, `ProtocolState`
     `ds4_protocol_is_terminal`, `transition_allowed`   ↔ `isTerminal`, `transitionAllowed`
     `ds4_protocol_state_init`, `ds4_protocol_transition`, `ds4_protocol_begin_recovery`,
     `ds4_protocol_finish`, `ds4_protocol_progress`     ↔ `protocolStateInit`, `protocolTransition`, …
     `server_protocol_transition`, …                    ↔ `serverProtocolTransition`, …
     `generate_job`, `worker_main`                      ↔ `generateJob`, `workerMain`
   `generate_job` is here as its lifecycle: each return, each call of the state
   machine and each `goto decode_again`, in the order of the source. What the model,
   the session, the socket and the clock decide on the way is in `JobEvents` and
   `DecodePass`, and any values may stand there. The two time stamps of a state
   decide nothing and are left out. -/
namespace Ds4.Server

inductive Phase where
  | queued
  | prefill
  | decode
  | recovery
  | serialize
  | complete
  | error
  | cancelled
  deriving DecidableEq, Repr

structure ProtocolState where
  requestId : Nat
  phase : Phase
  toolsEnabled : Bool
  recoveryAttempted : Bool
  terminal : Bool
  promptTokens : Int
  completionTokens : Int
  deriving DecidableEq, Repr

def isTerminal (phase : Phase) : Bool := phase = .complete || phase = .error || phase = .cancelled

def transitionAllowed (old next : Phase) : Bool :=
  if isTerminal old then false
  else if isTerminal next then true
  else
    match old with
    | .queued => next = .prefill || next = .serialize
    | .prefill => next = .decode || next = .serialize
    | .decode => next = .recovery || next = .serialize
    | .recovery => next = .decode || next = .serialize
    | _ => false

def protocolStateInit (requestId : Nat) (toolsEnabled : Bool) : ProtocolState :=
  { requestId, phase := .queued, toolsEnabled, recoveryAttempted := false, terminal := false, promptTokens := 0,
    completionTokens := 0 }

def protocolTransition (state : ProtocolState) (next : Phase) : ProtocolState × Bool :=
  if transitionAllowed state.phase next then ({ state with phase := next }, true) else (state, false)

def protocolBeginRecovery (state : ProtocolState) : ProtocolState × Bool :=
  if state.recoveryAttempted || state.phase ≠ .decode then (state, false)
  else protocolTransition { state with recoveryAttempted := true } .recovery

def protocolFinish (state : ProtocolState) (terminal : Phase) : ProtocolState × Bool :=
  if !isTerminal terminal || state.terminal then (state, false)
  else
    match protocolTransition state terminal with
    | (state', true) => ({ state' with terminal := true }, true)
    | (state', false) => (state', false)

def protocolProgress (state : ProtocolState) (promptTokens completionTokens : Int) : ProtocolState :=
  if state.terminal then state
  else
    { state with
      promptTokens := if promptTokens ≥ 0 then promptTokens else state.promptTokens
      completionTokens := if completionTokens ≥ 0 then completionTokens else state.completionTokens }

/-! ## The server -/

structure Counters where
  activeProtocol : ProtocolState
  completedRequests : Nat
  failedRequests : Nat
  cancelledRequests : Nat
  deriving DecidableEq, Repr

/-- The worker with its job. `history` has the job's state after every call so far,
   the first one as it was queued. -/
structure Worker where
  server : Counters
  protocol : ProtocolState
  history : List ProtocolState

/-- The job's state after a call, published when the call says so. -/
def Worker.note (w : Worker) (p : ProtocolState) (publish : Bool) : Worker :=
  { server := { w.server with activeProtocol := if publish then p else w.server.activeProtocol }
    protocol := p
    history := w.history ++ [p] }

def serverProtocolTransition (w : Worker) (phase : Phase) : Worker × Bool :=
  let (p, ok) := protocolTransition w.protocol phase
  (w.note p ok, ok)

def serverProtocolBeginRecovery (w : Worker) : Worker × Bool :=
  let (p, ok) := protocolBeginRecovery w.protocol
  (w.note p ok, ok)

def serverProtocolProgress (w : Worker) (promptTokens completionTokens : Int) : Worker :=
  w.note (protocolProgress w.protocol promptTokens completionTokens) true

/-- The counter an outcome goes to. -/
def Counters.count (s : Counters) (phase : Phase) : Counters :=
  if phase = .complete then { s with completedRequests := s.completedRequests + 1 }
  else if phase = .cancelled then { s with cancelledRequests := s.cancelledRequests + 1 }
  else { s with failedRequests := s.failedRequests + 1 }

def serverProtocolFinish (w : Worker) (phase : Phase) : Worker × Bool :=
  let (p, ok) := protocolFinish w.protocol phase
  let w' := w.note p ok
  (if ok then { w' with server := w'.server.count phase } else w', ok)

/-! ## A job -/

inductive RequestKind where
  | chat
  | completion
  | steeringControl
  deriving DecidableEq, Repr

inductive RequestApi where
  | openai
  | anthropic
  | responses
  deriving DecidableEq, Repr

structure JobRequest where
  kind : RequestKind
  api : RequestApi
  stream : Bool
  hasTools : Bool

def requestUsesOpenaiLiveStream (r : JobRequest) : Bool := r.stream && r.api = .openai && r.kind = .chat

/-- What one pass from `decode_again` on meets. -/
structure DecodePass where
  /-- The counts published while decoding: one a token, and one each fifty. -/
  published : List Int
  completion : Int
  /-- A tool block was opened, not closed, and not repaired. -/
  unterminated : Bool
  /-- The text with its tool block does not parse. -/
  invalidCall : Bool
  /-- A parsed call would leave a pipe open. -/
  pipeRisk : Bool
  /-- Whether `continue_after_invalid_dsml` appends its reminder, at each of the three. -/
  appendedUnterminated : Bool
  appendedInvalid : Bool
  appendedPipeRisk : Bool
  /-- `final_finish` is "error" for another reason. -/
  errorFinish : Bool

inductive SyncResult where
  | done
  | interrupted
  | failed
  deriving DecidableEq, Repr

/-- What `generate_job` and the worker meet on the way. -/
structure JobEvents where
  /-- The steering profile cannot be selected: 400. -/
  steeringRejected : Bool
  /-- The live tool state the request needs is gone: 409. -/
  liveStateGone : Bool
  /-- The counts the prefill callback publishes. -/
  prefilled : List Int
  sync : SyncResult
  prefillStopRequested : Bool
  prefillStreamFailed : Bool
  prefillTimedOut : Bool
  promptTokens : Int
  /-- The headers or a first event could not be written. -/
  streamStartFailed : Bool
  passes : Nat → DecodePass
  responseOk : Bool
  finishStopRequested : Bool
  workerStopRequested : Bool

inductive Recovery where
  | refused
  | failed
  | again
  deriving DecidableEq, Repr

/-- One of the three places that may send the decoder back with a tool error. -/
def tryRecovery (r : JobRequest) (attempted appended : Bool) (w : Worker) : Worker × Recovery :=
  if (!r.stream || requestUsesOpenaiLiveStream r) && !attempted then
    match serverProtocolBeginRecovery w with
    | (w', true) => (w', if appended then .again else .failed)
    | (w', false) => (w', .refused)
  else (w, .refused)

inductive PassEnd where
  | again
  | ended (completion : Int) (error : Bool)
  deriving DecidableEq, Repr

/-- The pipe check, the last of the three places. -/
def pipeRiskEnd (r : JobRequest) (pass : DecodePass) (attempted error : Bool) (w : Worker) : Worker × PassEnd :=
  if r.kind = .chat && pass.pipeRisk then
    match tryRecovery r attempted pass.appendedPipeRisk w with
    | (w', .again) => (w', .again)
    | (w', _) => (w', .ended pass.completion true)
  else (w, .ended pass.completion error)

/-- The parse of the text, the second of the three. -/
def parseEnd (r : JobRequest) (pass : DecodePass) (attempted : Bool) (w : Worker) : Worker × PassEnd :=
  if r.kind = .chat && r.hasTools && pass.invalidCall then
    match tryRecovery r attempted pass.appendedInvalid w with
    | (w', .again) => (w', .again)
    | (w', .failed) => pipeRiskEnd r pass attempted true w'
    | (w', .refused) => pipeRiskEnd r pass attempted pass.errorFinish w'
  else pipeRiskEnd r pass attempted pass.errorFinish w

/-- From `decode_again` to the response, or to the next `goto decode_again`. -/
def decodePass (r : JobRequest) (promptTokens : Int) (pass : DecodePass) (attempted : Bool) (w : Worker) :
    Worker × PassEnd :=
  let w := if w.protocol.phase = .recovery then (serverProtocolTransition w .decode).1 else w
  let w := pass.published.foldl (fun w completion => serverProtocolProgress w promptTokens completion) w
  if r.kind = .chat && r.hasTools && pass.unterminated then
    match tryRecovery r attempted pass.appendedUnterminated w with
    | (w', .again) => (w', .again)
    | (w', _) => parseEnd r pass attempted w'
  else parseEnd r pass attempted w

theorem tryRecovery_again {r : JobRequest} {attempted appended : Bool} {w w' : Worker}
    (h : tryRecovery r attempted appended w = (w', .again)) : attempted = false := by
  cases attempted with
  | false => rfl
  | true => simp [tryRecovery] at h

theorem pipeRiskEnd_again {r : JobRequest} {pass : DecodePass} {attempted error : Bool} {w w' : Worker}
    (h : pipeRiskEnd r pass attempted error w = (w', .again)) : attempted = false := by
  unfold pipeRiskEnd at h
  split at h
  next =>
    split at h
    next _ hrec => exact tryRecovery_again hrec
    next => simp at h
  next => simp at h

theorem parseEnd_again {r : JobRequest} {pass : DecodePass} {attempted : Bool} {w w' : Worker}
    (h : parseEnd r pass attempted w = (w', .again)) : attempted = false := by
  unfold parseEnd at h
  split at h
  next =>
    split at h
    next _ hrec => exact tryRecovery_again hrec
    next => exact pipeRiskEnd_again h
    next => exact pipeRiskEnd_again h
  next => exact pipeRiskEnd_again h

/-- A pass is repeated only when none was before it. -/
theorem decodePass_again {r : JobRequest} {promptTokens : Int} {pass : DecodePass} {attempted : Bool} {w w' : Worker}
    (h : decodePass r promptTokens pass attempted w = (w', .again)) : attempted = false := by
  simp only [decodePass] at h
  split at h
  next =>
    split at h
    next _ hrec => exact tryRecovery_again hrec
    next => exact parseEnd_again h
  next => exact parseEnd_again h

/-- The passes from the `n`th on. `dsml_recovery_attempted` bounds them. -/
def decodeAgain (r : JobRequest) (promptTokens : Int) (passes : Nat → DecodePass) (n : Nat) (attempted : Bool)
    (w : Worker) : Worker × Int × Bool :=
  match h : decodePass r promptTokens (passes n) attempted w with
  | (w', .ended completion error) => (w', completion, error)
  | (w', .again) => decodeAgain r promptTokens passes (n + 1) true w'
termination_by if attempted then 0 else 1
decreasing_by
  rw [decodePass_again h]
  decide

def generateJob (r : JobRequest) (e : JobEvents) (w : Worker) : Worker :=
  if e.steeringRejected then w
  else if e.liveStateGone then w
  else
    let w := e.prefilled.foldl (fun w current => serverProtocolProgress w current 0) w
    match e.sync with
    | .interrupted =>
      (serverProtocolFinish w (if e.prefillStopRequested || e.prefillStreamFailed then .cancelled else .error)).1
    | .failed => w
    | .done =>
      if e.prefillTimedOut then w
      else
        let w := serverProtocolProgress w e.promptTokens 0
        let w := (serverProtocolTransition w .decode).1
        if r.stream && (e.prefillStreamFailed || e.streamStartFailed) then w
        else
          let (w, completion, error) := decodeAgain r e.promptTokens e.passes 0 false w
          let w := serverProtocolProgress w e.promptTokens completion
          let w := (serverProtocolTransition w .serialize).1
          (serverProtocolFinish w
            (if e.finishStopRequested then .cancelled else if !e.responseOk || error then .error else .complete)).1

/-! ## The worker -/

structure Job where
  requestId : Nat
  request : JobRequest
  events : JobEvents

/-- The worker as it takes a job up, in the state `enqueue` gave it. -/
def takeJob (s : Counters) (j : Job) : Worker :=
  let p := protocolStateInit j.requestId j.request.hasTools
  { server := { s with activeProtocol := p }, protocol := p, history := [p] }

def handleJob (j : Job) (w : Worker) : Worker :=
  if j.request.kind = .steeringControl then
    (serverProtocolFinish (serverProtocolTransition w .serialize).1 .complete).1
  else generateJob j.request j.events (serverProtocolTransition w .prefill).1

/-- The worker's own outcome for a job that came back without one. -/
def finishJob (j : Job) (w : Worker) : Worker :=
  if !w.protocol.terminal then (serverProtocolFinish w (if j.events.workerStopRequested then .cancelled else .error)).1
  else w

/-- One round of the worker's loop: the server afterwards and the states the job went through. -/
def workerJob (s : Counters) (j : Job) : Counters × List ProtocolState :=
  let w := finishJob j (handleJob j (takeJob s j))
  ({ w.server with activeProtocol := w.protocol }, w.history)

/-- The jobs in the order they are dequeued: the server at the end, and for each
   job the server before and after it with the job's states. -/
def workerMain (s : Counters) : List Job → Counters × List (Counters × Counters × List ProtocolState)
  | [] => (s, [])
  | j :: jobs =>
    let (s', history) := workerJob s j
    let (s'', records) := workerMain s' jobs
    (s'', (s, s', history) :: records)

end Ds4.Server
