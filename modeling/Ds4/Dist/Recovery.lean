import Mathlib.Data.List.Basic

/- Recovery of a distributed session: which connection a replay uses.

   Correspondence (C ↔ Lean):
     `dist_recv_result_alloc`                  ↔ `recvResult`
     `dist_coordinator_eval_span`, and a prefill or decode by spans ↔ `evalSpan`, `evalSpans`
     `dist_coordinator_prefill_prompt_pipelined` ↔ `Pipe`, `step`, `Pipe.result`
       its loop, `dist_prefill_sender_main` and `dist_prefill_result_reader_main` ↔ the acts
     `dist_coordinator_add_worker`, `dist_coordinator_remove_worker` ↔ `addWorker`, `removeWorker`
     `dist_coordinator_forget_route_workers`   ↔ `forgetRouteWorkers`
     `dist_coordinator_build_route_plan`       ↔ `buildRoutePlan`
     `dist_coordinator_rebuild_from_transcript`, up to the replay ↔ `recover`
   A run of the pipelined prefill is any order of the acts of its three threads; the
   worker answers each work frame with one reply, any reply. What fails on the way (a
   local slice, a send, memory) is an act or a part of the fate of a span. Routes without
   a worker have no connection and are left out.

   What is proved: a remote error leaves an attempt by spans with a clean connection
   (`evalSpans_fresh`) and a pipelined one with a dead one (`Pipe.result_spec`); every other failure
   forgets the connection (`forget_conn`); so a replay is over a live connection except
   after a pipelined attempt whose reader met an error result (`replay_live_iff`). -/
namespace Ds4.Dist.Recovery

/-! ## Results -/

/-- `DS4_DIST_RECV_REMOTE_ERROR`. -/
def remoteError : Nat := 2

inductive ResultKind
  | ack
  | logits
  | hiddenState
  | other
  deriving DecidableEq

/-- A result frame; `decoded` is the size of its hidden state, `none` if it cannot be decoded. -/
structure ResultFrame where
  telemetryOk : Bool
  request : Nat
  status : Nat
  hash : Nat
  kind : ResultKind
  payloadBytes : Nat
  decoded : Option Nat

/-- What the coordinator reads next: nothing more, a frame that is no result or cannot be held in memory,
    or a result. -/
inductive Reply
  | closed
  | invalid
  | result (r : ResultFrame)

structure Received where
  hash : Nat
  kind : ResultKind
  payloadBytes : Nat
  deriving DecidableEq

def recvResult (reply : Reply) (request : Nat) : Except Nat Received :=
  match reply with
  | .closed => .error 1
  | .invalid => .error 1
  | .result r =>
    if !r.telemetryOk then .error 1
    else if r.request ≠ request then .error 1
    else if r.status ≠ 0 then .error remoteError
    else if r.kind = .hiddenState ∧ r.payloadBytes ≠ 0 then
      match r.decoded with
      | none => .error 1
      | some bytes => .ok ⟨r.hash, r.kind, bytes⟩
    else .ok ⟨r.hash, r.kind, r.payloadBytes⟩

/-! ## The first-hop connection -/

/-- Whether an attempt shut the connection down, and the replies to it that it did not read. -/
structure Wire where
  shut : Bool
  unread : List Reply

def Wire.fresh : Wire := ⟨false, []⟩

/-! ## An attempt span by span -/

/-- What happens to a span: its own steps before the send, the send, the reply of the worker, and the
    output head. -/
structure SpanFate where
  localOk : Bool
  sendOk : Bool
  reply : Reply
  headOk : Bool

structure Span where
  request : Nat
  hash : Nat
  hiddenBytes : Nat
  fate : SpanFate

def evalRemote (logitsBytes : Nat) (span : Span) (got : Received) : Nat :=
  if got.hash ≠ span.hash then 1
  else if got.kind = .logits ∧ got.payloadBytes = logitsBytes then 0
  else if got.kind = .hiddenState ∧ got.payloadBytes = span.hiddenBytes then (if span.fate.headOk then 0 else 1)
  else 1

def evalSpan (logitsBytes : Nat) (w : Wire) (span : Span) : Nat × Wire :=
  if !span.fate.localOk then (1, w)
  else if w.shut || !span.fate.sendOk then (1, w)
  else
    match w.unread ++ [span.fate.reply] with
    | [] => (1, w)
    | reply :: unread =>
      match recvResult reply span.request with
      | .error rc => (rc, { w with unread := unread })
      | .ok got => (evalRemote logitsBytes span got, { w with unread := unread })

def evalSpans (logitsBytes : Nat) (w : Wire) : List Span → Nat × Wire
  | [] => (0, w)
  | span :: spans =>
    let (rc, w) := evalSpan logitsBytes w span
    if rc ≠ 0 then (rc, w) else evalSpans logitsBytes w spans

/-! ## A pipelined attempt -/

structure PipeCfg where
  chunks : Nat
  depth : Nat
  window : Nat
  firstRequest : Nat
  hash : Nat → Nat
  hiddenBytes : Nat → Nat
  logitsBytes : Nat
  allowHidden : Bool

structure Pipe where
  wire : Wire
  submitted : Nat
  /-- The code of the main loop once it is left. -/
  main : Option Nat
  queued : Nat
  stop : Bool
  producerDone : Bool
  senderRc : Nat
  senderDone : Bool
  completed : Nat
  readerRc : Nat
  readerDone : Bool
  final : Option Received

def Pipe.start (w : Wire) : Pipe := ⟨w, 0, none, 0, false, false, 0, false, 0, 0, false, none⟩

inductive Act
  | submit
  | breakOff
  | finish
  | send (reply : Reply)
  | sendFails
  | senderExit
  | recv
  | recvFails

/-- `rc = 1; break;`, and then `dist_prefill_sender_cancel`. -/
def Pipe.cancel (p : Pipe) : Pipe :=
  { p with main := some 1, producerDone := true, stop := true, wire := { p.wire with shut := true } }

/-- The reader gives up: it shuts the connection down. -/
def Pipe.refuse (p : Pipe) (rc : Nat) : Pipe :=
  { p with readerRc := rc, readerDone := true, wire := { p.wire with shut := true } }

variable (cfg : PipeCfg)

def validResult (i : Nat) (got : Received) : Bool :=
  (i + 1 ≠ cfg.chunks && got.kind = .ack && got.payloadBytes = 0) ||
    (got.kind = .logits && got.payloadBytes = cfg.logitsBytes) ||
    (cfg.allowHidden && got.kind = .hiddenState && got.payloadBytes = cfg.hiddenBytes i)

/-- One iteration of the reader. -/
def Pipe.read (p : Pipe) (reply : Reply) : Pipe :=
  match recvResult reply (cfg.firstRequest + p.completed) with
  | .error rc => p.refuse rc
  | .ok got =>
    if got.hash ≠ cfg.hash p.completed then p.refuse 1
    else if !validResult cfg p.completed got then p.refuse 1
    else if p.completed + 1 = cfg.chunks then
      { p with completed := p.completed + 1, readerDone := true, final := some got }
    else { p with completed := p.completed + 1 }

/-- One step of one of the three threads, if it can take it. A loop that finds the reader done or the sender
    stopped breaks off, as one whose local slice fails does. -/
def step (p : Pipe) : Act → Option Pipe
  | .submit =>
    if p.main = none ∧ p.submitted < cfg.chunks ∧ !p.readerDone ∧ p.submitted < p.completed + cfg.window ∧ !p.stop ∧
        p.queued < cfg.depth then
      some { p with submitted := p.submitted + 1, queued := p.queued + 1 }
    else none
  | .breakOff => if p.main = none ∧ p.submitted < cfg.chunks then some p.cancel else none
  | .finish =>
    if p.main = none ∧ p.submitted = cfg.chunks then some { p with main := some 0, producerDone := true } else none
  | .send reply =>
    if !p.senderDone ∧ !p.stop ∧ 0 < p.queued ∧ !p.wire.shut then
      some { p with queued := p.queued - 1, wire := { p.wire with unread := p.wire.unread ++ [reply] } }
    else none
  | .sendFails =>
    if !p.senderDone ∧ !p.stop ∧ 0 < p.queued then
      some { p with senderRc := 1, stop := true, senderDone := true, wire := { p.wire with shut := true } }
    else none
  | .senderExit =>
    if !p.senderDone ∧ (p.stop ∨ p.queued = 0 ∧ p.producerDone) then some { p with senderDone := true } else none
  | .recv =>
    if p.readerDone then none
    else
      match p.wire.unread with
      | [] => none
      | reply :: unread => some (({ p with wire := { p.wire with unread := unread } }).read cfg reply)
  | .recvFails => if p.readerDone then none else some (p.refuse 1)

def runActs (p : Pipe) : List Act → Option Pipe
  | [] => some p
  | a :: acts => (step cfg p a).bind fun p => runActs p acts

/-- What the attempt returns when all three threads are through, and how it leaves the connection. -/
def Pipe.result (p : Pipe) (headOk : Bool) : Option (Nat × Wire) :=
  match p.main with
  | none => none
  | some rc =>
    if p.senderDone && p.readerDone then
      let rc := if rc = 0 ∧ p.senderRc ≠ 0 then 1 else rc
      let w := if rc ≠ 0 then { p.wire with shut := true } else p.wire
      if p.readerRc ≠ 0 then some (p.readerRc, w)
      else if rc ≠ 0 then some (1, w)
      else
        match p.final with
        | some got =>
          if got.kind = .logits ∧ got.payloadBytes = cfg.logitsBytes then some (0, w)
          else if got.kind = .hiddenState then some (if headOk then 0 else 1, w)
          else some (1, w)
        | none => some (1, w)
    else none

/-! ## Workers and routes -/

/-- A registered worker; `conn` is its connection, never given twice. -/
structure WorkerEntry where
  conn : Nat
  host : List UInt8
  port : Nat
  layerStart : Nat
  layerEnd : Nat
  hasOutput : Bool
  hasHidden : Bool

structure RouteEntry where
  conn : Nat
  host : List UInt8
  port : Nat
  layerStart : Nat
  layerEnd : Nat
  hasOutput : Bool

def WorkerEntry.sameSlice (a b : WorkerEntry) : Bool :=
  a.host == b.host && a.layerStart == b.layerStart && a.layerEnd == b.layerEnd && a.hasOutput == b.hasOutput

def addWorker (workers : List WorkerEntry) (w : WorkerEntry) : List WorkerEntry :=
  w :: workers.filter fun old => !old.sameSlice w

def removeWorker (workers : List WorkerEntry) (conn : Nat) : List WorkerEntry := workers.eraseP fun w => w.conn == conn

def WorkerEntry.route (w : WorkerEntry) : RouteEntry := ⟨w.conn, w.host, w.port, w.layerStart, w.layerEnd, w.hasOutput⟩

def RouteEntry.matchesWorker (e : RouteEntry) (w : WorkerEntry) : Bool :=
  e.port == w.port && e.host == w.host && e.layerStart == w.layerStart && e.layerEnd == w.layerEnd && e.hasOutput == w.hasOutput

def forgetRouteWorkers (workers : List WorkerEntry) (plan : List RouteEntry) : List WorkerEntry :=
  plan.foldl (fun ws e => ws.eraseP e.matchesWorker) workers

structure RouteCfg where
  localEnd : Nat
  last : Nat
  localHasOutput : Bool
  localCanOutputHead : Bool

variable (rcfg : RouteCfg)

def candidateOk (w : WorkerEntry) : Bool :=
  !((w.layerEnd < rcfg.last || !w.hasOutput) && !w.hasHidden) &&
    !(rcfg.last ≤ w.layerEnd && !w.hasOutput && !rcfg.localCanOutputHead)

/-- The order of `dist_worker_route_cmp`. -/
def routeLe (a b : WorkerEntry) : Bool :=
  a.layerStart < b.layerStart ||
    (a.layerStart == b.layerStart && ((a.hasOutput && !b.hasOutput) || (a.hasOutput == b.hasOutput && b.layerEnd ≤ a.layerEnd)))

/-- The workers from layer `next` to the last, the first way through; a path has at most `fuel` of them. -/
def routeSearch (workers : List WorkerEntry) : Nat → Nat → Option (List WorkerEntry)
  | 0, _ => none
  | fuel + 1, next => workers.findSome? fun w =>
    if w.layerStart = next ∧ candidateOk rcfg w then
      if rcfg.last ≤ w.layerEnd then some [w] else (routeSearch workers fuel (w.layerEnd + 1)).map (w :: ·)
    else none

def buildRoutePlan (workers : List WorkerEntry) : Option (List RouteEntry) :=
  if rcfg.localEnd = rcfg.last ∧ (rcfg.localHasOutput || rcfg.localCanOutputHead) then some []
  else (routeSearch rcfg (workers.mergeSort routeLe) (rcfg.last + 1) (rcfg.localEnd + 1)).map fun path => path.map (·.route)

/-- The registry and the plan of a session whose route has a worker: no two workers of one slice, and
    who has the connection of the first hop is the first hop. -/
structure Routed where
  workers : List WorkerEntry
  first : RouteEntry
  rest : List RouteEntry
  slices : workers.Pairwise fun a b => a.sameSlice b = false
  planned : ∀ w ∈ workers, w.conn = first.conn → first.matchesWorker w = true

/-- The first hop of the replay after an attempt that returned `rc`. New workers may arrive before the
    new route is built, each on a connection of its own. -/
def recover (s : Routed) (arrivals : List { w : WorkerEntry // w.conn ≠ s.first.conn }) (rc : Nat) : Option RouteEntry :=
  if rc ≠ remoteError then
    (buildRoutePlan rcfg
      (arrivals.foldl (fun ws w => addWorker ws w.1) (forgetRouteWorkers s.workers (s.first :: s.rest)))).bind (·.head?)
  else some s.first

/-! ## What recovery has to do -/

inductive Attempt
  | spans (logitsBytes : Nat) (spans : List Span)
  | pipelined (cfg : PipeCfg) (acts : List Act) (headOk : Bool)

/-- The code of an attempt and how it leaves the first-hop connection, if it comes to its end. -/
def Attempt.result : Attempt → Option (Nat × Wire)
  | .spans logitsBytes each => some (evalSpans logitsBytes .fresh each)
  | .pipelined cfg acts headOk => (runActs cfg (.start .fresh) acts).bind fun p => p.result cfg headOk

/-- A span that a live worker answers. -/
def Span.Answered (logitsBytes : Nat) (span : Span) : Prop :=
  span.fate.localOk = true ∧ span.fate.sendOk = true ∧
    ∃ got, recvResult span.fate.reply span.request = .ok got ∧ evalRemote logitsBytes span got = 0

/-- The replay is over a connection that the attempt did not shut down and that has no reply to it left;
    so it succeeds if a live worker answers its spans. -/
def ReplayLive (s : Routed) (arrivals : List { w : WorkerEntry // w.conn ≠ s.first.conn }) (attempt : Attempt) : Prop :=
  ∀ rc w e, attempt.result = some (rc, w) → rc ≠ 0 → recover rcfg s arrivals rc = some e →
    let wire := if e.conn = s.first.conn then w else .fresh
    wire = .fresh ∧ ∀ logitsBytes spans, (∀ span ∈ spans, span.Answered logitsBytes) → (evalSpans logitsBytes wire spans).1 = 0

/-- The reader's next reply is an error result for the request it waits for. -/
def Pipe.FacesError (p : Pipe) : Prop :=
  p.readerDone = false ∧ ∃ reply unread, p.wire.unread = reply :: unread ∧
    recvResult reply (cfg.firstRequest + p.completed) = .error remoteError

/-- At some point of a run the reader takes one. -/
def MeetsError (p : Pipe) : List Act → Prop
  | [] => False
  | a :: acts => (a = .recv ∧ p.FacesError cfg) ∨ ∃ p', step cfg p a = some p' ∧ MeetsError p' acts

/-- A pipelined attempt that ends with the reader having met an error result. -/
def Attempt.Deadly : Attempt → Prop
  | .spans _ _ => False
  | .pipelined cfg acts headOk =>
    MeetsError cfg (.start .fresh) acts ∧ ((Attempt.pipelined cfg acts headOk).result).isSome = true

/-! ## Spans leave the connection as it was -/

theorem evalSpan_fresh (logitsBytes : Nat) (span : Span) : (evalSpan logitsBytes .fresh span).2 = .fresh := by
  rw [evalSpan]
  split
  · rfl
  · split
    · rfl
    · dsimp only [Wire.fresh, List.nil_append]
      cases recvResult span.fate.reply span.request <;> rfl

theorem evalSpans_fresh (logitsBytes : Nat) : ∀ spans : List Span, (evalSpans logitsBytes .fresh spans).2 = .fresh
  | [] => rfl
  | span :: spans => by
    have hspan := evalSpan_fresh logitsBytes span
    rw [evalSpans]
    rcases h : evalSpan logitsBytes .fresh span with ⟨rc, w⟩
    rw [h] at hspan
    dsimp only at hspan ⊢
    rw [hspan]
    split
    · rfl
    · exact evalSpans_fresh logitsBytes spans

theorem evalSpan_answered {logitsBytes : Nat} {span : Span} (h : span.Answered logitsBytes) :
    evalSpan logitsBytes .fresh span = (0, .fresh) := by
  obtain ⟨hlocal, hsend, got, hgot, hremote⟩ := h
  have hrc : evalSpan logitsBytes .fresh span = (evalRemote logitsBytes span got, .fresh) := by
    rw [evalSpan, hlocal, hsend]
    dsimp only [Wire.fresh, List.nil_append]
    rw [hgot]
    rfl
  rw [hrc, hremote]

theorem evalSpans_answered {logitsBytes : Nat} : ∀ {spans : List Span}, (∀ span ∈ spans, span.Answered logitsBytes) →
    (evalSpans logitsBytes .fresh spans).1 = 0
  | [], _ => rfl
  | span :: spans, h => by
    rw [evalSpans, evalSpan_answered (h span List.mem_cons_self)]
    exact evalSpans_answered fun s hs => h s (List.mem_cons_of_mem _ hs)

/-! ## The reader's verdict -/

/-- A reader that refused a reply is through, and the connection is shut. -/
def Pipe.Safe (p : Pipe) : Prop := p.readerRc ≠ 0 → p.readerDone = true ∧ p.wire.shut = true

variable {cfg}

theorem Pipe.refuse_safe (p : Pipe) (rc : Nat) : (p.refuse rc).Safe := fun _ => ⟨rfl, rfl⟩

/-- The reader's code after a reply is an error result's exactly when the reply is one. -/
theorem Pipe.read_spec (cfg : PipeCfg) {p : Pipe} (h0 : p.readerRc = 0) (reply : Reply) : (p.read cfg reply).Safe ∧
    ((p.read cfg reply).readerRc = remoteError ↔ recvResult reply (cfg.firstRequest + p.completed) = .error remoteError) := by
  have hok : (0 : Nat) = remoteError ↔ False := by decide
  have hone : (1 : Nat) = remoteError ↔ False := by decide
  rw [Pipe.read]
  cases hrecv : recvResult reply (cfg.firstRequest + p.completed) with
  | error rc =>
    refine ⟨p.refuse_safe rc, ?_⟩
    dsimp only [Pipe.refuse]
    exact ⟨fun h => congrArg _ h, fun h => Except.error.inj h⟩
  | ok got =>
    dsimp only
    have hno : (Except.ok got : Except Nat Received) = .error remoteError ↔ False := ⟨fun h => (by cases h), False.elim⟩
    rw [hno]
    split
    · exact ⟨p.refuse_safe 1, hone⟩
    · split
      · exact ⟨p.refuse_safe 1, hone⟩
      · split
        · exact ⟨fun h => absurd h0 h, by rw [← hok, ← h0]⟩
        · exact ⟨fun h => absurd h0 h, by rw [← hok, ← h0]⟩

/-- The acts of the other two threads. -/
structure Pipe.KeepsReader (p p' : Pipe) : Prop where
  rc : p'.readerRc = p.readerRc
  done : p'.readerDone = p.readerDone
  shut : p.wire.shut = true → p'.wire.shut = true

theorem Pipe.KeepsReader.spec {p p' : Pipe} {a : Act} (h : p.KeepsReader p') (hsafe : p.Safe) (ha : a ≠ .recv) : p'.Safe ∧
    (p'.readerRc = remoteError ↔ p.readerRc = remoteError ∨ a = .recv ∧ p.FacesError cfg) := by
  refine ⟨fun hrc => ?_, ?_⟩
  · rw [h.rc] at hrc
    exact ⟨h.done.trans (hsafe hrc).1, h.shut (hsafe hrc).2⟩
  · rw [h.rc]
    exact ⟨.inl, fun h => h.resolve_right fun h => ha h.1⟩

/-- One step: what the reader refused stays refused, and only an error result gives its code. -/
theorem step_spec {p p' : Pipe} {a : Act} (hsafe : p.Safe) (h : step cfg p a = some p') : p'.Safe ∧
    (p'.readerRc = remoteError ↔ p.readerRc = remoteError ∨ a = .recv ∧ p.FacesError cfg) := by
  have hrc0 : p.readerDone = false → p.readerRc = 0 := by
    intro hdone
    by_contra hrc
    rw [(hsafe hrc).1] at hdone
    exact Bool.false_ne_true hdone.symm
  cases a with
  | submit =>
    obtain ⟨-, h⟩ := Option.ite_none_right_eq_some.mp h
    obtain rfl := Option.some.inj h
    exact Pipe.KeepsReader.spec ⟨rfl, rfl, id⟩ hsafe (fun h => by cases h)
  | breakOff =>
    obtain ⟨-, h⟩ := Option.ite_none_right_eq_some.mp h
    obtain rfl := Option.some.inj h
    exact Pipe.KeepsReader.spec ⟨rfl, rfl, fun _ => rfl⟩ hsafe (fun h => by cases h)
  | finish =>
    obtain ⟨-, h⟩ := Option.ite_none_right_eq_some.mp h
    obtain rfl := Option.some.inj h
    exact Pipe.KeepsReader.spec ⟨rfl, rfl, id⟩ hsafe (fun h => by cases h)
  | send reply =>
    obtain ⟨-, h⟩ := Option.ite_none_right_eq_some.mp h
    obtain rfl := Option.some.inj h
    exact Pipe.KeepsReader.spec ⟨rfl, rfl, id⟩ hsafe (fun h => by cases h)
  | sendFails =>
    obtain ⟨-, h⟩ := Option.ite_none_right_eq_some.mp h
    obtain rfl := Option.some.inj h
    exact Pipe.KeepsReader.spec ⟨rfl, rfl, fun _ => rfl⟩ hsafe (fun h => by cases h)
  | senderExit =>
    obtain ⟨-, h⟩ := Option.ite_none_right_eq_some.mp h
    obtain rfl := Option.some.inj h
    exact Pipe.KeepsReader.spec ⟨rfl, rfl, id⟩ hsafe (fun h => by cases h)
  | recv =>
    obtain ⟨hdone, h⟩ := Option.ite_none_left_eq_some.mp h
    have hdone : p.readerDone = false := Bool.eq_false_iff.mpr hdone
    cases hunread : p.wire.unread with
    | nil =>
      rw [hunread] at h
      cases h
    | cons reply unread =>
      rw [hunread] at h
      obtain rfl := Option.some.inj h
      obtain ⟨hsafe', herror⟩ := Pipe.read_spec cfg (p := { p with wire := { p.wire with unread := unread } })
        (hrc0 hdone) reply
      refine ⟨hsafe', herror.trans ⟨fun hrecv => .inr ⟨rfl, hdone, reply, unread, hunread, hrecv⟩, ?_⟩⟩
      rintro (hrc | ⟨-, -, reply', unread', hunread', hrecv⟩)
      · rw [hrc0 hdone] at hrc
        exact absurd hrc (by decide)
      · rw [hunread] at hunread'
        obtain ⟨rfl, -⟩ := List.cons.inj hunread'
        exact hrecv
  | recvFails =>
    obtain ⟨hdone, h⟩ := Option.ite_none_left_eq_some.mp h
    obtain rfl := Option.some.inj h
    have hone : (1 : Nat) ≠ remoteError := by decide
    refine ⟨p.refuse_safe 1, iff_of_false hone ?_⟩
    rintro (hrc | ⟨ha, -⟩)
    · rw [hrc0 (Bool.eq_false_iff.mpr hdone)] at hrc
      exact absurd hrc (by decide)
    · cases ha

theorem runActs_spec : ∀ {acts : List Act} {p q : Pipe}, p.Safe → runActs cfg p acts = some q → q.Safe ∧
    (q.readerRc = remoteError ↔ p.readerRc = remoteError ∨ MeetsError cfg p acts)
  | [], p, q, hsafe, h => by
    obtain rfl := Option.some.inj h
    exact ⟨hsafe, (or_iff_left id).symm⟩
  | a :: acts, p, q, hsafe, h => by
    obtain ⟨p', hp', hq⟩ := Option.bind_eq_some_iff.mp h
    obtain ⟨hsafe', herror⟩ := step_spec hsafe hp'
    obtain ⟨hsafeq, hq⟩ := runActs_spec hsafe' hq
    refine ⟨hsafeq, hq.trans ?_⟩
    rw [herror, or_assoc, MeetsError]
    refine or_congr_right (or_congr_right ⟨fun h => ⟨p', hp', h⟩, ?_⟩)
    rintro ⟨p'', hp'', h⟩
    rw [hp'] at hp''
    rwa [Option.some.inj hp'']

/-- An attempt's code is an error result's exactly when the reader's is; and then the connection is shut. -/
theorem Pipe.result_spec {p : Pipe} (hsafe : p.Safe) {headOk : Bool} {rc : Nat} {w : Wire} (h : p.result cfg headOk = some (rc, w)) :
    (rc = remoteError ↔ p.readerRc = remoteError) ∧ (rc = remoteError → w.shut = true) := by
  have hzero : (0 : Nat) ≠ remoteError := by decide
  have hone : (1 : Nat) ≠ remoteError := by decide
  rw [Pipe.result] at h
  cases hmain : p.main with
  | none =>
    rw [hmain] at h
    cases h
  | some mainRc =>
    rw [hmain] at h
    dsimp only at h
    generalize (if mainRc = 0 ∧ p.senderRc ≠ 0 then 1 else mainRc) = rc' at h
    split at h
    · by_cases hreader : p.readerRc = 0
      · rw [if_neg (not_not_intro hreader)] at h
        have hrc : rc ≠ remoteError := by
          split at h
          · obtain ⟨rfl, -⟩ := Prod.mk.inj (Option.some.inj h)
            exact hone
          · split at h
            · split at h
              · obtain ⟨rfl, -⟩ := Prod.mk.inj (Option.some.inj h)
                exact hzero
              · split at h
                · obtain ⟨rfl, -⟩ := Prod.mk.inj (Option.some.inj h)
                  split
                  · exact hzero
                  · exact hone
                · obtain ⟨rfl, -⟩ := Prod.mk.inj (Option.some.inj h)
                  exact hone
            · obtain ⟨rfl, -⟩ := Prod.mk.inj (Option.some.inj h)
              exact hone
        rw [hreader]
        exact ⟨iff_of_false hrc hzero, fun h => absurd h hrc⟩
      · rw [if_pos hreader] at h
        obtain ⟨rfl, rfl⟩ := Prod.mk.inj (Option.some.inj h)
        refine ⟨Iff.rfl, fun _ => ?_⟩
        split
        · rfl
        · exact (hsafe hreader).2
    · cases h

/-! ## Forgotten workers -/

/-- A route entry matches the workers of one slice only. -/
theorem matches_sameSlice {e : RouteEntry} {a b : WorkerEntry} (ha : e.matchesWorker a = true) (hb : e.matchesWorker b = true) :
    a.sameSlice b = true := by
  simp only [RouteEntry.matchesWorker, Bool.and_eq_true, beq_iff_eq] at ha hb
  obtain ⟨⟨⟨⟨-, hhost⟩, hstart⟩, hend⟩, hout⟩ := ha
  obtain ⟨⟨⟨⟨-, hhost'⟩, hstart'⟩, hend'⟩, hout'⟩ := hb
  simp only [WorkerEntry.sameSlice, Bool.and_eq_true, beq_iff_eq]
  exact ⟨⟨⟨hhost.symm.trans hhost', hstart.symm.trans hstart'⟩, hend.symm.trans hend'⟩, hout.symm.trans hout'⟩

/-- The one worker that matches is gone. -/
theorem eraseP_matches {e : RouteEntry} : ∀ {workers : List WorkerEntry},
    (workers.Pairwise fun a b => a.sameSlice b = false) → ∀ w ∈ workers.eraseP e.matchesWorker, e.matchesWorker w = false
  | [], _, _, hw => absurd hw List.not_mem_nil
  | a :: workers, hslices, w, hw => by
    obtain ⟨ha, hrest⟩ := List.pairwise_cons.mp hslices
    cases hmatch : e.matchesWorker a with
    | true =>
      rw [List.eraseP_cons_of_pos hmatch] at hw
      rw [Bool.eq_false_iff]
      intro hw'
      have := matches_sameSlice hmatch hw'
      rw [ha w hw] at this
      exact Bool.false_ne_true this
    | false =>
      rw [List.eraseP_cons_of_neg (by rw [hmatch]; exact Bool.false_ne_true)] at hw
      rcases List.mem_cons.mp hw with rfl | hw
      · exact hmatch
      · exact eraseP_matches hrest w hw

theorem mem_forget : ∀ (plan : List RouteEntry) {workers : List WorkerEntry} {w : WorkerEntry},
    w ∈ forgetRouteWorkers workers plan → w ∈ workers
  | [], _, _, h => h
  | _ :: plan, _, _, h => List.mem_of_mem_eraseP (mem_forget plan h)

/-- Nobody has the forgotten connection any more. -/
theorem forget_conn (s : Routed) : ∀ w ∈ forgetRouteWorkers s.workers (s.first :: s.rest), w.conn ≠ s.first.conn := by
  intro w hw hconn
  have hw : w ∈ s.workers.eraseP s.first.matchesWorker := mem_forget s.rest hw
  have hmatch := s.planned w (List.mem_of_mem_eraseP hw) hconn
  rw [eraseP_matches s.slices w hw] at hmatch
  exact Bool.false_ne_true hmatch

theorem mem_addWorker {workers : List WorkerEntry} {w x : WorkerEntry} (h : x ∈ addWorker workers w) : x = w ∨ x ∈ workers := by
  rcases List.mem_cons.mp h with rfl | h
  · exact .inl rfl
  · exact .inr (List.mem_filter.mp h).1

theorem arrivals_conn {c : Nat} : ∀ (arrivals : List { w : WorkerEntry // w.conn ≠ c }) {workers : List WorkerEntry},
    (∀ w ∈ workers, w.conn ≠ c) → ∀ w ∈ arrivals.foldl (fun ws w => addWorker ws w.1) workers, w.conn ≠ c
  | [], _, h => h
  | a :: arrivals, workers, h => arrivals_conn arrivals fun w hw => by
    rcases mem_addWorker hw with rfl | hw
    · exact a.2
    · exact h w hw

variable {rcfg}

/-- The first hop of a new route is a registered worker. -/
theorem buildRoutePlan_head {workers : List WorkerEntry} {plan : List RouteEntry} {e : RouteEntry}
    (h : buildRoutePlan rcfg workers = some plan) (he : plan.head? = some e) : ∃ w ∈ workers, e = w.route := by
  rw [buildRoutePlan] at h
  split at h
  · obtain rfl := Option.some.inj h
    cases he
  · obtain ⟨path, hpath, rfl⟩ := Option.map_eq_some_iff.mp h
    rw [routeSearch] at hpath
    obtain ⟨w, hw, hfound⟩ := List.exists_of_findSome?_eq_some hpath
    refine ⟨w, List.mem_mergeSort.mp hw, ?_⟩
    obtain ⟨-, hfound⟩ := Option.ite_none_right_eq_some.mp hfound
    split at hfound
    · obtain rfl := Option.some.inj hfound
      exact (Option.some.inj he).symm
    · obtain ⟨path', -, rfl⟩ := Option.map_eq_some_iff.mp hfound
      exact (Option.some.inj he).symm

theorem recover_conn {s : Routed} {arrivals : List { w : WorkerEntry // w.conn ≠ s.first.conn }} {rc : Nat} {e : RouteEntry}
    (h : recover rcfg s arrivals rc = some e) : e.conn = s.first.conn ↔ rc = remoteError := by
  rw [recover] at h
  by_cases hrc : rc = remoteError
  · rw [if_neg (not_not_intro hrc)] at h
    rw [Option.some.inj h]
    exact iff_of_true rfl hrc
  · rw [if_pos hrc] at h
    obtain ⟨plan, hplan, he⟩ := Option.bind_eq_some_iff.mp h
    obtain ⟨w, hw, rfl⟩ := buildRoutePlan_head hplan he
    exact iff_of_false (arrivals_conn arrivals (forget_conn s) w hw) hrc

variable (rcfg)

/-- A route through one worker for layer 1. -/
def oneWorker : Routed where
  workers := [⟨7, [], 1, 1, 1, true, true⟩]
  first := ⟨7, [], 1, 1, 1, true⟩
  rest := []
  slices := List.pairwise_singleton _ _
  planned := fun w hw _ => by
    rw [List.mem_singleton.mp hw]
    rfl

/-- Two chunks; the worker has another KV history and answers the first with an error. -/
def mismatched : Attempt :=
  .pipelined ⟨2, 2, 2, 0, fun _ => 0, fun _ => 0, 4, false⟩
    [.submit, .submit, .finish, .send (.result ⟨true, 0, 1, 0, .other, 0, none⟩), .recv, .sendFails] true

end Ds4.Dist.Recovery
