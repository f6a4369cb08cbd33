import Ds4.Bytes
import Ds4.Runs

/- The bindings of the server's three protocols to the one live session
   (ds4_server.c): what a request may continue from, what it does to the session,
   and what it remembers or forgets on its many ways out.

   A binding stores a count of tokens; here it also has the tokens themselves, which
   no function reads.

   What is proved:
     1. `finishTurn_holds`, `generateJob_holds` — a request that does not leave by a
        way that has replaced the session keeps every binding on the session's tokens.
     2. `bindings_stay_attached` — along such requests no binding attaches to tokens
        it was not remembered for.

   Correspondence (C ↔ Lean):
     `live_tool_state`, `visible_live_state`       ↔ `Binding`
     `responses_live_remember`, `anthropic_live_remember`, `thinking_live_remember` ↔ `remember`
     `id_list_push_unique`                         ↔ `pushUnique`
     `responses_live_matches_request`, `anthropic_live_matches_request` ↔ `matchesRequest`
     `responses_live_visible_prefix_prompt`, `thinking_live_visible_prefix_prompt` ↔ `visibleSuffix` in `plan`
     `responses_live_continuation_prompt`, `anthropic_live_continuation_prompt` ↔ `plan`
     `ds4_session_sync`                            ↔ `sync`, on the tokens
     `generate_job`                                ↔ `generateJob`
   What a request meets (a failure, a snapshot on disk, what is generated) is part of
   the event. Tokens and text of the engine are parameters. -/
namespace Ds4.Server.Live
open Ds4 Bytes

/-! ## Bindings -/

inductive Api where
  | openai
  | anthropic
  | responses
  deriving DecidableEq

/-- A valid binding. -/
structure Binding where
  callIds : List Bytes
  visible : Bytes
  liveTokens : Nat
  history : List Nat

/-- `ds4_session_pos` is the number of its tokens, valid or not. -/
structure State where
  tokens : List Nat
  valid : Bool
  responses : Option Binding
  anthropic : Option Binding
  thinking : Option Binding

def State.pos (s : State) : Nat := s.tokens.length

def matchesRequest (b : Option Binding) (ids : List Bytes) (pos : Nat) : Bool :=
  ids ≠ [] && b.any fun b => b.liveTokens == pos && b.callIds.length == ids.length && ids.all fun id => b.callIds.contains id

/-- The request's text behind the visible one, which it continues. -/
def visibleSuffix (b : Option Binding) (promptText : Bytes) (pos : Nat) : Option Bytes :=
  match b with
  | none => none
  | some b =>
    if b.liveTokens = pos ∧ b.visible.length < promptText.length ∧ b.visible <+: promptText then
      some (promptText.drop b.visible.length)
    else none

/-- Each id once, and no empty one. -/
def pushUnique (ids : List Bytes) (id : Bytes) : List Bytes := if id = [] ∨ id ∈ ids then ids else ids ++ [id]

def remember (s : State) (callIds : List Bytes) (visible : Bytes) : Binding :=
  ⟨callIds.foldl pushUnique [], visible, s.pos, s.tokens⟩

/-! ## Requests -/

structure Request where
  api : Api
  chat : Bool
  hasTools : Bool
  prompt : List Nat
  promptText : Bytes
  responsesIds : List Bytes
  responsesSuffix : Option Bytes
  anthropicIds : List Bytes
  anthropicSuffix : Option Bytes
  requiresLiveToolState : Bool
  /-- A rendered chat is not empty. -/
  rendered : api = .responses → promptText ≠ []

/-- The tokens of a rendered text, and the text of tokens. -/
structure Engine where
  tokenize : Bytes → List Nat
  render : List Nat → Bytes

/-- A snapshot that was tried: the session it leaves, and the prompt's text behind it if it was loaded. -/
structure DiskLoad where
  tokens : List Nat
  valid : Bool
  suffix : Option Bytes

inductive SyncOutcome where
  /-- Cancelled at entry, or a prompt that does not fit. -/
  | refused (interrupted : Bool)
  /-- Interrupted, or failed, with `k` tokens behind it. -/
  | stopped (k : Nat) (interrupted : Bool)
  | done

inductive Decoded where
  | evaluated (generated : List Nat) (valid : Bool)
  /-- A stop sequence has invalidated the session. -/
  | stopHit
  /-- A tool error was appended and decoding went on from what that left. -/
  | recovered (tokens : List Nat) (valid : Bool)

/-- What a request meets on its way. -/
structure Job where
  req : Request
  steeringError : Bool
  disk : Option DiskLoad
  outcome : SyncOutcome
  watchdog : Bool
  streamClosed : Bool
  decoded : Decoded
  /-- The ids of the parsed calls. -/
  calls : List Bytes
  /-- Neither `error` nor `length`. -/
  finished : Bool
  visibleAssistant : Bytes
  /-- The session a canonicalized tool checkpoint leaves, if it moves it. -/
  canonical : Option (List Nat × Bool)
  shouldRemember : Bool
  /-- `build_toolless_thinking_visible_text`. -/
  thinkingVisible : Option Bytes

inductive Kind where
  | responses
  | anthropic
  | thinking
  deriving DecidableEq

/-- What is synced: the session with the prompt, whether a snapshot replaced it before, and whether one was loaded. -/
structure Plan where
  kind : Option Kind
  tokens : List Nat
  valid : Bool
  prompt : List Nat
  replaced : Bool
  loaded : Bool

def keep (s : State) (kind : Option Kind) (prompt : List Nat) : Plan := ⟨kind, s.tokens, s.valid, prompt, false, false⟩

def DiskLoad.plan (d : DiskLoad) (eng : Engine) (req : Request) : Plan :=
  match d.suffix with
  | some text => ⟨none, d.tokens, d.valid, d.tokens ++ eng.tokenize text, true, true⟩
  | none => ⟨none, d.tokens, d.valid, req.prompt, true, false⟩

/-- A protocol's continuation from the live session. -/
def protocolPlan (eng : Engine) (s : State) (req : Request) : Option Plan :=
  if s.pos = 0 then none
  else
    match req.api with
    | .responses =>
      match visibleSuffix s.responses req.promptText s.pos with
      | some text => some (keep s (some .responses) (s.tokens ++ eng.tokenize text))
      | none =>
        match req.responsesSuffix with
        | some text =>
          if matchesRequest s.responses req.responsesIds s.pos then
            some (keep s (some .responses) (s.tokens ++ eng.tokenize text))
          else none
        | none => none
    | .anthropic =>
      match req.anthropicSuffix with
      | some text =>
        if matchesRequest s.anthropic req.anthropicIds s.pos then
          some (keep s (some .anthropic) (s.tokens ++ eng.tokenize text))
        else none
      | none => none
    | .openai => none

/-- The rest of the choice: the live tokens, the visible thinking text, the live text, a snapshot, or nothing. -/
def cachePlan (eng : Engine) (s : State) (job : Job) : Plan :=
  let req := job.req
  if s.valid = true ∧ s.pos ≠ 0 ∧ s.tokens <+: req.prompt then keep s none req.prompt
  else
    match (if s.pos ≠ 0 ∧ req.chat = true ∧ req.api ≠ .responses then visibleSuffix s.thinking req.promptText s.pos else none) with
    | some text => keep s (some .thinking) (s.tokens ++ eng.tokenize text)
    | none =>
      if s.pos ≠ 0 ∧ eng.render s.tokens <+: req.promptText then
        keep s none (s.tokens ++ eng.tokenize (req.promptText.drop (eng.render s.tokens).length))
      else
        match job.disk with
        | none => keep s none req.prompt
        | some d => d.plan eng req

/-- Nothing if the request is rejected for want of its live state. -/
def plan (eng : Engine) (s : State) (job : Job) : Option Plan :=
  match protocolPlan eng s job.req with
  | some p => some p
  | none =>
    if job.req.requiresLiveToolState = true ∧ job.req.api ≠ .openai then none else some (cachePlan eng s job)

/-- The session after a sync, and whether it succeeded. -/
def sync (p : Plan) : SyncOutcome → List Nat × Bool × Bool
  | .refused interrupted =>
    -- a failed sync of a snapshot discards the snapshot and the session
    if p.loaded = true ∧ interrupted = false then ([], false, false) else (p.tokens, p.valid, false)
  | .stopped k interrupted =>
    if p.loaded = true ∧ interrupted = false then ([], false, false)
    else if p.valid = true ∧ p.tokens <+: p.prompt then (p.prompt.take (max k p.tokens.length), interrupted, false)
    else (p.prompt.take k, interrupted && decide (0 < k), false)
  | .done => (p.prompt, true, true)

/-! ## The end of a turn -/

def State.withSession (s : State) (tokens : List Nat) (valid : Bool) : State := { s with tokens := tokens, valid := valid }

/-- Only a binding that the request continued from stays. -/
def clearOthers (kind : Option Kind) (s : State) : State :=
  { s with
    responses := if kind = some .responses then s.responses else none
    anthropic := if kind = some .anthropic then s.anthropic else none
    thinking := if kind = some .thinking then s.thinking else none }

def decode (job : Job) (s : State) : State :=
  match job.decoded with
  | .evaluated generated valid => s.withSession (s.tokens ++ generated) valid
  | .stopHit => s.withSession [] false
  | .recovered tokens valid => if job.req.hasTools then s.withSession tokens valid else s

def finishResponses (job : Job) (s : State) : State :=
  if job.req.api ≠ .responses then s
  else if job.finished then
    let visible := job.req.promptText ++ job.visibleAssistant
    if visible = [] then s else { s with responses := some (remember s job.calls visible) }
  else { s with responses := none }

def finishAnthropic (job : Job) (s : State) : State :=
  if job.req.api ≠ .anthropic then s
  else if job.calls ≠ [] ∧ job.finished = true then { s with anthropic := some (remember s job.calls []) }
  else { s with anthropic := none }

/-- The tool checkpoint is canonicalized where it may be, after the binding is remembered. -/
def finishThinking (job : Job) (s : State) : State :=
  if job.calls ≠ [] then
    let s := match job.canonical with
      | some (tokens, valid) => if job.req.chat = true ∧ job.req.api ≠ Api.responses then s.withSession tokens valid else s
      | none => s
    { s with thinking := none }
  else if job.shouldRemember = true ∧ job.req.chat = true ∧ job.req.hasTools = false then
    match job.thinkingVisible with
    | some visible => if visible = [] then s else { s with thinking := some (remember s [] visible) }
    | none => s
  else { s with thinking := none }

def finishTurn (job : Job) (s : State) : State := finishThinking job (finishAnthropic job (finishResponses job (decode job s)))

def generateJob (eng : Engine) (s : State) (job : Job) : State :=
  if job.steeringError then s
  else
    match plan eng s job with
    | none => s
    | some p =>
      match sync p job.outcome with
      | (tokens, valid, false) => s.withSession tokens valid
      | (tokens, valid, true) =>
        if job.watchdog then s.withSession [] false
        else
          let s := clearOthers p.kind (s.withSession tokens valid)
          if job.streamClosed then s else finishTurn job s

/-! ## Attachment -/

/-- Whoever is accepted at the session's position gets the tokens that the binding was remembered for. -/
structure Attached (s : State) : Prop where
  responsesIds : ∀ ids, matchesRequest s.responses ids s.pos = true → ∃ b, s.responses = some b ∧ b.history = s.tokens
  responsesText : ∀ text suffix, visibleSuffix s.responses text s.pos = some suffix → ∃ b, s.responses = some b ∧ b.history = s.tokens
  anthropicIds : ∀ ids, matchesRequest s.anthropic ids s.pos = true → ∃ b, s.anthropic = some b ∧ b.history = s.tokens
  thinkingText : ∀ text suffix, visibleSuffix s.thinking text s.pos = some suffix → ∃ b, s.thinking = some b ∧ b.history = s.tokens

/-- The invariant of one binding: its tokens begin the session, if that is valid or long enough. -/
structure Kept (s : State) (b : Binding) : Prop where
  length : b.history.length = b.liveTokens
  valid : s.valid = true → b.history <+: s.tokens
  reached : b.liveTokens ≤ s.pos → b.history <+: s.tokens

structure Holds (s : State) : Prop where
  responses : ∀ b, s.responses = some b → Kept s b
  anthropic : ∀ b, s.anthropic = some b → Kept s b
  thinking : ∀ b, s.thinking = some b → Kept s b

theorem Kept.eq_tokens {s : State} {b : Binding} (h : Kept s b) (hpos : b.liveTokens = s.pos) : b.history = s.tokens :=
  (h.reached hpos.le).eq_of_length (h.length.trans hpos)

theorem Kept.of_prefix {s : State} {b : Binding} (hlen : b.history.length = b.liveTokens) (h : b.history <+: s.tokens) : Kept s b :=
  ⟨hlen, fun _ => h, fun _ => h⟩

theorem Kept.emptied {s : State} {b : Binding} (h : Kept s b) : Kept (s.withSession [] false) b := by
  refine ⟨h.length, nofun, fun hle => ?_⟩
  have hnil : b.history = [] := List.length_eq_zero_iff.mp (h.length.trans (Nat.le_zero.mp hle))
  rw [hnil]
  exact List.nil_prefix

theorem kept_remember (s : State) (callIds : List Bytes) (visible : Bytes) : Kept s (remember s callIds visible) :=
  Kept.of_prefix rfl List.prefix_rfl

theorem matched_pos {b : Option Binding} {ids : List Bytes} {pos : Nat} (h : matchesRequest b ids pos = true) :
    ∃ b', b = some b' ∧ b'.liveTokens = pos := by
  cases b with
  | none => simp [matchesRequest] at h
  | some b =>
    simp only [matchesRequest, Option.any_some, Bool.and_eq_true, beq_iff_eq] at h
    exact ⟨b, rfl, h.2.1.1⟩

theorem visible_pos {b : Option Binding} {text suffix : Bytes} {pos : Nat} (h : visibleSuffix b text pos = some suffix) :
    ∃ b', b = some b' ∧ b'.liveTokens = pos := by
  cases b with
  | none => exact nomatch h
  | some b =>
    rw [visibleSuffix] at h
    split at h
    · next hb => exact ⟨b, rfl, hb.1⟩
    · exact nomatch h

theorem Holds.attached {s : State} (h : Holds s) : Attached s := by
  constructor
  · intro ids hm
    obtain ⟨b, hb, hpos⟩ := matched_pos hm
    exact ⟨b, hb, (h.responses b hb).eq_tokens hpos⟩
  · intro text suffix hv
    obtain ⟨b, hb, hpos⟩ := visible_pos hv
    exact ⟨b, hb, (h.responses b hb).eq_tokens hpos⟩
  · intro ids hm
    obtain ⟨b, hb, hpos⟩ := matched_pos hm
    exact ⟨b, hb, (h.anthropic b hb).eq_tokens hpos⟩
  · intro text suffix hv
    obtain ⟨b, hb, hpos⟩ := visible_pos hv
    exact ⟨b, hb, (h.thinking b hb).eq_tokens hpos⟩

theorem Holds.emptied {s : State} (h : Holds s) : Holds (s.withSession [] false) :=
  ⟨fun b hb => (h.responses b hb).emptied, fun b hb => (h.anthropic b hb).emptied, fun b hb => (h.thinking b hb).emptied⟩

/-- A valid session that has grown keeps its bindings. -/
theorem Holds.grown {s : State} {tokens : List Nat} {valid : Bool} (h : Holds s) (hvalid : s.valid = true) (hpre : s.tokens <+: tokens) :
    Holds (s.withSession tokens valid) := by
  have hkept : ∀ b, Kept s b → Kept (s.withSession tokens valid) b := fun b hb =>
    Kept.of_prefix hb.length ((hb.valid hvalid).trans hpre)
  exact ⟨fun b hb => hkept b (h.responses b hb), fun b hb => hkept b (h.anthropic b hb), fun b hb => hkept b (h.thinking b hb)⟩

/-! ## A turn -/

/-- A binding is there for the protocol of the request alone, and the session begins with its tokens. -/
structure Continued (req : Request) (s : State) : Prop where
  responses : req.api ≠ .responses → s.responses = none
  anthropic : req.api ≠ .anthropic → s.anthropic = none
  thinking : ∀ b, s.thinking = some b → b.history.length = b.liveTokens ∧ b.history <+: s.tokens

theorem decode_frame (job : Job) (s : State) : (decode job s).responses = s.responses ∧ (decode job s).anthropic = s.anthropic ∧
    (decode job s).thinking = s.thinking := by
  rw [decode]
  split
  · exact ⟨rfl, rfl, rfl⟩
  · exact ⟨rfl, rfl, rfl⟩
  · split
    · exact ⟨rfl, rfl, rfl⟩
    · exact ⟨rfl, rfl, rfl⟩

/-- Without tools nothing is appended behind a session that was invalidated. -/
theorem decode_kept {job : Job} {s : State} (htools : job.req.hasTools = false) {b : Binding}
    (hb : b.history.length = b.liveTokens ∧ b.history <+: s.tokens) : Kept (decode job s) b := by
  rw [decode]
  split
  · exact Kept.of_prefix hb.1 (hb.2.trans (List.prefix_append _ _))
  · exact (Kept.of_prefix hb.1 hb.2).emptied
  · rw [htools, if_neg (by decide)]
    exact Kept.of_prefix hb.1 hb.2

theorem finishResponses_eq (job : Job) (s : State) : ∃ r, finishResponses job s = { s with responses := r } ∧
    (job.req.api = .responses → ∀ b, r = some b → Kept s b) ∧ (job.req.api ≠ .responses → r = s.responses) := by
  rw [finishResponses]
  by_cases hapi : job.req.api = .responses
  · have hvisible : job.req.promptText ++ job.visibleAssistant ≠ [] :=
      List.append_ne_nil_of_left_ne_nil (job.req.rendered hapi) _
    rw [if_neg (not_not_intro hapi)]
    cases job.finished with
    | true =>
      refine ⟨some (remember s job.calls (job.req.promptText ++ job.visibleAssistant)), by simp [hvisible], fun _ b hb => ?_,
        fun h => absurd hapi h⟩
      obtain rfl := Option.some.inj hb
      exact kept_remember s _ _
    | false => exact ⟨none, rfl, fun _ => nofun, fun h => absurd hapi h⟩
  · rw [if_pos hapi]
    exact ⟨s.responses, rfl, fun h => absurd h hapi, fun _ => rfl⟩

theorem finishAnthropic_eq (job : Job) (s : State) : ∃ a, finishAnthropic job s = { s with anthropic := a } ∧
    (job.req.api = .anthropic → ∀ b, a = some b → Kept s b) ∧ (job.req.api ≠ .anthropic → a = s.anthropic) := by
  rw [finishAnthropic]
  by_cases hapi : job.req.api = .anthropic
  · rw [if_neg (not_not_intro hapi)]
    split
    · refine ⟨some (remember s job.calls []), rfl, fun _ b hb => ?_, fun h => absurd hapi h⟩
      obtain rfl := Option.some.inj hb
      exact kept_remember s _ _
    · exact ⟨none, rfl, fun _ => nofun, fun h => absurd hapi h⟩
  · rw [if_pos hapi]
    exact ⟨s.anthropic, rfl, fun h => absurd h hapi, fun _ => rfl⟩

theorem finishTurn_holds {job : Job} {s : State} (h : Continued job.req s) (hcanon : job.req.api = .anthropic → job.canonical = none) :
    Holds (finishTurn job s) := by
  obtain ⟨hfr, hfa, hft⟩ := decode_frame job s
  rw [finishTurn]
  obtain ⟨r, hr, hrapi, hrkeep⟩ := finishResponses_eq job (decode job s)
  rw [hr]
  obtain ⟨a, ha, haapi, hakeep⟩ := finishAnthropic_eq job { decode job s with responses := r }
  rw [ha]
  -- what a binding of the request's protocol was remembered for, and that no other is left
  have hres : ∀ b, r = some b → job.req.api = .responses ∧ Kept (decode job s) b := fun b hb => by
    by_cases hapi : job.req.api = .responses
    · exact ⟨hapi, hrapi hapi b hb⟩
    · rw [hrkeep hapi, hfr, h.responses hapi] at hb
      exact nomatch hb
  have hant : ∀ b, a = some b → job.req.api = .anthropic ∧ Kept (decode job s) b := fun b hb => by
    by_cases hapi : job.req.api = .anthropic
    · have hk := haapi hapi b hb
      exact ⟨hapi, hk.length, hk.valid, hk.reached⟩
    · rw [hakeep hapi] at hb
      rw [show ({ decode job s with responses := r } : State).anthropic = s.anthropic from hfa, h.anthropic hapi] at hb
      exact nomatch hb
  have hsame : ∀ {b t}, Kept (decode job s) b → Kept { decode job s with responses := r, anthropic := a, thinking := t } b :=
    fun hk => ⟨hk.length, hk.valid, hk.reached⟩
  rw [finishThinking]
  by_cases hcalls : job.calls ≠ []
  · rw [if_pos hcalls]
    cases hc : job.canonical with
    | none => exact ⟨fun b hb => hsame (hres b hb).2, fun b hb => hsame (hant b hb).2, nofun⟩
    | some c =>
      dsimp only
      split
      · next hmove =>
        refine ⟨fun b hb => absurd (hres b hb).1 hmove.2, fun b hb => ?_, nofun⟩
        rw [hcanon (hant b hb).1] at hc
        exact nomatch hc
      · exact ⟨fun b hb => hsame (hres b hb).2, fun b hb => hsame (hant b hb).2, nofun⟩
  · rw [if_neg hcalls]
    split
    · next hrem =>
      have hkeep : ∀ b, s.thinking = some b → Kept (decode job s) b := fun b hb => decode_kept hrem.2.2 (h.thinking b hb)
      split
      · split
        · exact ⟨fun b hb => hsame (hres b hb).2, fun b hb => hsame (hant b hb).2, fun b hb => hsame (hkeep b (hft ▸ hb))⟩
        · refine ⟨fun b hb => hsame (hres b hb).2, fun b hb => hsame (hant b hb).2, fun b hb => ?_⟩
          obtain rfl := Option.some.inj hb
          exact Kept.of_prefix rfl List.prefix_rfl
      · exact ⟨fun b hb => hsame (hres b hb).2, fun b hb => hsame (hant b hb).2, fun b hb => hsame (hkeep b (hft ▸ hb))⟩
    · exact ⟨fun b hb => hsame (hres b hb).2, fun b hb => hsame (hant b hb).2, nofun⟩

/-! ## A request -/

def bindingOf (s : State) : Kind → Option Binding
  | .responses => s.responses
  | .anthropic => s.anthropic
  | .thinking => s.thinking

/-- What a plan continues from was accepted at the session's position, and its prompt goes on from there. -/
structure PlanOk (s : State) (req : Request) (p : Plan) : Prop where
  live : p.replaced = false → p.tokens = s.tokens ∧ p.valid = s.valid
  goesOn : ∀ k, p.kind = some k → s.tokens <+: p.prompt
  accepted : ∀ k, p.kind = some k → ∀ b, bindingOf s k = some b → b.liveTokens = s.pos
  responses : p.kind = some .responses → req.api = .responses
  anthropic : p.kind = some .anthropic → req.api = .anthropic

theorem PlanOk.none {s : State} {req : Request} {p : Plan} (hkind : p.kind = none)
    (hlive : p.replaced = false → p.tokens = s.tokens ∧ p.valid = s.valid) : PlanOk s req p where
  live := hlive
  goesOn k hk := by rw [hkind] at hk; exact nomatch hk
  accepted k hk := by rw [hkind] at hk; exact nomatch hk
  responses hk := by rw [hkind] at hk; exact nomatch hk
  anthropic hk := by rw [hkind] at hk; exact nomatch hk

theorem PlanOk.kept {s : State} {req : Request} {k : Kind} (more : List Nat)
    (hpos : ∃ b, bindingOf s k = some b ∧ b.liveTokens = s.pos) (hr : k = .responses → req.api = .responses)
    (ha : k = .anthropic → req.api = .anthropic) : PlanOk s req (keep s (some k) (s.tokens ++ more)) where
  live _ := ⟨rfl, rfl⟩
  goesOn _ _ := List.prefix_append _ _
  accepted k' hk b hb := by
    obtain rfl := Option.some.inj hk
    obtain ⟨b', hb', hpos⟩ := hpos
    obtain rfl := Option.some.inj (hb.symm.trans hb')
    exact hpos
  responses hk := hr (Option.some.inj hk)
  anthropic hk := ha (Option.some.inj hk)

theorem protocolPlan_ok {eng : Engine} {s : State} {req : Request} {p : Plan} (h : protocolPlan eng s req = some p) :
    PlanOk s req p := by
  rw [protocolPlan] at h
  split at h
  · exact nomatch h
  · split at h
    · next hapi =>
      split at h
      · next hv =>
        obtain rfl := Option.some.inj h
        exact PlanOk.kept _ (visible_pos hv) (fun _ => hapi) nofun
      · split at h
        · split at h
          · next hm =>
            obtain rfl := Option.some.inj h
            exact PlanOk.kept _ (matched_pos hm) (fun _ => hapi) nofun
          · exact nomatch h
        · exact nomatch h
    · next hapi =>
      split at h
      · split at h
        · next hm =>
          obtain rfl := Option.some.inj h
          exact PlanOk.kept _ (matched_pos hm) nofun fun _ => hapi
        · exact nomatch h
      · exact nomatch h
    · exact nomatch h

theorem cachePlan_ok (eng : Engine) (s : State) (job : Job) : PlanOk s job.req (cachePlan eng s job) := by
  have hkeep : ∀ prompt, PlanOk s job.req (keep s none prompt) := fun prompt => PlanOk.none rfl fun _ => ⟨rfl, rfl⟩
  rw [cachePlan]
  split
  · exact hkeep _
  · split
    · next hv =>
      split at hv
      · exact PlanOk.kept _ (visible_pos hv) nofun nofun
      · exact nomatch hv
    · split
      · exact hkeep _
      · split
        · exact hkeep _
        · next d _ =>
          rw [DiskLoad.plan]
          cases d.suffix <;> exact PlanOk.none rfl nofun

theorem plan_ok {eng : Engine} {s : State} {job : Job} {p : Plan} (h : plan eng s job = some p) : PlanOk s job.req p := by
  rw [plan] at h
  split at h
  · next hp =>
    obtain rfl := Option.some.inj h
    exact protocolPlan_ok hp
  · split at h
    · exact nomatch h
    · obtain rfl := Option.some.inj h
      exact cachePlan_ok eng s job

/-- After a sync that succeeded only what was continued from is left, and it begins the session. -/
theorem clearOthers_holds {s : State} {req : Request} {p : Plan} (hs : Holds s) (hp : PlanOk s req p) :
    Holds (clearOthers p.kind (s.withSession p.prompt true)) ∧ Continued req (clearOthers p.kind (s.withSession p.prompt true)) := by
  have hbegin : ∀ k b, p.kind = some k → bindingOf s k = some b → Kept s b →
      b.history.length = b.liveTokens ∧ b.history <+: p.prompt := fun k b hk hb hkept =>
    ⟨hkept.length, (hkept.reached (hp.accepted k hk b hb).le).trans (hp.goesOn k hk)⟩
  have hr : ∀ b, (clearOthers p.kind (s.withSession p.prompt true)).responses = some b → p.kind = some .responses ∧
      b.history.length = b.liveTokens ∧ b.history <+: p.prompt := fun b hb => by
    by_cases hk : p.kind = some .responses
    · have hb' : s.responses = some b := (if_pos hk).symm.trans hb
      exact ⟨hk, hbegin _ b hk hb' (hs.responses b hb')⟩
    · exact nomatch (if_neg hk).symm.trans hb
  have ha : ∀ b, (clearOthers p.kind (s.withSession p.prompt true)).anthropic = some b → p.kind = some .anthropic ∧
      b.history.length = b.liveTokens ∧ b.history <+: p.prompt := fun b hb => by
    by_cases hk : p.kind = some .anthropic
    · have hb' : s.anthropic = some b := (if_pos hk).symm.trans hb
      exact ⟨hk, hbegin _ b hk hb' (hs.anthropic b hb')⟩
    · exact nomatch (if_neg hk).symm.trans hb
  have ht : ∀ b, (clearOthers p.kind (s.withSession p.prompt true)).thinking = some b →
      b.history.length = b.liveTokens ∧ b.history <+: p.prompt := fun b hb => by
    by_cases hk : p.kind = some .thinking
    · have hb' : s.thinking = some b := (if_pos hk).symm.trans hb
      exact hbegin _ b hk hb' (hs.thinking b hb')
    · exact nomatch (if_neg hk).symm.trans hb
  constructor
  · exact ⟨fun b hb => Kept.of_prefix (hr b hb).2.1 (hr b hb).2.2, fun b hb => Kept.of_prefix (ha b hb).2.1 (ha b hb).2.2,
      fun b hb => Kept.of_prefix (ht b hb).1 (ht b hb).2⟩
  · refine ⟨fun hapi => ?_, fun hapi => ?_, ht⟩
    · exact Option.eq_none_iff_forall_ne_some.mpr fun b hb => hapi (hp.responses (hr b hb).1)
    · exact Option.eq_none_iff_forall_ne_some.mpr fun b hb => hapi (hp.anthropic (ha b hb).1)

/-- The prefill does not leave early with a session that has replaced the old one. -/
def Plan.Safe (p : Plan) : SyncOutcome → Prop
  | .refused interrupted => p.replaced = false ∨ p.loaded = true ∧ interrupted = false
  | .stopped _ interrupted =>
    p.replaced = false ∧ p.valid = true ∧ p.tokens <+: p.prompt ∨ p.loaded = true ∧ interrupted = false
  | .done => True

/-- The request takes no way out that leaves a binding on a session it was not remembered for. -/
def Careful (eng : Engine) (s : State) (job : Job) : Prop :=
  (∀ p, plan eng s job = some p → p.Safe job.outcome) ∧ (job.req.api = .anthropic → job.canonical = none)

theorem generateJob_holds {eng : Engine} {s : State} {job : Job} (hs : Holds s) (hc : Careful eng s job) :
    Holds (generateJob eng s job) := by
  rw [generateJob]
  by_cases hsteer : job.steeringError = true
  · rw [if_pos hsteer]
    exact hs
  rw [if_neg hsteer]
  cases hplan : plan eng s job with
  | none => exact hs
  | some p =>
    have hp := plan_ok hplan
    have hsafe := hc.1 p hplan
    dsimp only
    cases hout : job.outcome with
    | done =>
      simp only [sync]
      split
      · exact ⟨fun b hb => (hs.responses b hb).emptied, fun b hb => (hs.anthropic b hb).emptied,
          fun b hb => (hs.thinking b hb).emptied⟩
      · obtain ⟨hholds, hcont⟩ := clearOthers_holds hs hp
        split
        · exact hholds
        · exact finishTurn_holds hcont hc.2
    | refused interrupted =>
      rw [hout] at hsafe
      by_cases hl : p.loaded = true ∧ interrupted = false
      · have hsync : sync p (.refused interrupted) = ([], false, false) := if_pos hl
        rw [hsync]
        exact hs.emptied
      · have hsync : sync p (.refused interrupted) = (p.tokens, p.valid, false) := if_neg hl
        obtain ⟨ht, hv⟩ := hp.live (hsafe.resolve_right hl)
        rw [hsync, ht, hv]
        exact hs
    | stopped k interrupted =>
      rw [hout] at hsafe
      by_cases hl : p.loaded = true ∧ interrupted = false
      · have hsync : sync p (.stopped k interrupted) = ([], false, false) := if_pos hl
        rw [hsync]
        exact hs.emptied
      · obtain ⟨hr, hv, hpre⟩ := hsafe.resolve_right hl
        have hsync : sync p (.stopped k interrupted) = (p.prompt.take (max k p.tokens.length), interrupted, false) :=
          (if_neg hl).trans (if_pos ⟨hv, hpre⟩)
        obtain ⟨ht, hv'⟩ := hp.live hr
        rw [hsync]
        refine hs.grown (hv'.symm.trans hv) ?_
        rw [ht] at hpre ⊢
        refine List.prefix_of_prefix_length_le hpre (List.take_prefix _ _) ?_
        rw [List.length_take]
        exact Nat.le_min.mpr ⟨Nat.le_max_right _ _, hpre.length_le⟩

/-! ## Runs -/

/-- The server before its first request. -/
def started : State := ⟨[], false, none, none, none⟩

theorem started_holds : Holds started := ⟨nofun, nofun, nofun⟩

/-- Along requests that are careful, nothing attaches to a session it was not remembered for. -/
theorem bindings_stay_attached (eng : Engine) (jobs : List Job) (h : Runs.Admitted (generateJob eng) (Careful eng) started jobs) :
    Runs.Always (generateJob eng) Attached started jobs :=
  h.always (fun _ _ hs hc => generateJob_holds hs hc) (fun _ hs => hs.attached) started_holds

/-- An engine without text, and a turn of a protocol on it that meets nothing unusual. -/
def mute : Engine := ⟨fun _ => [], fun _ => [0]⟩

def turn (api : Api) (prompt generated : List Nat) (promptText : Bytes) (hrendered : api = .responses → promptText ≠ []) : Job :=
  { req := { api := api, chat := true, hasTools := false, prompt := prompt, promptText := promptText, responsesIds := []
             responsesSuffix := none, anthropicIds := [], anthropicSuffix := none, requiresLiveToolState := false
             rendered := hrendered }
    steeringError := false, disk := none, outcome := .done, watchdog := false, streamClosed := false
    decoded := .evaluated generated true, calls := [], finished := true, visibleAssistant := [], canonical := none
    shouldRemember := false, thinkingVisible := none }

theorem responses_turn_then_chat : Runs.Always (generateJob mute) Attached started
    [turn .responses [1, 2] [3] [97] (by decide), turn .openai [7, 8] [9] [98] (by decide)] :=
  bindings_stay_attached mute _ ⟨⟨fun _ _ => trivial, nofun⟩, ⟨fun _ _ => trivial, nofun⟩, trivial⟩

/-- A prefill that is interrupted leaves the binding, and another request's tokens where it points. -/
theorem interrupted_prefill_attaches : ¬∀ eng jobs, Runs.Always (generateJob eng) Attached started jobs := by
  intro h
  have hlast := (h mute [turn .responses [1, 2] [3] [97] (by decide),
    { turn .openai [7, 8, 9, 10] [] [98] (by decide) with outcome := .stopped 3 true }]).last
  obtain ⟨b, hb, hhistory⟩ := hlast.responsesText [97, 98] [98] rfl
  obtain rfl := Option.some.inj hb
  exact absurd hhistory (by decide)

end Ds4.Server.Live
