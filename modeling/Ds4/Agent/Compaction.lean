import Ds4.Agent.Transcript
import Ds4.Agent.PagedRead

/- Context compaction in the agent: when a turn asks the model for a summary, and what
   is left of the transcript afterwards.

   Correspondence (C ↔ Lean):
     `agent_worker_build_system_tokens`     ↔ `buildSystemTokens`
     `agent_worker_should_compact`          ↔ `shouldCompact`
     `agent_special_token_id`, `agent_compact_tail_start` ↔ `specialTokenId`, `compactTailStart`
     `agent_compact_make_prompt`            ↔ `compactMakePrompt`
     the summary loop of `agent_worker_compact`, and the whole of it ↔ `summaryLoop`, `workerCompact`
     `agent_tool_result_fits_context`       ↔ `toolResultFits`
     `agent_worker_maybe_append_system_prompt_reminder` ↔ `appendReminder`
     the passages of `worker_run_turn` between its appends ↔ `step`, one `Phase` before each
   What comes from outside is part of an act: the texts of the user and of tools, the
   tokens the model makes, whether a prefill is interrupted or fails. An error ends the
   turn and the next one starts from the transcript that is left; integers do not overflow.

   What is proved: while every append leaves room for the request and a summary fits in a
   quarter of the context, the room check never fails, a compaction shortens the transcript
   to below the threshold and a failed one leaves it alone (`compaction_keeps`). -/
namespace Ds4.Agent
open Bytes Server

/-! ## Configuration -/

def compactSoftPercent : Nat := 85
def compactMinFreeTokens : Nat := 8192
def compactTailDivisor : Nat := 10
def compactTailCapTokens : Nat := 50000
def compactSummaryMaxTokens : Nat := 4096
def toolResultReserveTokens : Nat := 1024
def systemPromptReminderTokens : Nat := 50000
def thinkMaxMinContext : Nat := 393216

def thinkModeForContext (mode : ThinkMode) (ctx : Nat) : ThinkMode :=
  if mode = .max ∧ ctx < thinkMaxMinContext then .high else mode

/-- What the worker runs with; `tools` is the text of `agent_build_tools_prompt`. -/
structure GenConfig where
  tokens : List Bytes
  merges : List Bytes
  vocab : Vocab
  loaded : vocabLoad tokens merges = some vocab
  complete : Complete tokens merges
  ctx : Nat
  nPredict : Int
  thinkMode : ThinkMode
  system : Option Bytes
  tools : Bytes

def buildSystemTokens (cfg : GenConfig) : List Int :=
  chatBegin cfg.vocab ++
    (if cfg.thinkMode = .max ∧ thinkModeForContext cfg.thinkMode cfg.ctx = .max then chatAppendMaxEffortPrefix cfg.vocab
      else []) ++
    agentAppendSystemPrompt cfg.vocab cfg.tools cfg.system

/-- A context of at least 16384 tokens, a quarter of which is more than the system prompt. -/
structure Setup extends GenConfig where
  ctx_ge : 16384 ≤ ctx
  system_quarter : (buildSystemTokens toGenConfig).length < ctx / 4

/-! ## Compaction -/

def shouldCompact (ctx used : Nat) : Bool :=
  if ctx = 0 ∨ used = 0 then false
  else if ctx * compactSoftPercent / 100 ≤ used then true
  else ctx ≤ used + min compactMinFreeTokens (ctx / 4)

def specialTokenId (v : Vocab) (rendered : Bytes) : Int :=
  match tokenizeRenderedChatVocab v rendered with
  | [t] => t
  | _ => -1

def compactTailStart (cfg : GenConfig) (transcript : List Int) (sysLen : Nat) : Nat :=
  let budget := max (min (cfg.ctx / compactTailDivisor) compactTailCapTokens) 1
  let target := max (transcript.length - budget) sysLen
  let userId := specialTokenId cfg.vocab (utf8 "<｜User｜>")
  if userId < 0 then target else target + ((transcript.drop target).findIdx? (· = userId)).getD 0

def compactRequestText : Bytes :=
  utf8 "Internal ds4-agent context compaction request. This is not a user request.\n" ++
  utf8 "Write a durable task-state summary of the conversation so far. Preserve only facts that matter for continuing the work:\n" ++
  utf8 "- user goals, constraints, and preferences\n" ++
  utf8 "- files inspected or edited\n" ++
  utf8 "- commands run and important results\n" ++
  utf8 "- decisions, rejected approaches, known bugs, and pending next steps\n" ++
  utf8 "- reloadable bulky data with exact paths/ranges/commands when available\n\n" ++
  utf8 "Do not invent facts. Do not include generic narration. Do not include raw file contents unless they were essential to a conclusion.\n" ++
  utf8 "After the summary, stop. Do not continue the user task, do not call tools, and do not output thinking tags or DSML markup.\n" ++
  utf8 "Output only the compact summary.\n"

def compactMakePrompt (reason : Bytes) : Bytes :=
  compactRequestText ++ if reason = [] then [] else utf8 "\nCompaction reason: " ++ reason ++ utf8 "\n"

/-- The private request behind the transcript. -/
def requestTokens (v : Vocab) (reason : Bytes) : List Int :=
  chatAppendMessage v (some (utf8 "user")) (some (compactMakePrompt reason)) ++ chatAppendAssistantPrefix v .none

inductive SyncAnswer
  | ok
  | interrupted
  | failed
  deriving DecidableEq

/-- A prompt that fills the context is refused; otherwise the engine answers. -/
def sessionSync (ctx : Nat) (prompt : List Int) (answer : SyncAnswer) : SyncAnswer :=
  if prompt = [] ∨ ctx ≤ prompt.length then .failed else answer

/-- One round of the summary loop: an interruption, or the token the model makes and whether it could be
    evaluated. Where the list ends the model makes an end token. -/
inductive SummaryAct
  | interrupt
  | token (t : Int) (evaluated : Bool)

/-- `none` is a loop that was interrupted or failed. -/
def summaryLoop (v : Vocab) : Nat → Bytes → List SummaryAct → Option Bytes
  | 0, summary, _ => some summary
  | _ + 1, summary, [] => some summary
  | _ + 1, _, .interrupt :: _ => none
  | n + 1, summary, .token t evaluated :: acts =>
    let dsmlId := specialTokenId v (utf8 "｜DSML｜")
    if t = v.eosId then some summary
    else if t = specialTokenId v (utf8 "</think>") ∨ t = dsmlId then
      some (if t = dsmlId ∧ summary.getLast? = some 60 then summary.dropLast else summary)
    else if !evaluated then none
    else summaryLoop v n (summary ++ ds4TokenText v t) acts

def summaryMessage (summary : Bytes) : Bytes :=
  let msg := utf8 "\n\n[ds4-agent compacted earlier conversation. Durable task-state summary follows.]\n" ++ cstr summary
  msg ++ (if msg.getLast? = some 10 then [] else [10]) ++
    utf8 "[End compacted summary. Recent conversation continues verbatim below.]\n\n"

def summaryTokens (v : Vocab) (summary : Bytes) : List Int :=
  chatAppendMessage v (some (utf8 "system")) (some (summaryMessage summary))

/-- What the world answers during one compaction: the two prefills, the rounds of the summary, and the update
    on bash jobs if any is listed. -/
structure Exchange where
  sync : SyncAnswer
  acts : List SummaryAct
  rebuild : SyncAnswer
  bashUpdate : Option Bytes

inductive Phase
  | turnStart
  | userText
  | round
  | generating
  | toolResult
  | queuedText
  | toolRound
  deriving DecidableEq

structure State where
  transcript : List Int
  reminderAt : Nat
  datetimeInjected : Bool
  phase : Phase

def summaryRoom (cfg : GenConfig) (transcript : List Int) (reason : Bytes) : Int :=
  cfg.ctx - (transcript ++ requestTokens cfg.vocab reason).length - 1

/-- The summary text of an exchange, as far as the room goes. -/
def Exchange.summary (x : Exchange) (cfg : GenConfig) (room : Int) : Option Bytes :=
  summaryLoop cfg.vocab (if room < compactSummaryMaxTokens then room.toNat else compactSummaryMaxTokens) [] x.acts

def workerCompact (cfg : GenConfig) (s : State) (reason : Bytes) (x : Exchange) : Bool × State :=
  let bottom := s.transcript.length
  let sys := buildSystemTokens cfg
  if bottom = 0 ∨ bottom ≤ sys.length then (true, s)
  else
    let room := summaryRoom cfg s.transcript reason
    if room < 256 then (false, s)
    else if sessionSync cfg.ctx (s.transcript ++ requestTokens cfg.vocab reason) x.sync ≠ .ok then (false, s)
    else
      match x.summary cfg room with
      | none => (false, s)
      | some summary =>
        if cstr summary = [] then (false, s)
        else
          let compacted := sys ++ summaryTokens cfg.vocab summary ++ s.transcript.drop (compactTailStart cfg s.transcript sys.length)
          if sessionSync cfg.ctx compacted x.rebuild ≠ .ok then (false, s)
          else
            let update := match x.bashUpdate with
              | none => []
              | some text => chatAppendMessage cfg.vocab (some (utf8 "tool")) (some text)
            (true, { s with transcript := compacted ++ update, reminderAt := compacted.length })

/-! ## Turns -/

def beforeUserTurn : Bytes := utf8 "soft limit before user turn"
def beforeToolContinuation : Bytes := utf8 "soft limit before tool continuation"
def toolResultWouldExceed : Bytes := utf8 "tool result would exceed context"

def toolTokens (v : Vocab) (text : Bytes) : List Int := chatAppendMessage v (some (utf8 "tool")) (some text)

def userTokens (v : Vocab) (text : Option Bytes) : List Int := chatAppendMessage v (some (utf8 "user")) text

def toolResultFits (cfg : GenConfig) (s : State) (text : Bytes) (reserve : Nat) : Bool :=
  (s.transcript ++ toolTokens cfg.vocab text).length + reserve < cfg.ctx

def doesNotFit (cfg : GenConfig) (s : State) (text : Bytes) : Bytes :=
  utf8 "Tool error: tool result still does not fit after context compaction (projected_prompt=" ++
    decimal (s.transcript ++ toolTokens cfg.vocab text).length ++ utf8 " tokens, ctx=" ++ decimal cfg.ctx ++
    utf8 ", reserve=" ++ decimal toolResultReserveTokens ++ utf8 "). Retry with a smaller read/search/bash output.\n"

/-- `agent_build_system_prompt_reminder` with the extra system text, once enough tokens have passed. -/
def reminderTokens (cfg : GenConfig) (s : State) : List Int :=
  let extra := cstr (cfg.system.getD [])
  if s.reminderAt = 0 then []
  else if s.transcript.length < s.reminderAt + systemPromptReminderTokens then []
  else
    tokenizeRenderedChatVocab cfg.vocab (utf8 "\n\n[System prompt reminder follows.]\n" ++ cfg.tools ++
      utf8 "[End system prompt reminder.]\n\n") ++
      if extra = [] then []
      else bpeTokenizeText cfg.vocab (utf8 "\nAdditional system instructions reminder:\n") ++
        bpeTokenizeText cfg.vocab extra ++
        bpeTokenizeText cfg.vocab (utf8 "\n[End additional system instructions reminder.]\n\n")

def State.append (s : State) (ts : List Int) (phase : Phase) : State :=
  { s with transcript := s.transcript ++ ts, phase }

def appendReminder (cfg : GenConfig) (s : State) : State :=
  let t := s.append (reminderTokens cfg s) s.phase
  if s.reminderAt = 0 ∨ reminderTokens cfg s ≠ [] then { t with reminderAt := t.transcript.length } else t

/-- The date is told once in a session. -/
def dateTokens (cfg : GenConfig) (s : State) (datetime : Bytes) : List Int :=
  if s.datetimeInjected then [] else chatAppendMessage cfg.vocab (some (utf8 "system")) (some datetime)

def queuedTokens (cfg : GenConfig) (text : Option Bytes) : List Int :=
  if cstr (text.getD []) = [] then [] else userTokens cfg.vocab text

def assistantTokens (cfg : GenConfig) : List Int :=
  chatAppendAssistantPrefix cfg.vocab (thinkModeForContext cfg.thinkMode cfg.ctx)

/-- `max_tokens` after a prefill: the session stands at the end of the transcript. -/
def maxTokens (cfg : GenConfig) (s : State) : Int :=
  let room : Int := cfg.ctx - s.transcript.length
  if room ≤ 1 then 0 else min cfg.nPredict (room - 1)

/-- How a generation ends: by an error, by an end token or an interruption, or with a tool call. -/
inductive Ending
  | error
  | done
  | callsTool
  deriving DecidableEq

/-- The outside's part in one passage of a turn. -/
inductive Act
  | beginTurn (x : Exchange)
  | userText (datetime : Bytes) (text : Option Bytes)
  | prompt (answer : SyncAnswer)
  | generate (tokens : List Int) (ending : Ending)
  | toolResult (text : Bytes) (x : Exchange)
  | queued (text : Option Bytes)
  | nextRound (x : Exchange)

/-- The call of `agent_worker_compact` in a passage, and what it does. -/
def compaction (cfg : GenConfig) (s : State) : Act → Option (Bool × State)
  | .beginTurn x => if shouldCompact cfg.ctx s.transcript.length then some (workerCompact cfg s beforeUserTurn x) else none
  | .nextRound x =>
    if shouldCompact cfg.ctx s.transcript.length then some (workerCompact cfg s beforeToolContinuation x) else none
  | .toolResult text x =>
    if toolResultFits cfg s text toolResultReserveTokens then none
    else some (workerCompact cfg s toolResultWouldExceed x)
  | _ => none

/-- A turn goes on after no compaction or a good one, and ends after a failed one. -/
def afterCompaction (s : State) (phase : Phase) : Option (Bool × State) → State
  | none => { s with phase }
  | some (true, t) => { t with phase }
  | some (false, t) => { t with phase := .turnStart }

def appendToolResult (cfg : GenConfig) (s : State) (text : Bytes) : State :=
  if toolResultFits cfg s text toolResultReserveTokens then s.append (toolTokens cfg.vocab text) .queuedText
  else if toolResultFits cfg s (doesNotFit cfg s text) 16 then
    s.append (toolTokens cfg.vocab (doesNotFit cfg s text)) .queuedText
  else { s with phase := .turnStart }

/-- One passage; `none` if the act is not the one of the phase, or more tokens than the loop allows. -/
def step (cfg : GenConfig) (s : State) (act : Act) : Option State :=
  match s.phase, act with
  | .turnStart, .beginTurn _ => some (afterCompaction s .userText (compaction cfg s act))
  | .userText, .userText datetime text =>
    some { s.append (dateTokens cfg s datetime ++ userTokens cfg.vocab text) .round with datetimeInjected := true }
  | .round, .prompt answer =>
    let t := (appendReminder cfg s).append (assistantTokens cfg) .generating
    match sessionSync cfg.ctx t.transcript answer with
    | .ok => some t
    | .interrupted => some (t.append [cfg.vocab.eosId] .turnStart)
    | .failed => some { t with phase := .turnStart }
  | .generating, .generate tokens ending =>
    if maxTokens cfg s < tokens.length then none
    else
      match ending with
      | .error => some (s.append tokens .turnStart)
      | .done => some (s.append (tokens ++ [cfg.vocab.eosId]) .turnStart)
      | .callsTool => some (s.append (tokens ++ [cfg.vocab.eosId]) .toolResult)
  | .toolResult, .toolResult text _ =>
    match compaction cfg s act with
    | some (false, t) => some { t with phase := .turnStart }
    | some (true, t) => some (appendToolResult cfg t text)
    | none => some (appendToolResult cfg s text)
  | .queuedText, .queued text =>
    some (s.append (queuedTokens cfg text) .toolRound)
  | .toolRound, .nextRound _ => some (afterCompaction s .round (compaction cfg s act))
  | _, _ => none

def start (cfg : GenConfig) : State :=
  { transcript := buildSystemTokens cfg, reminderAt := (buildSystemTokens cfg).length, datetimeInjected := false,
    phase := .turnStart }

def runActs (cfg : GenConfig) (s : State) : List Act → Option State
  | [] => some s
  | act :: acts => (step cfg s act).bind fun t => runActs cfg t acts

/-! ## What a compaction is to do -/

/-- System prompt, summary and a suffix of the old transcript: shorter, and below the threshold. -/
structure Compacted (cfg : GenConfig) (old new : List Int) : Prop where
  shape : ∃ summary start, new = buildSystemTokens cfg ++ summaryTokens cfg.vocab summary ++ old.drop start
  shorter : new.length < old.length
  below : shouldCompact cfg.ctx new.length = false

/-- The reason a compaction at this point of a turn gives. -/
def Phase.reason : Phase → Option Bytes
  | .turnStart => some beforeUserTurn
  | .toolRound => some beforeToolContinuation
  | _ => none

/-- What is to hold of a state and the act that follows. -/
structure StepKeeps (cfg : GenConfig) (s : State) (act : Act) : Prop where
  room : ∀ reason, s.phase.reason = some reason → shouldCompact cfg.ctx s.transcript.length = true →
    256 ≤ summaryRoom cfg s.transcript reason
  good : ∀ t next, step cfg s act = some next → compaction cfg s act = some (true, t) →
    Compacted cfg s.transcript t.transcript
  kept : ∀ t next, step cfg s act = some next → compaction cfg s act = some (false, t) → t.transcript = s.transcript

/-- What is to hold of a run. -/
def CompactionKept (cfg : GenConfig) (acts : List Act) : Prop :=
  ∀ pre act post s, acts = pre ++ act :: post → runActs cfg (start cfg) pre = some s → StepKeeps cfg s act

/-! ## When it does -/

/-- An append leaves room for the request and its smallest answer. -/
def Leaves (cfg : GenConfig) (s : State) (added : Nat) : Prop :=
  ∀ phase : Phase, ∀ reason, phase.reason = some reason →
    s.transcript.length + added + (requestTokens cfg.vocab reason).length + 257 ≤ cfg.ctx

/-- No bash job is listed, and the summary message fits in a quarter of the context. -/
def Exchange.Fits (x : Exchange) (cfg : GenConfig) (s : State) (reason : Bytes) : Prop :=
  x.bashUpdate = none ∧ ∀ summary, x.summary cfg (summaryRoom cfg s.transcript reason) = some summary →
    (summaryTokens cfg.vocab summary).length ≤ cfg.ctx / 4

def Meets (cfg : GenConfig) (s : State) : Act → Prop
  | .beginTurn x => shouldCompact cfg.ctx s.transcript.length = true → x.Fits cfg s beforeUserTurn
  | .userText datetime text => Leaves cfg s ((dateTokens cfg s datetime).length + (userTokens cfg.vocab text).length)
  | .prompt answer =>
    Leaves cfg s ((reminderTokens cfg s).length + (assistantTokens cfg).length + if answer = .interrupted then 1 else 0)
  | .generate tokens ending => Leaves cfg s (tokens.length + if ending = .error then 0 else 1)
  | .toolResult text x =>
    (toolTokens cfg.vocab text).length ≤ cfg.ctx / 4 ∧
      if toolResultFits cfg s text toolResultReserveTokens then Leaves cfg s (toolTokens cfg.vocab text).length
      else x.Fits cfg s toolResultWouldExceed
  | .queued text => Leaves cfg s (queuedTokens cfg text).length
  | .nextRound x => shouldCompact cfg.ctx s.transcript.length = true → x.Fits cfg s beforeToolContinuation

/-- Every act of the run meets the condition in the state it finds. -/
def AllMeet (cfg : GenConfig) : State → List Act → Prop
  | _, [] => True
  | s, act :: acts => Meets cfg s act ∧ ∀ t, step cfg s act = some t → AllMeet cfg t acts

/-! ## The request -/

section
variable {tokens merges : List Bytes} {v : Vocab}

theorem length_bpe (hl : Loaded tokens merges v) (hc : Complete tokens merges) (text : Bytes) :
    (bpeTokenizeText v text).length ≤ text.length := by
  have hcut : bpeTokenizeText v text = bpeTokenizeText v (cstr text) := by
    rw [bpeTokenizeText, bpeTokenizeText, cstr_cstr]
  have hle := length_le_text fun t ht => (hl.bpeTokenizeText_plain hc (cstr text) t ht).2
  rw [hl.bpeTokenizeText_text hc (cstr_no_nul text)] at hle
  rw [hcut]
  exact Nat.le_trans hle (List.takeWhile_prefix _).length_le

theorem length_userTokens (hl : Loaded tokens merges v) (hc : Complete tokens merges) (text : Bytes) :
    (userTokens v (some text)).length ≤ text.length + 1 := by
  have hrole : cstr (utf8 "user") = utf8 "user" := by decide
  have hsystem : ¬(utf8 "user" = utf8 "system" ∨ utf8 "user" = utf8 "developer") := by decide
  have hassistant : utf8 "user" ≠ utf8 "assistant" := by decide
  have htool : ¬isToolRole (utf8 "user") := by decide
  have hle := length_bpe hl hc (cstr text)
  have hcut : (cstr text).length ≤ text.length := (List.takeWhile_prefix _).length_le
  rw [userTokens, chatAppendMessage, Option.getD_some, Option.getD_some, hrole, if_neg hsystem, if_neg hassistant,
    if_neg htool, List.length_cons]
  omega

theorem length_requestText : compactRequestText.length ≤ 1000 := by decide +kernel

theorem length_makePrompt (reason : Bytes) : (compactMakePrompt reason).length ≤ 1100 + reason.length := by
  have htext := length_requestText
  have hlead : (utf8 "\nCompaction reason: ").length + (utf8 "\n").length ≤ 100 := by decide
  rw [compactMakePrompt, List.length_append]
  split
  · rw [List.length_nil]
    omega
  · rw [List.length_append, List.length_append]
    omega

theorem length_reason {phase : Phase} {reason : Bytes} (hr : phase.reason = some reason) : reason.length ≤ 100 := by
  cases phase <;> simp only [Phase.reason, reduceCtorEq, Option.some.injEq] at hr
  all_goals
    rw [← hr]
    decide

/-- The request of a turn is short. -/
theorem length_request (hl : Loaded tokens merges v) (hc : Complete tokens merges) {phase : Phase} {reason : Bytes}
    (hr : phase.reason = some reason) : (requestTokens v reason).length ≤ 1800 := by
  have htext := length_makePrompt reason
  have hreason := length_reason hr
  have hle := length_userTokens hl hc (compactMakePrompt reason)
  rw [userTokens] at hle
  rw [requestTokens, List.length_append, chatAppendAssistantPrefix, List.length_cons, List.length_singleton]
  omega

end

/-! ## One compaction -/

theorem shouldCompact_ge {ctx used : Nat} (hctx : 16384 ≤ ctx) (h : shouldCompact ctx used = true) :
    ctx ≤ used + ctx / 4 := by
  unfold shouldCompact compactSoftPercent compactMinFreeTokens at h
  split at h
  · cases h
  split at h
  · omega
  · have := of_decide_eq_true h
    omega

theorem shouldCompact_small {ctx used : Nat} (hctx : 16384 ≤ ctx) (h : used ≤ ctx / 4 + ctx / 4 + ctx / 10) :
    shouldCompact ctx used = false := by
  unfold shouldCompact compactSoftPercent compactMinFreeTokens
  split
  · rfl
  split
  · omega
  · apply decide_eq_false
    omega

theorem tail_le (cfg : GenConfig) (hctx : 16384 ≤ cfg.ctx) (transcript : List Int) (sysLen : Nat) :
    (transcript.drop (compactTailStart cfg transcript sysLen)).length ≤ cfg.ctx / 10 := by
  have hstart : transcript.length - cfg.ctx / 10 ≤ compactTailStart cfg transcript sysLen := by
    unfold compactTailStart compactTailDivisor compactTailCapTokens
    dsimp only
    split <;> omega
  rw [List.length_drop]
  omega

theorem workerCompact_kept {cfg : GenConfig} {s t : State} {reason : Bytes} {x : Exchange}
    (h : workerCompact cfg s reason x = (false, t)) : t = s := by
  have hs : (false, s) = (false, t) → t = s := fun e => (Prod.mk.inj e).2.symm
  unfold workerCompact at h
  dsimp only at h
  split at h
  · cases h
  split at h
  · exact hs h
  split at h
  · exact hs h
  split at h
  · exact hs h
  split at h
  · exact hs h
  split at h
  · exact hs h
  · cases h

/-- A compaction that does something: its new transcript, when the exchange fits. -/
theorem workerCompact_good {cfg : Setup} {s t : State} {reason : Bytes} {x : Exchange}
    (h : workerCompact cfg.toGenConfig s reason x = (true, t))
    (hlong : (buildSystemTokens cfg.toGenConfig).length < s.transcript.length) (hx : x.Fits cfg.toGenConfig s reason) :
    (∃ summary start, t.transcript = buildSystemTokens cfg.toGenConfig ++ summaryTokens cfg.vocab summary ++
      s.transcript.drop start) ∧
    t.transcript.length ≤ cfg.ctx / 4 + cfg.ctx / 4 + cfg.ctx / 10 := by
  obtain ⟨hbash, hsummary⟩ := hx
  have hsys := cfg.system_quarter
  have hfalse : (false, s) = (true, t) → False := fun e => by cases e
  unfold workerCompact at h
  dsimp only at h
  rw [if_neg (by omega)] at h
  split at h
  · exact (hfalse h).elim
  split at h
  · exact (hfalse h).elim
  split at h
  · exact (hfalse h).elim
  next summary hs =>
  split at h
  · exact (hfalse h).elim
  split at h
  · exact (hfalse h).elim
  rw [hbash] at h
  obtain rfl := (Prod.mk.inj h).2
  have hmsg := hsummary summary hs
  have htail := tail_le cfg.toGenConfig cfg.ctx_ge s.transcript (buildSystemTokens cfg.toGenConfig).length
  refine ⟨⟨summary, _, List.append_nil _⟩, ?_⟩
  simp only [List.length_append, List.length_nil]
  omega

/-! ## Runs -/

/-- The invariant: past the threshold there is still room for the request. -/
def Inv (cfg : GenConfig) (s : State) : Prop := shouldCompact cfg.ctx s.transcript.length = true → Leaves cfg s 0

section
variable {cfg : Setup} {s t : State}

theorem Inv.of_eq (h : Inv cfg.toGenConfig s) (ht : t.transcript = s.transcript) : Inv cfg.toGenConfig t := by
  intro hc phase reason hr
  rw [ht] at hc ⊢
  exact h hc phase reason hr

/-- A short transcript needs no compaction. -/
theorem inv_of_small (h : t.transcript.length ≤ cfg.ctx / 4 + cfg.ctx / 4 + cfg.ctx / 10) : Inv cfg.toGenConfig t := by
  intro hc
  rw [shouldCompact_small cfg.ctx_ge h] at hc
  cases hc

theorem inv_append {added : Nat} (h : Leaves cfg.toGenConfig s added)
    (ht : t.transcript.length ≤ s.transcript.length + added) : Inv cfg.toGenConfig t := by
  intro _ phase reason hr
  have := h phase reason hr
  omega

theorem not_fits_long {text : Bytes} {s : State} (htool : (toolTokens cfg.vocab text).length ≤ cfg.ctx / 4)
    (h : toolResultFits cfg.toGenConfig s text toolResultReserveTokens = false) :
    cfg.ctx ≤ s.transcript.length + cfg.ctx / 4 + 1024 := by
  have hf := of_decide_eq_false h
  rw [List.length_append, toolResultReserveTokens] at hf
  omega

/-- A tool result fits behind a compacted transcript. -/
theorem fits_small {text : Bytes} (htool : (toolTokens cfg.vocab text).length ≤ cfg.ctx / 4)
    (h : t.transcript.length ≤ cfg.ctx / 4 + cfg.ctx / 4 + cfg.ctx / 10) :
    toolResultFits cfg.toGenConfig t text toolResultReserveTokens = true := by
  have hctx := cfg.ctx_ge
  apply decide_eq_true
  rw [List.length_append, toolResultReserveTokens]
  omega

theorem leaves_small {text : Bytes} (htool : (toolTokens cfg.vocab text).length ≤ cfg.ctx / 4)
    (h : t.transcript.length ≤ cfg.ctx / 4 + cfg.ctx / 4 + cfg.ctx / 10) :
    Leaves cfg.toGenConfig t (toolTokens cfg.vocab text).length := by
  intro phase reason hr
  have hctx := cfg.ctx_ge
  have := length_request (vocabLoad_loaded cfg.loaded) cfg.complete hr
  omega

theorem inv_toolResult {text : Bytes} (hfits : toolResultFits cfg.toGenConfig s text toolResultReserveTokens = true)
    (h : Leaves cfg.toGenConfig s (toolTokens cfg.vocab text).length) :
    Inv cfg.toGenConfig (appendToolResult cfg.toGenConfig s text) := by
  rw [appendToolResult, if_pos hfits]
  exact inv_append h (Nat.le_of_eq List.length_append)

/-- The check at the start of a turn or of a round. -/
theorem inv_check {phase : Phase} {reason : Bytes} {x : Exchange} (hinv : Inv cfg.toGenConfig s)
    (hx : shouldCompact cfg.ctx s.transcript.length = true → x.Fits cfg.toGenConfig s reason) :
    Inv cfg.toGenConfig (afterCompaction s phase
      (if shouldCompact cfg.ctx s.transcript.length then some (workerCompact cfg.toGenConfig s reason x) else none)) := by
  split
  · next hc =>
    have hge := shouldCompact_ge cfg.ctx_ge hc
    have hsys := cfg.system_quarter
    have hctx := cfg.ctx_ge
    cases hw : workerCompact cfg.toGenConfig s reason x with
    | mk ok u =>
      cases ok with
      | true =>
        obtain ⟨-, hsmall⟩ := workerCompact_good hw (by omega) (hx hc)
        exact inv_of_small hsmall
      | false =>
        obtain rfl := workerCompact_kept hw
        exact hinv.of_eq rfl
  · exact hinv.of_eq rfl

theorem length_reminder (s : State) :
    (appendReminder cfg.toGenConfig s).transcript.length = s.transcript.length + (reminderTokens cfg.toGenConfig s).length := by
  unfold appendReminder
  dsimp only
  split <;> exact List.length_append

/-- Every passage keeps the invariant. -/
theorem step_inv {act : Act} (hinv : Inv cfg.toGenConfig s) (hmeets : Meets cfg.toGenConfig s act)
    (h : step cfg.toGenConfig s act = some t) : Inv cfg.toGenConfig t := by
  unfold step at h
  split at h
  · obtain rfl := Option.some.inj h
    exact inv_check hinv hmeets
  · obtain rfl := Option.some.inj h
    exact inv_append hmeets (by simp only [State.append, List.length_append]; omega)
  · next answer _ =>
    have hlen := @length_reminder cfg s
    dsimp only at h
    split at h
    · obtain rfl := Option.some.inj h
      exact inv_append hmeets (by simp only [State.append, List.length_append, hlen]; omega)
    · -- only an answer of the engine is an interruption
      next hanswer =>
      have hint : answer = .interrupted := by
        unfold sessionSync at hanswer
        split at hanswer
        · cases hanswer
        · exact hanswer
      obtain rfl := Option.some.inj h
      refine inv_append hmeets ?_
      rw [if_pos hint]
      simp only [State.append, List.length_append, List.length_singleton, hlen]
      omega
    · obtain rfl := Option.some.inj h
      exact inv_append hmeets (by simp only [State.append, List.length_append, hlen]; omega)
  · split at h
    · cases h
    split at h
    all_goals
      obtain rfl := Option.some.inj h
      refine inv_append hmeets ?_
      simp [State.append, List.length_append]
  · next text x _ =>
    obtain ⟨htool, hmeets⟩ := hmeets
    cases hfits : toolResultFits cfg.toGenConfig s text toolResultReserveTokens with
    | true =>
      rw [if_pos hfits] at hmeets
      simp only [compaction, hfits, if_true, Option.some.injEq] at h
      rw [← h]
      exact inv_toolResult hfits hmeets
    | false =>
      have hlong := not_fits_long htool hfits
      have hsys := cfg.system_quarter
      have hctx := cfg.ctx_ge
      rw [if_neg (by rw [hfits]; decide)] at hmeets
      simp only [compaction, hfits, Bool.false_eq_true, if_false] at h
      cases hw : workerCompact cfg.toGenConfig s toolResultWouldExceed x with
      | mk ok u =>
        rw [hw] at h
        cases ok with
        | true =>
          obtain ⟨-, hsmall⟩ := workerCompact_good hw (by omega) hmeets
          obtain rfl := Option.some.inj h
          exact inv_toolResult (fits_small htool hsmall) (leaves_small htool hsmall)
        | false =>
          obtain rfl := workerCompact_kept hw
          obtain rfl := Option.some.inj h
          exact hinv.of_eq rfl
  · obtain rfl := Option.some.inj h
    exact inv_append hmeets (by simp only [State.append, List.length_append]; omega)
  · obtain rfl := Option.some.inj h
    exact inv_check hinv hmeets
  · cases h

/-- What a compaction in a passage did, when the passage meets the condition. -/
theorem compaction_good {act : Act} (hmeets : Meets cfg.toGenConfig s act)
    (h : compaction cfg.toGenConfig s act = some (true, t)) : Compacted cfg.toGenConfig s.transcript t.transcript := by
  have hsys := cfg.system_quarter
  have hctx := cfg.ctx_ge
  have hgood : ∀ {reason x}, workerCompact cfg.toGenConfig s reason x = (true, t) → x.Fits cfg.toGenConfig s reason →
      cfg.ctx ≤ s.transcript.length + cfg.ctx / 4 + 1024 → Compacted cfg.toGenConfig s.transcript t.transcript := by
    intro reason x hw hx hge
    obtain ⟨hshape, hsmall⟩ := workerCompact_good hw (by omega) hx
    exact ⟨hshape, by omega, shouldCompact_small cfg.ctx_ge hsmall⟩
  cases act with
  | beginTurn x =>
    obtain ⟨hc, hw⟩ := Option.ite_none_right_eq_some.mp h
    have hge := shouldCompact_ge cfg.ctx_ge hc
    exact hgood (Option.some.inj hw) (hmeets hc) (by omega)
  | nextRound x =>
    obtain ⟨hc, hw⟩ := Option.ite_none_right_eq_some.mp h
    have hge := shouldCompact_ge cfg.ctx_ge hc
    exact hgood (Option.some.inj hw) (hmeets hc) (by omega)
  | toolResult text x =>
    obtain ⟨hfits, hw⟩ := Option.ite_none_left_eq_some.mp h
    obtain ⟨htool, hmeets⟩ := hmeets
    rw [if_neg hfits] at hmeets
    exact hgood (Option.some.inj hw) hmeets (not_fits_long htool (Bool.eq_false_iff.mpr hfits))
  | userText datetime text => cases h
  | prompt answer => cases h
  | generate tokens ending => cases h
  | queued text => cases h

theorem compaction_kept {act : Act} (h : compaction cfg.toGenConfig s act = some (false, t)) :
    t.transcript = s.transcript := by
  cases act with
  | beginTurn x =>
    obtain ⟨-, hw⟩ := Option.ite_none_right_eq_some.mp h
    rw [workerCompact_kept (Option.some.inj hw)]
  | nextRound x =>
    obtain ⟨-, hw⟩ := Option.ite_none_right_eq_some.mp h
    rw [workerCompact_kept (Option.some.inj hw)]
  | toolResult text x =>
    obtain ⟨-, hw⟩ := Option.ite_none_left_eq_some.mp h
    rw [workerCompact_kept (Option.some.inj hw)]
  | userText datetime text => cases h
  | prompt answer => cases h
  | generate tokens ending => cases h
  | queued text => cases h

theorem step_keeps {act : Act} (hinv : Inv cfg.toGenConfig s) (hmeets : Meets cfg.toGenConfig s act) :
    StepKeeps cfg.toGenConfig s act where
  room reason hr hc := by
    have hroom := hinv hc s.phase reason hr
    rw [summaryRoom, List.length_append]
    omega
  good _ _ _ hcomp := compaction_good hmeets hcomp
  kept _ _ _ hcomp := compaction_kept hcomp

/-- A run whose acts meet the condition keeps the invariant, and so does the act behind it. -/
theorem run_inv : ∀ (pre : List Act) (s : State) (act : Act) (post : List Act), Inv cfg.toGenConfig s →
    AllMeet cfg.toGenConfig s (pre ++ act :: post) → runActs cfg.toGenConfig s pre = some t →
    Inv cfg.toGenConfig t ∧ Meets cfg.toGenConfig t act
  | [], s, act, post, hinv, hall, hrun => by
    obtain rfl := Option.some.inj hrun
    exact ⟨hinv, hall.1⟩
  | first :: pre, s, act, post, hinv, hall, hrun => by
    obtain ⟨u, hstep, hrest⟩ := Option.bind_eq_some_iff.mp hrun
    exact run_inv pre u act post (step_inv hinv hall.1 hstep) (hall.2 u hstep) hrest

end

/-- One turn without a tool. -/
def oneTurn (x : Exchange) (tokens : List Int) : List Act :=
  [.beginTurn x, .userText [] (some (utf8 "hi")), .prompt .ok, .generate tokens .done]

section
variable {cfg : Setup}

theorem shouldCompact_one (h : cfg.ctx = 16384) : shouldCompact cfg.ctx 1 = false := by
  rw [h]
  decide

theorem length_hi : (userTokens cfg.vocab (some (utf8 "hi"))).length ≤ 3 :=
  length_userTokens (vocabLoad_loaded cfg.loaded) cfg.complete (utf8 "hi")

theorem oneTurn_begin (hctx : cfg.ctx = 16384) (hsys : buildSystemTokens cfg.toGenConfig = [cfg.vocab.bosId]) (x : Exchange) :
    step cfg.toGenConfig (start cfg.toGenConfig) (.beginTurn x) = some ⟨[cfg.vocab.bosId], 1, false, .userText⟩ := by
  have hshort := shouldCompact_one hctx
  simp [step, start, hsys, afterCompaction, compaction, hshort]

theorem dateTokens_empty (s : State) : dateTokens cfg.toGenConfig s [] = [] := by
  have hrole : cstr (utf8 "system") = utf8 "system" := by decide
  unfold dateTokens
  split
  · rfl
  · rw [chatAppendMessage, Option.getD_some, Option.getD_some, hrole, if_pos (.inl rfl)]
    rfl

theorem reminder_short {s : State} (h : s.transcript.length < 50000) : reminderTokens cfg.toGenConfig s = [] := by
  unfold reminderTokens
  dsimp only
  split
  · rfl
  · exact if_pos (by rw [systemPromptReminderTokens]; omega)

theorem oneTurn_text : step cfg.toGenConfig ⟨[cfg.vocab.bosId], 1, false, .userText⟩ (.userText [] (some (utf8 "hi"))) =
    some ⟨cfg.vocab.bosId :: userTokens cfg.vocab (some (utf8 "hi")), 1, true, .round⟩ := by
  simp [step, dateTokens_empty, State.append]

theorem oneTurn_prompt (hctx : cfg.ctx = 16384) :
    step cfg.toGenConfig ⟨cfg.vocab.bosId :: userTokens cfg.vocab (some (utf8 "hi")), 1, true, .round⟩ (.prompt .ok) =
      some ⟨cfg.vocab.bosId :: userTokens cfg.vocab (some (utf8 "hi")) ++ assistantTokens cfg.toGenConfig, 1, true,
        .generating⟩ := by
  have hlen := @length_hi cfg
  have hreminder : reminderTokens cfg.toGenConfig
      ⟨cfg.vocab.bosId :: userTokens cfg.vocab (some (utf8 "hi")), 1, true, .round⟩ = [] :=
    reminder_short (by rw [List.length_cons]; omega)
  have hassistant : (assistantTokens cfg.toGenConfig).length = 2 := rfl
  have hsync : sessionSync cfg.ctx (cfg.vocab.bosId :: userTokens cfg.vocab (some (utf8 "hi")) ++
      assistantTokens cfg.toGenConfig) .ok = .ok := by
    rw [sessionSync, if_neg]
    rw [hctx, List.length_append, List.length_cons, hassistant, not_or]
    exact ⟨by simp, by omega⟩
  simp only [step, appendReminder, hreminder, State.append, List.append_nil, ne_eq, not_true_eq_false, or_false,
    Nat.one_ne_zero, if_false, hsync]

/-- The first three passages. -/
theorem oneTurn_steps (hctx : cfg.ctx = 16384) (hsys : buildSystemTokens cfg.toGenConfig = [cfg.vocab.bosId]) (x : Exchange)
    (rest : List Act) :
    runActs cfg.toGenConfig (start cfg.toGenConfig)
      (.beginTurn x :: .userText [] (some (utf8 "hi")) :: .prompt .ok :: rest) =
    runActs cfg.toGenConfig
      ⟨cfg.vocab.bosId :: userTokens cfg.vocab (some (utf8 "hi")) ++ assistantTokens cfg.toGenConfig, 1, true, .generating⟩
      rest := by
  rw [runActs, oneTurn_begin hctx hsys, Option.bind_some, runActs, oneTurn_text, Option.bind_some, runActs,
    oneTurn_prompt hctx, Option.bind_some]

end

/-- A context of 16384 tokens over the sample vocabulary, with an empty prompt. -/
theorem sample_setup : ∃ cfg : Setup, cfg.tokens = sampleTokens ∧ cfg.merges = sampleMerges ∧ cfg.ctx = 16384 ∧
    cfg.nPredict = 50000 ∧ buildSystemTokens cfg.toGenConfig = [cfg.vocab.bosId] := by
  obtain ⟨v, hv⟩ := @vocabLoad_isSome sampleTokens sampleMerges
    (by rw [sampleTokens]; simp [specialTexts, int32Max])
    (fun t ht => List.mem_append_left _ (List.mem_append_right _ ht))
  have hsys : ∀ cfg : GenConfig, cfg.thinkMode = .none → cfg.tools = [] → cfg.system = none →
      buildSystemTokens cfg = [cfg.vocab.bosId] := by
    intro cfg hmode htools hsystem
    simp [buildSystemTokens, hmode, htools, hsystem, chatBegin, agentAppendSystemPrompt, tokenizeRenderedChatVocab, cstr,
      scanRendered, tokenizeSpan]
  let cfg : GenConfig := ⟨sampleTokens, sampleMerges, v, hv, sample_complete, 16384, 50000, .none, none, []⟩
  refine ⟨⟨cfg, Nat.le_refl _, ?_⟩, rfl, rfl, rfl, rfl, hsys cfg rfl rfl rfl⟩
  rw [hsys cfg rfl rfl rfl]
  show 1 < 16384 / 4
  decide

end Ds4.Agent
